/-
LiteKV.Net.StoreSpecTheorems — the engine is the store of `StoreSpec`.

`handler_answers` gives the reply of every command on the values from what the
store holds: most operations of the container go through `onType` or
`createOrOnType`, and `onType_ask` turns what they hand back into a question
about the cell. `handler_serves` adds what is left behind. The commands about
deadlines and the timers are equations (`timed_answer`, `timed_turn`), for a
process whose timers are those of its expirations (`Paired`). All are one
step, `serve_refines`, and `run_refines` is a run of any events.
-/
import LiteKV.Net.StoreSpec
import LiteKV.Net.ReplyTheorems
import LiteKV.Net.FrameTheorems
import LiteKV.Net.ServingTheorems

namespace LiteKV

open Lib Lib.AssocList Lib.Distinct

/-! ## Operations as questions -/

namespace Cell

variable {α : Type} {proj : Value → Option α} {m w : Bytes} {v : Value}

theorem ask_wrong {f : α → Bytes} (h : proj v = none) : ask proj m w f (some v) = w := by
  simp only [ask, h]

theorem ask_some {f : α → Bytes} {x : α} (h : proj v = some x) :
    ask proj m w f (some v) = f x := by
  simp only [ask, h]

theorem asks_wrong {f : α → Bytes → Prop} (h : proj v = none) : Asks proj m w f (some v) w := by
  simp only [Asks, h]

theorem asks_some {f : α → Bytes → Prop} {x : α} {reply : Bytes} (h : proj v = some x)
    (hr : f x reply) : Asks proj m w f (some v) reply := by
  simpa only [Asks, h] using hr

end Cell

namespace KVContainer

section

variable {h : KVContainer} {key : Key} {α α' β : Type} {proj : Payload → Option α}
  {proj' : Value → Option α'} {abs : α → α'} (hc : Compatible proj proj' abs) (now : Nat)
  {missing : β} {f : α → Payload × β} {reply : β → ErrCode → Bytes} {m w : Bytes}
  {g : α' → Bytes}

include hc

/-- An operation on a typed key answers a question about its cell. -/
theorem onType_ask (hm : reply missing .keyNotFound = m) (hw : reply missing .wrongType = w)
    (hg : ∀ o, reply (f o).2 .ok = g (abs o)) :
    reply (h.onType proj now key missing f).2.1 (h.onType proj now key missing f).2.2
      = Cell.ask proj' m w g (h.view key) := by
  unfold onType
  cases hf : h.find key with
  | none =>
      rw [view_of_find_none hf]
      exact hm
  | some obj =>
      have hcell := hc obj.payload
      rw [view_of_find hf]
      cases hp : proj obj.payload with
      | none =>
          rw [hp] at hcell
          simpa only [hp, Cell.ask_wrong hcell] using hw
      | some x =>
          rw [hp] at hcell
          simpa only [hp, Cell.ask_some hcell] using hg x

/-- The same where the answers are told by a relation. -/
theorem onType_asks {G : α' → Bytes → Prop} (hm : reply missing .keyNotFound = m)
    (hw : reply missing .wrongType = w) (hg : ∀ o, G (abs o) (reply (f o).2 .ok)) :
    Cell.Asks proj' m w G (h.view key)
      (reply (h.onType proj now key missing f).2.1 (h.onType proj now key missing f).2.2) := by
  unfold onType
  cases hf : h.find key with
  | none =>
      rw [view_of_find_none hf]
      exact hm
  | some obj =>
      have hcell := hc obj.payload
      rw [view_of_find hf]
      cases hp : proj obj.payload with
      | none =>
          rw [hp] at hcell
          simpa only [hp, hw] using Cell.asks_wrong hcell
      | some x =>
          rw [hp] at hcell
          simpa only [hp] using Cell.asks_some hcell (hg x)

/-- An operation that creates its key answers for the fresh object. -/
theorem createOrOnType_ask {fresh : α} (hm : reply (f fresh).2 .ok = m)
    (hw : reply missing .wrongType = w) (hg : ∀ o, reply (f o).2 .ok = g (abs o)) :
    reply (h.createOrOnType proj fresh now key missing f).2.1
        (h.createOrOnType proj fresh now key missing f).2.2
      = Cell.ask proj' m w g (h.view key) := by
  unfold createOrOnType
  cases hf : h.find key with
  | none =>
      rw [view_of_find_none hf]
      exact hm
  | some obj =>
      have hcell := hc obj.payload
      rw [view_of_find hf]
      cases hp : proj obj.payload with
      | none =>
          rw [hp] at hcell
          simpa only [hp, Cell.ask_wrong hcell] using hw
      | some x =>
          rw [hp] at hcell
          simpa only [hp, Cell.ask_some hcell] using hg x

end

/-! ## Lists -/

theorem length_pushAll (left : Bool) (values : List Bytes) (o : ListObject) :
    (pushAll o left values).length = o.toList.length + values.length := by
  rw [ListObject.length_eq, toList_pushAll, Cell.pushed]
  cases left <;> simp [Nat.add_comm]

/-- `lindex` reads the element at the index, or nothing. -/
theorem listItemAtIndex_reply (h : KVContainer) (now : Nat) (key : Key) {index : Int}
    (hi : index < 2 ^ 31) :
    (let r := h.listItemAtIndex now key index
     if r.2.2 = .ok then packStringValueReply r.2.1.toStdString
     else if r.2.2 = .wrongType then kWrongTypeMsg
     else kNilMsg) = Cell.indexReply index (h.view key) := by
  unfold listItemAtIndex Cell.indexReply
  cases hf : h.find key with
  | none => rw [view_of_find_none hf]; rfl
  | some obj =>
      have hcell := compatible_list obj.payload
      rw [view_of_find hf, Cell.ask, hcell]
      cases hp : obj.payload.asList with
      | none => simp only [hp]; rfl
      | some o =>
          have hlt := normIndex_lt hi o.toList.length
          simp only [hp, ListObject.length_eq, Option.map_some]
          generalize normIndex index o.toList.length = i at hlt
          by_cases hneg : i < 0
          · rw [if_pos hneg, if_pos hneg]
            rfl
          · rw [if_neg hneg, if_neg hneg]
            have hr := o.repr_toList
            by_cases hin : i.toNat < o.toList.length
            · have hget := DList.getAt_repr hr hin (by omega)
              simp only [ListObject.getAt, hget, List.getElem?_eq_getElem hin]
              rfl
            · have hthrows : o.list.getAt i.toNat = .error .outOfRange := by
                rw [DList.getAt, DList.index_throws hr (by omega)]
                rfl
              simp only [ListObject.getAt, hthrows, List.getElem?_eq_none (Nat.le_of_not_lt hin)]
              rfl

/-- The blocks behind the first one hold the rest of the list. -/
theorem length_le_reach {d : DList} {l : List Bytes} (h : DList.Repr d l) : l.length ≤ d.reach := by
  obtain ⟨n, hn, -⟩ := h.win.node h.bnode
  have hocc := h.win.occ _ n hn
  have hfit := h.win.fits
  have hb := h.bnode
  have hstart : 128 * d.begin_.node ≤ d.start ∧ d.start < 128 * d.begin_.node + 128 := by
    rcases h.cursors with ⟨-, hp, -⟩ | ⟨bo, eo, hp, -, hbo, -⟩ <;>
      simp only [DList.start, hp, Option.getD_none, Option.getD_some] <;> omega
  rw [DList.reach, DList.frontCount_of_node hn, hocc]
  omega

/-- A negative index is counted from the end, in `int`. -/
theorem normIndex_of_int {n : Nat} (hn : n < 2 ^ 31) {index : Int}
    (hi : -2 ^ 31 ≤ index ∧ index < 2 ^ 31) :
    normIndex index n = if index < 0 then index + n else index := by
  unfold normIndex DList.toInt32
  split <;> omega

/-- `lrange` of a range that fits. -/
theorem listRange_reply (h : KVContainer) (now : Nat) (key : Key) {b e : Int}
    (hb : -2 ^ 31 ≤ b ∧ b < 2 ^ 31) (he : -2 ^ 31 ≤ e ∧ e < 2 ^ 31)
    (hfits : Cell.RangeFits b e (h.view key)) :
    (let r := h.listRange now key b e
     if r.2.2 = .ok then
       r.2.1.map fun ranges => if ranges.isEmpty then kArrayEmptyMsg else packArrayMsg ranges
     else if r.2.2 = .wrongType then .ok kWrongTypeMsg
     else .ok kArrayEmptyMsg) = Except.ok (Cell.rangeReply b e (h.view key)) := by
  have hpack (items : List DynamicString) :
      (if items.isEmpty then kArrayEmptyMsg else packArrayMsg items) = packArrayMsg items := by
    cases items with
    | nil => exact packArrayMsg_nil.symm
    | cons x xs => rfl
  unfold listRange listRangeCommonOperation Cell.rangeReply
  cases hf : h.find key with
  | none => rw [view_of_find_none hf]; rfl
  | some obj =>
      rw [view_of_find hf] at hfits ⊢
      have hcell := compatible_list obj.payload
      cases hp : obj.payload.asList with
      | none =>
          rw [hp] at hcell
          rw [Cell.ask_wrong hcell]
          simp only [hp]
          rfl
      | some o =>
          rw [hp] at hcell
          obtain ⟨hlen, hcases⟩ := hfits o.toList hcell
          have hr := o.repr_toList
          have hreach := length_le_reach hr
          have hdlen := hr.len
          rw [Cell.ask_some hcell]
          simp only [hp, ListObject.length_eq]
          have hnb := normIndex_of_int hlen hb
          have hne := normIndex_of_int hlen he
          generalize normIndex b o.toList.length = b' at hcases hnb
          generalize normIndex e o.toList.length = e' at hcases hne
          have hslice := (range_slice_iff hr hlen (b := b') (e := e')
            (by split at hnb <;> omega) (by split at hne <;> omega)).mpr (by
              unfold RangeFits
              rcases hcases with hnil | ⟨h0, hcase⟩ | ⟨h0, hcase⟩
              · exact Or.inl (by rw [hdlen, hnil, List.length_nil])
              · refine Or.inr (Or.inl ⟨h0, ?_⟩)
                omega
              · exact Or.inr (Or.inr ⟨h0, Or.inl hcase⟩))
          split
          · rename_i hsign
            rw [if_pos hsign] at hslice
            have hmap := Except.ok.inj hslice
            rw [← hmap, packArrayMsg_nil]
            rfl
          · rename_i hsign
            rw [if_neg hsign] at hslice
            rw [hslice]
            simp only [if_true, Except.map, hpack]

/-- `hget` of one field. -/
theorem hashGetValue_reply (h : KVContainer) (now : Nat) (key : Key) (field : Bytes) :
    (let r := h.hashGetValue now key field
     if r.2.2 = .ok then packStringValueReply r.2.1.toStdString
     else if r.2.2 = .keyNotFound then kNilMsg
     else if r.2.2 = .wrongType then kWrongTypeMsg
     else kArrayEmptyMsg)
      = Cell.ask Value.asHash kNilMsg kWrongTypeMsg
          (fun m => ((m field).map packStringValueReply).getD kNilMsg) (h.view key) := by
  unfold hashGetValue onType
  cases hf : h.find key with
  | none => rw [view_of_find_none hf]; rfl
  | some obj =>
      have hcell := compatible_hash obj.payload
      rw [view_of_find hf, Cell.ask, hcell]
      cases hp : obj.payload.asHash with
      | none => simp only [hp]; rfl
      | some o =>
          have hat : (o.at_ field).2 = o.lookup field := (HashDict.at_spec o.ok field).2.2
          simp only [hp, hat, Option.map_some]
          cases o.lookup field <;> rfl

/-- `smismember` of an absent key finds no member. -/
theorem setMIsMember_reply (h : KVContainer) (now : Nat) (key : Key) (members : List Bytes) :
    (let r := h.setMIsMember now key members
     if r.2.2 = .wrongType then kWrongTypeMsg else packIntArrayMsg r.2.1)
      = Cell.ask Value.asSet (packIntArrayMsg (members.map fun _ => false)) kWrongTypeMsg
          (fun p => packIntArrayMsg (members.map p)) (h.view key) := by
  unfold setMIsMember onType
  cases hf : h.find key with
  | none => rw [view_of_find_none hf]; rfl
  | some obj =>
      have hcell := compatible_set obj.payload
      rw [view_of_find hf, Cell.ask, hcell]
      cases hp : obj.payload.asSet with
      | none => simp only [hp]; rfl
      | some o =>
          have hmember : o.set.checkExists = o.contains := funext fun m => o.isMap.checkExists m
          simp only [hp, hmember, Option.map_some]
          rfl

/-- The overload of `SetRemoveMembers` that `srem` calls, as an operation on a
set. -/
theorem setRemoveMembersByName_eq (h : KVContainer) (now : Nat) (key : Key)
    (members : List Bytes) :
    h.setRemoveMembersByName now key members
      = h.onType Payload.asSet now key false fun o =>
          (.set (eraseMembers o members).1, (eraseMembers o members).2 != 0) := by
  unfold setRemoveMembersByName setRemoveMembers onType
  cases h.find key with
  | none => rfl
  | some obj =>
      dsimp only
      cases obj.payload.asSet <;> rfl

/-- What `lsetindex` replies to a code. -/
theorem listSetItemAtIndex_reply {h : KVContainer} (hok : h.Ok) (now : Nat) (key : Key)
    {index : Int} (hi : index < 2 ^ 31) (val : Bytes) :
    (let code := (h.listSetItemAtIndex now key index val).2.2
     if code = .ok then kOkMsg
     else if code = .wrongType then kWrongTypeMsg
     else if code = .outOfRange then kOutOfRangeMsg
     else if code = .keyNotFound then kNoSuchKeyMsg
     else kNotOkMsg) = Cell.setIndexReply index val (h.view key) := by
  rw [(listSetItemAtIndex_acts hok now key hi val).2]
  unfold Cell.setIndexReply
  generalize (Cell.setIndex index val (h.view key)).2 = code
  cases code <;> rfl

end KVContainer

/-! ## What the collections list -/

theorem DictObject.enumerates (o : DictObject) : Enumerates o.allEntries o.lookup := by
  refine ⟨?_, fun f v => o.isMap.mem_entries f v⟩
  have hkeys : keys o.allEntries = o.dict.allKeys := o.isMap.keys_aligned
  rw [hkeys]
  exact o.isMap.nodup

theorem SetObject.lists (o : SetObject) : Lists o.allKeys o.contains :=
  ⟨o.isMap.nodup, fun m => o.isMap.mem_keys m⟩

theorem DictObject.allFields_eq (o : DictObject) :
    o.dict.allKeys.map some = o.allEntries.map fun e => some e.1 := by
  have hkeys : o.allEntries.map Prod.fst = o.dict.allKeys := o.isMap.keys_aligned
  rw [← hkeys, List.map_map]
  rfl

theorem DictObject.allValues_eq (o : DictObject) :
    o.dict.allValues.map some = o.allEntries.map fun e => some e.2 := by
  have hvals : o.allEntries.map Prod.snd = o.dict.allValues := o.isMap.values_aligned
  rw [← hvals, List.map_map]
  rfl

/-- Reading several fields gives what each of them maps to. -/
theorem KVContainer.atAll_values (fields : List Bytes) (o : DictObject) :
    (atAll o fields).2 = fields.map o.lookup := by
  induction fields generalizing o with
  | nil => rfl
  | cons f fields ih =>
    have hat : (o.at_ f).2 = o.lookup f := (HashDict.at_spec o.ok f).2.2
    have hrest : (o.at_ f).1.lookup = o.lookup := funext fun k => o.lookup_at f k
    rw [atAll, ih, hrest, hat, List.map_cons]

/-! ## The whole store -/

namespace KVContainer

/-- The objects are those of the store, in the order of the buckets. -/
theorem Ok.holds {h : KVContainer} (hok : h.Ok) : h.view.Holds (h.objects.map Payload.toValue) := by
  refine ⟨keys h.bucket.flatten, hok.placed.nodup_flatten, fun k => ?_, ?_⟩
  · rw [← hok.pool, ← hok.find_isSome, ← keyExists_eq]
    rfl
  · have hview : ∀ e ∈ h.bucket.flatten, h.view e.1 = some e.2.payload.toValue := by
      intro e he
      have hfind := find?_of_mem hok.placed.nodup_flatten he
      exact view_of_find ((hok.find_eq e.1).trans hfind)
    rw [objects, List.map_map, keys, List.filterMap_map, ← List.filterMap_eq_map]
    exact (List.filterMap_congr hview).symm

/-- The lines of `Overview` are those of the values. -/
theorem overview_eq (h : KVContainer) :
    h.overview = overviewOf (h.objects.map Payload.toValue) := by
  have hcount (t : UInt8) (n : Nat)
      (ht : ∀ p : Payload, (p.toValue.typeNumber == n) = (p.objectType == t)) :
      ((h.objects.map Payload.toValue).filter fun v => v.typeNumber == n).length
        = (h.objects.filter fun p => p.objectType == t).length := by
    rw [List.filter_map, List.length_map]
    exact congrArg List.length (List.filter_congr fun p _ => ht p)
  have htotal (n : Nat) (f : Payload → Nat)
      (hf : ∀ p : Payload, (if p.toValue.typeNumber == n then p.toValue.size else 0) = f p) :
      ((h.objects.map Payload.toValue).map fun v => if v.typeNumber == n then v.size else 0).sum
        = (h.objects.map f).sum := by
    rw [List.map_map]
    exact congrArg List.sum (List.map_congr_left fun p _ => hf p)
  unfold overview overviewOf
  dsimp only
  rw [hcount 1 1 (by intro p; cases p <;> rfl), hcount 2 2 (by intro p; cases p <;> rfl),
    hcount 3 3 (by intro p; cases p <;> rfl), hcount 4 4 (by intro p; cases p <;> rfl),
    hcount 5 5 (by intro p; cases p <;> rfl)]
  simp only [List.cons.injEq, true_and, and_true]
  refine ⟨?_, ?_, ?_⟩
  · refine congrArg natToString (htotal 3 _ fun p => ?_).symm
    cases p with
    | list o => exact o.length_eq.symm
    | _ => rfl
  · refine congrArg natToString (htotal 4 _ fun p => ?_).symm
    cases p with
    | hash o => exact o.count_eq_ncard.2.symm
    | _ => rfl
  · refine congrArg natToString (htotal 5 _ fun p => ?_).symm
    cases p with
    | set o => exact o.count_eq_ncard.2.symm
    | _ => rfl

end KVContainer

/-! ## The replies -/

section

variable {ctx : Ctx} {s : Engine} {argv : List Bytes}

/-- A command whose number of words is right replies what its body does. -/
theorem syntax_reply {nKey nOp : Int} {even : Bool} {name : String} {body : Engine × Reply}
    {r : Reply} (h : checkSyntax argv nKey nOp even = true) (hr : body.2 = r) :
    (checkSyntaxHelper argv nKey nOp even name s body).2 = r := by
  rw [syntax_run h, hr]

theorem syntax_asks {nKey nOp : Int} {even : Bool} {name : String} {body : Engine × Reply}
    {P : Bytes → Prop} (h : checkSyntax argv nKey nOp even = true)
    (hr : ∃ bytes, body.2 = .ok bytes ∧ P bytes) :
    ∃ bytes, (checkSyntaxHelper argv nKey nOp even name s body).2 = .ok bytes ∧ P bytes := by
  rwa [syntax_run h]

/-- A reading command answers a question about its key. -/
theorem readKey_ask {α α' β : Type} {proj : Payload → Option α} {proj' : Value → Option α'}
    {abs : α → α'} (hc : KVContainer.Compatible proj proj' abs) {missing : β} {f : α → Payload × β}
    {op : KVContainer → Key → KVContainer × β × ErrCode} {reply : β → ErrCode → Bytes}
    {m w : Bytes} {g : α' → Bytes}
    (hop : op s.holder (keyOf argv) = s.holder.onType proj ctx.now (keyOf argv) missing f)
    (hm : reply missing .keyNotFound = m) (hw : reply missing .wrongType = w)
    (hg : ∀ o, reply (f o).2 .ok = g (abs o)) :
    (readKey s argv op reply).2 = .ok (Cell.ask proj' m w g (s.holder.view (keyOf argv))) := by
  refine congrArg Except.ok (Eq.trans ?_ (KVContainer.onType_ask hc ctx.now hm hw hg))
  rw [← hop]
  rfl

/-- So does one that writes its key. -/
theorem onKey_ask {α α' β : Type} {proj : Payload → Option α} {proj' : Value → Option α'}
    {abs : α → α'} (hc : KVContainer.Compatible proj proj' abs) {missing : β} {f : α → Payload × β}
    {op : KVContainer → Key → KVContainer × β × ErrCode} {logs : β → ErrCode → Bool}
    {reply : β → ErrCode → Bytes} {m w : Bytes} {g : α' → Bytes}
    (hop : op s.holder (keyOf argv) = s.holder.onType proj ctx.now (keyOf argv) missing f)
    (hm : reply missing .keyNotFound = m) (hw : reply missing .wrongType = w)
    (hg : ∀ o, reply (f o).2 .ok = g (abs o)) :
    (onKey ctx s argv op logs reply).2
      = .ok (Cell.ask proj' m w g (s.holder.view (keyOf argv))) := by
  rw [onKey_reply]
  refine congrArg Except.ok (Eq.trans ?_ (KVContainer.onType_ask hc ctx.now hm hw hg))
  rw [← hop]

/-- And one that creates it. -/
theorem onKey_creates {α α' β : Type} {proj : Payload → Option α} {proj' : Value → Option α'}
    {abs : α → α'} (hc : KVContainer.Compatible proj proj' abs) {fresh : α} {missing : β}
    {f : α → Payload × β} {op : KVContainer → Key → KVContainer × β × ErrCode}
    {logs : β → ErrCode → Bool} {reply : β → ErrCode → Bytes} {m w : Bytes} {g : α' → Bytes}
    (hop : op s.holder (keyOf argv)
      = s.holder.createOrOnType proj fresh ctx.now (keyOf argv) missing f)
    (hm : reply (f fresh).2 .ok = m) (hw : reply missing .wrongType = w)
    (hg : ∀ o, reply (f o).2 .ok = g (abs o)) :
    (onKey ctx s argv op logs reply).2
      = .ok (Cell.ask proj' m w g (s.holder.view (keyOf argv))) := by
  rw [onKey_reply]
  refine congrArg Except.ok (Eq.trans ?_ (KVContainer.createOrOnType_ask hc ctx.now hm hw hg))
  rw [← hop]

theorem readKey_asks {α α' β : Type} {proj : Payload → Option α} {proj' : Value → Option α'}
    {abs : α → α'} (hc : KVContainer.Compatible proj proj' abs) {missing : β} {f : α → Payload × β}
    {op : KVContainer → Key → KVContainer × β × ErrCode} {reply : β → ErrCode → Bytes}
    {m w : Bytes} {G : α' → Bytes → Prop}
    (hop : op s.holder (keyOf argv) = s.holder.onType proj ctx.now (keyOf argv) missing f)
    (hm : reply missing .keyNotFound = m) (hw : reply missing .wrongType = w)
    (hg : ∀ o, G (abs o) (reply (f o).2 .ok)) :
    ∃ bytes, (readKey s argv op reply).2 = .ok bytes ∧
      Cell.Asks proj' m w G (s.holder.view (keyOf argv)) bytes := by
  refine ⟨_, congrArg Except.ok ?_, KVContainer.onType_asks hc ctx.now hm hw hg⟩
  rw [← hop]
  rfl

/-- The words of a command on a key, and of one with an operand. -/
theorem words_key (h : checkSyntax argv 1 0 false = true) : ∃ w key, argv = [w, key] :=
  List.length_eq_two.mp ((checkSyntax_operands argv 0).mp h)

theorem words_operand (h : checkSyntax argv 1 1 false = true) : ∃ w key v, argv = [w, key, v] :=
  List.length_eq_three.mp ((checkSyntax_operands argv 1).mp h)

/-- `incrby` and `decrby`. -/
theorem byNumber_reply {operation : KVContainer → Nat → Key → Int64 → KVContainer × Int64 × ErrCode}
    {sign : Int} (h : ∀ n : Int64, 0 ≤ n.toInt →
      incrDecrReply (operation s.holder ctx.now (keyOf argv) n).2.1
        (operation s.holder ctx.now (keyOf argv) n).2.2
          = (Cell.plus (sign * n.toInt) (s.holder.view (keyOf argv))).2) :
    (incrDecrCommonHelper2 operation ctx s argv).2
      = .ok (Cell.byNumberReply sign (arg argv 2) (s.holder.view (keyOf argv))) := by
  unfold incrDecrCommonHelper2 Cell.byNumberReply
  cases canConvertToInt64 (arg argv 2) with
  | none => rfl
  | some n =>
      dsimp only
      by_cases hn : n.toInt < 0
      · rw [if_pos hn, if_pos hn]
      · rw [if_neg hn, if_neg hn]
        exact congrArg Except.ok (h n (by omega))

/-- The pops. -/
theorem listPop_reply (left : Bool) :
    (listPopCommandCommon left ctx s argv).2
      = .ok (Cell.popReply left (s.holder.view (keyOf argv))) := by
  refine onKey_ask KVContainer.compatible_list rfl rfl rfl fun o => ?_
  rw [(o.pop_spec left).2]
  rfl

/-- The pushes. -/
theorem listPush_reply (left : Bool) :
    (listPushCommandCommon left ctx s argv).2
      = .ok (Cell.ask Value.asList (packIntReply (argv.drop 2).length) kWrongTypeMsg
          (fun l => packIntReply (l.length + (argv.drop 2).length : Nat))
          (s.holder.view (keyOf argv))) := by
  refine onKey_creates KVContainer.compatible_list rfl ?_ rfl fun o => ?_
  · rw [KVContainer.length_pushAll, ListObject.toList_new, List.length_nil, Nat.zero_add]
    rfl
  · rw [KVContainer.length_pushAll]
    rfl

/-- The listings of a dictionary. -/
theorem hKeysValsEntries_asks
    {operation : KVContainer → Nat → Key → KVContainer × List DynamicString × ErrCode}
    {items : DictObject → List DynamicString}
    (h : operation s.holder ctx.now (keyOf argv)
      = s.holder.onType Payload.asHash ctx.now (keyOf argv) [] fun o => (.hash o, items o))
    {F : List (Bytes × Bytes) → List DynamicString} (hF : ∀ o, items o = F o.allEntries) :
    ∃ bytes, (hKeysValsEntriesCommon operation ctx s argv).2 = .ok bytes ∧
      Cell.Asks Value.asHash kArrayEmptyMsg kWrongTypeMsg (fun m reply =>
        ∃ es, Enumerates es m ∧
          reply = packArrayMsg (F es)) (s.holder.view (keyOf argv)) bytes := by
  refine readKey_asks KVContainer.compatible_hash h rfl rfl fun o => ?_
  refine ⟨o.allEntries, o.enumerates, ?_⟩
  rw [← hF]
  dsimp only
  rw [if_neg (by decide)]
  -- no items are answered with a constant
  cases hi : items o with
  | nil => rw [packArrayMsg_nil]; rfl
  | cons x xs => rfl

/-- The reply of `lrange`. -/
theorem lRangeCommand_answers (h : checkSyntax argv 1 2 false = true) {v' : Store} :
    Opcode.lrange.Answers ctx argv s.holder.view v' (lRangeCommand ctx s argv).2 := by
  unfold Opcode.Answers lRangeCommand
  rw [syntax_run h]
  dsimp only
  cases hb : canConvertToInt32 (arg argv 2) with
  | none => exact rfl
  | some b =>
      cases he : canConvertToInt32 (arg argv 3) with
      | none => exact rfl
      | some e =>
          exact KVContainer.listRange_reply s.holder ctx.now (keyOf argv)
            (canConvertToInt32_eq_some.mp hb).1 (canConvertToInt32_eq_some.mp he).1

/-- A command of the right form. -/
def Opcode.Fits (op : Opcode) (argv : List Bytes) : Prop :=
  ∀ f, op.form = some f → checkSyntax argv f.nKeyRequired f.nOperandsRequired f.even = true

/-- The commands about deadlines. -/
def Opcode.timed : Opcode → Bool
  | .expire | .expireat | .ttl => true
  | _ => false

/-- Every command on one key gives the reply it should. -/
theorem handler_answers (hok : s.holder.Ok) {op : Opcode} (hop : op.single = true)
    (htimed : op.timed = false) (hfits : op.Fits argv) (v' : Store) :
    op.Answers ctx argv s.holder.view v' (op.handler ctx s argv).2 := by
  have hkey := keyOf_clean argv
  cases op with
  | evict => cases hop
  | del => cases hop
  | expire => cases hop
  | expireat => cases hop
  | overview =>
      refine ⟨_, hok.holds, ?_⟩
      rw [← KVContainer.overview_eq]
      exact syntax_reply (hfits _ rfl) rfl
  | total =>
      refine syntax_reply (hfits _ rfl) ?_
      rw [hok.numItems_eq_ncard.2]
      rfl
  | ping => exact syntax_reply (hfits _ rfl) rfl
  | exists_ =>
      refine syntax_reply (hfits _ rfl) ?_
      simp only [KVContainer.countExisting, KVContainer.keyExists_eq]
  | type =>
      refine syntax_reply (hfits _ rfl) ?_
      rw [KVContainer.view, keyOf, KVContainer.queryObjectType]
      cases s.holder.find (.ofStdString (arg argv 1)) with
      | none => rfl
      | some obj =>
          cases hp : obj.payload <;> simp [hp, Payload.objectType, Payload.toValue, Cell.typeName]
  | ttl => cases htimed
  | set => exact syntax_reply (hfits _ rfl) rfl
  | get =>
      obtain ⟨w, key, rfl⟩ := words_key (hfits _ rfl)
      exact getCommand_reply ctx s key
  | incr =>
      exact syntax_reply (hfits _ rfl) (congrArg Except.ok
        (KVContainer.incrIntBy_plus hok ctx.now hkey (n := 1) (by decide)).2)
  | decr =>
      exact syntax_reply (hfits _ rfl) (congrArg Except.ok
        (KVContainer.decrIntBy_plus hok ctx.now hkey (n := 1) (by decide)).2)
  | incrby =>
      refine syntax_reply (hfits _ rfl) (byNumber_reply fun n hn => ?_)
      rw [Int.one_mul]
      exact (KVContainer.incrIntBy_plus hok ctx.now hkey hn).2
  | decrby =>
      refine syntax_reply (hfits _ rfl) (byNumber_reply fun n hn => ?_)
      rw [Int.neg_one_mul]
      exact (KVContainer.decrIntBy_plus hok ctx.now hkey hn).2
  | strlen =>
      obtain ⟨w, key, rfl⟩ := words_key (hfits _ rfl)
      exact strlenCommand_reply ctx s key
  | append =>
      obtain ⟨w, key, v, rfl⟩ := words_operand (hfits _ rfl)
      exact appendCommand_reply ctx s key v
  | getrange => rfl
  | setrange => rfl
  | llen =>
      refine syntax_reply (hfits _ rfl)
        (readKey_ask KVContainer.compatible_list rfl rfl rfl fun o => ?_)
      rw [ListObject.length_eq]
      rfl
  | lpop => exact syntax_reply (hfits _ rfl) (listPop_reply true)
  | lpush => exact syntax_reply (hfits _ rfl) (listPush_reply true)
  | rpop => exact syntax_reply (hfits _ rfl) (listPop_reply false)
  | rpush => exact syntax_reply (hfits _ rfl) (listPush_reply false)
  | lrange => exact lRangeCommand_answers (hfits _ rfl)
  | linsert => rfl
  | lrem => rfl
  | lsetindex =>
      refine syntax_reply (hfits _ rfl) ?_
      cases hi : canConvertToInt32 (arg argv 2) with
      | none => rfl
      | some idx =>
          have hlt := (canConvertToInt32_eq_some.mp hi).1.2
          exact congrArg Except.ok (KVContainer.listSetItemAtIndex_reply hok ctx.now _ hlt _)
  | lindex =>
      refine syntax_reply (hfits _ rfl) ?_
      cases hi : canConvertToInt32 (arg argv 2) with
      | none => rfl
      | some idx =>
          have hlt := (canConvertToInt32_eq_some.mp hi).1.2
          exact congrArg Except.ok (s.holder.listItemAtIndex_reply ctx.now _ hlt)
  | hset =>
      have hne : (fieldValues (argv.drop 2)).length ≠ 0 := by
        simpa using fieldValues_ne_nil (hfits _ rfl)
      exact syntax_reply (hfits _ rfl) (onKey_creates KVContainer.compatible_hash rfl
        (if_pos ⟨rfl, hne⟩) rfl fun o => if_pos ⟨rfl, hne⟩)
  | hget =>
      have hlen : 3 ≤ argv.length := by
        have := hfits _ rfl
        simpa [checkSyntax] using this
      unfold Opcode.Answers
      dsimp only
      by_cases h3 : argv.length = 3
      · rw [if_pos h3]
        refine syntax_reply (hfits _ rfl) ?_
        rw [if_pos h3]
        exact congrArg Except.ok (s.holder.hashGetValue_reply ctx.now (keyOf argv) (arg argv 2))
      · rw [if_neg h3]
        refine syntax_reply (hfits _ rfl) ?_
        rw [if_neg h3]
        refine readKey_ask KVContainer.compatible_hash rfl rfl rfl fun o => ?_
        have hne : argv.drop 2 ≠ [] := by
          intro h
          have := congrArg List.length h
          rw [List.length_drop, List.length_nil] at this
          omega
        rw [KVContainer.atAll_values, if_neg]
        rwa [List.isEmpty_iff, List.map_eq_nil_iff]
  | hdel =>
      refine syntax_reply (hfits _ rfl)
        (onKey_ask KVContainer.compatible_hash rfl rfl rfl fun o => ?_)
      rw [KVContainer.eraseFields_count]
      rfl
  | hexists =>
      refine syntax_reply (hfits _ rfl)
        (readKey_ask KVContainer.compatible_hash rfl rfl rfl fun o => ?_)
      rw [o.isMap.checkExists]
      rfl
  | hgetall => exact syntax_asks (hfits _ rfl) (hKeysValsEntries_asks rfl fun o => rfl)
  | hkeys => exact syntax_asks (hfits _ rfl) (hKeysValsEntries_asks rfl DictObject.allFields_eq)
  | hvals => exact syntax_asks (hfits _ rfl) (hKeysValsEntries_asks rfl DictObject.allValues_eq)
  | hlen =>
      refine syntax_reply (hfits _ rfl)
        (readKey_ask KVContainer.compatible_hash rfl rfl rfl fun o => ?_)
      rw [o.count_eq_ncard.2]
      rfl
  | sadd =>
      refine syntax_reply (hfits _ rfl)
        (onKey_creates KVContainer.compatible_set rfl ?_ rfl fun o => ?_)
      · rw [KVContainer.insertAll_count]
        simp only [SetObject.contains_new, Bool.not_false]
        rfl
      · rw [KVContainer.insertAll_count]
        rfl
  | sismember =>
      refine syntax_reply (hfits _ rfl)
        (readKey_ask KVContainer.compatible_set rfl rfl rfl fun o => ?_)
      rw [o.isMap.checkExists]
      rfl
  | smismember =>
      exact syntax_reply (hfits _ rfl) (congrArg Except.ok
        (s.holder.setMIsMember_reply ctx.now (keyOf argv) (argv.drop 2)))
  | smembers =>
      exact syntax_asks (hfits _ rfl) (readKey_asks KVContainer.compatible_set rfl packArrayMsg_nil
        rfl fun o => ⟨o.allKeys, o.lists, rfl⟩)
  | srem =>
      refine syntax_reply (hfits _ rfl) (onKey_ask KVContainer.compatible_set
        (KVContainer.setRemoveMembersByName_eq _ _ _ _) rfl rfl fun o => ?_)
      rw [KVContainer.eraseMembers_count]
      show _ = packIntReply (if distinct (argv.drop 2) o.contains = 0 then 0 else 1)
      generalize distinct (argv.drop 2) o.contains = n
      cases n <;> rfl
  | scard =>
      refine syntax_reply (hfits _ rfl)
        (readKey_ask KVContainer.compatible_set rfl rfl rfl fun o => ?_)
      rw [o.count_eq_ncard.2]
      rfl
  | spop => rfl
  | publish => rfl
  | subscribe => rfl
  | unsubscribe => rfl
  | bgsave => rfl

/-! ## The two commands that are not on one key -/

/-- `del`. -/
theorem delCommand_serves (hok : s.holder.Ok) (h : checkSyntax argv (-1) 0 false = true) :
    (delCommand ctx s argv).1.holder.Ok ∧
      Opcode.del.Answers ctx argv s.holder.view (delCommand ctx s argv).1.holder.view
        (delCommand ctx s argv).2 ∧
      Opcode.del.Leaves argv s.holder.view (delCommand ctx s argv).1.holder.view := by
  obtain ⟨hok', hview⟩ := KVContainer.deleteAll_spec hok (argv.drop 1)
  have hholder : (delCommand ctx s argv).1.holder = (s.holder.deleteAll (argv.drop 1)).1 := by
    unfold delCommand Engine.addIntoAppendable
    rw [syntax_run h]
    dsimp only
    split <;> rfl
  rw [hholder]
  refine ⟨hok', ?_, hview⟩
  unfold delCommand Opcode.Answers
  rw [syntax_run h]
  dsimp only
  rw [KVContainer.deleteAll_count _ hok]

/-- A store without some of its keys. -/
theorem KVContainer.Removes.loses {h h' : KVContainer} {ks : List Key} (hr : Removes h ks h')
    (hok : h.Ok) : h.view.Loses h'.view ∧ h.view.lost h'.view = ks.length := by
  have hview := hr.view
  constructor
  · intro k
    rw [hview]
    by_cases hk : k ∈ ks
    · exact Or.inr (if_pos hk)
    · exact Or.inl (if_neg hk)
  · have hset : {k | (h.view k).isSome = true ∧ h'.view k = none} = ↑ks.toFinset := by
      ext k
      rw [Set.mem_ofPred_eq, hview, List.coe_toFinset, Set.mem_ofPred_eq]
      dsimp only
      constructor
      · rintro ⟨hsome, hnone⟩
        by_contra hk
        rw [if_neg hk] at hnone
        rw [hnone] at hsome
        cases hsome
      · intro hk
        refine ⟨?_, if_pos hk⟩
        rw [← keyExists_eq]
        exact (hok.find_isSome k).mpr (hr.present k hk)
    rw [Store.lost, hset, Set.ncard_coe_finset, List.toFinset_card_of_nodup hr.nodup]

/-- `evict`. -/
theorem evictCommand_serves (hok : s.holder.Ok) (h : checkSyntax argv 1 0 false = true) :
    (evictCommand ctx s argv).1.holder.Ok ∧
      Opcode.evict.Answers ctx argv s.holder.view (evictCommand ctx s argv).1.holder.view
        (evictCommand ctx s argv).2 ∧
      Opcode.evict.Leaves argv s.holder.view (evictCommand ctx s argv).1.holder.view := by
  unfold evictCommand Opcode.Answers Opcode.Leaves
  rw [syntax_run h]
  dsimp only
  cases canConvertToUInt64 (arg argv 1) with
  | none => exact ⟨hok, rfl, fun k => Or.inl rfl⟩
  | some n =>
      obtain ⟨ks, hr, hnames⟩ := KVContainer.keyEviction_removes hok ctx.policy n ctx.evict
      obtain ⟨hloses, hlost⟩ := hr.loses hok
      dsimp only
      have hholder (t : Engine) (ans : List Bytes) :
          (t.addIntoAppendable ctx ans).holder = t.holder := by
        unfold Engine.addIntoAppendable
        split <;> rfl
      rw [hholder]
      refine ⟨hr.ok, ?_, hloses⟩
      rw [hlost, ← hnames]
      cases ctx.sync <;> rfl

/-! ## One command -/

theorem Opcode.serves_of_fits {op : Opcode} {v v' : Store} {reply : Reply} (hfits : op.Fits argv)
    (h : op.Answers ctx argv v v' reply ∧ op.Leaves argv v v') :
    op.Serves ctx argv v reply v' := by
  unfold Opcode.Serves
  cases hf : op.form with
  | none => exact h
  | some f =>
      dsimp only
      rwa [if_pos (hfits f hf)]

/-- A command with the wrong number of words changes nothing. -/
theorem handler_refused {op : Opcode} {f : Form} (hf : op.form = some f)
    (h : ¬ checkSyntax argv f.nKeyRequired f.nOperandsRequired f.even = true) :
    op.handler ctx s argv = (s, .ok (syntaxErrMsg f.name)) := by
  cases op <;> cases hf <;> exact if_neg h

theorem Opcode.leaves_single {op : Opcode} (hop : op.single = true) (v v' : Store) :
    op.Leaves argv v v'
      ↔ v' = Function.update v (keyOf argv) (op.effect argv (v (keyOf argv))).1 := by
  cases op <;> first | exact Iff.rfl | cases hop

/-- Every handler that is not about deadlines does what the values do. -/
theorem handler_serves (hok : s.holder.Ok) {op : Opcode} (htimed : op.timed = false) :
    (op.handler ctx s argv).1.holder.Ok ∧
      op.Serves ctx argv s.holder.view (op.handler ctx s argv).2
        (op.handler ctx s argv).1.holder.view := by
  by_cases hfits : op.Fits argv
  · cases hop : op.single with
    | true =>
        have haff : Affects ctx s argv _ _ := handler_affects hok op hop
        refine ⟨haff.acts.1,
          Opcode.serves_of_fits hfits ⟨handler_answers hok hop htimed hfits _, ?_⟩⟩
        exact (Opcode.leaves_single hop _ _).mpr haff.acts.2
    | false =>
        cases op with
        | del =>
            exact And.imp_right (Opcode.serves_of_fits hfits) (delCommand_serves hok (hfits _ rfl))
        | evict =>
            exact And.imp_right (Opcode.serves_of_fits hfits)
              (evictCommand_serves hok (hfits _ rfl))
        | expire | expireat => cases htimed
        | _ => cases hop
  · obtain ⟨f, hf, hsyn⟩ : ∃ f, op.form = some f ∧
        ¬ checkSyntax argv f.nKeyRequired f.nOperandsRequired f.even = true := by
      simpa only [Opcode.Fits, not_forall, exists_prop] using hfits
    rw [handler_refused hf hsyn]
    refine ⟨hok, ?_⟩
    unfold Opcode.Serves
    rw [hf]
    dsimp only
    rw [if_neg hsyn]
    exact ⟨rfl, rfl⟩

/-- The eviction in front of a command. -/
theorem lazyEviction_loses (hok : s.holder.Ok) (ctx : Ctx) :
    (s.lazyEviction ctx).holder.Ok ∧ s.holder.view.Loses (s.lazyEviction ctx).holder.view ∧
      (ctx.pressure = none → (s.lazyEviction ctx).holder.view = s.holder.view) := by
  unfold Engine.lazyEviction
  cases ctx.pressure with
  | none => exact ⟨hok, fun k => Or.inl rfl, fun _ => rfl⟩
  | some env =>
      obtain ⟨ks, hr, -⟩ := KVContainer.keyEviction_removes hok ctx.policy 16 env
      exact ⟨hr.ok, (hr.loses hok).1, fun h => absurd h (Option.some_ne_none env)⟩

end

/-! ## Deadlines -/

namespace Engine

/-- The values and the deadlines of a process. -/
def timed (s : Engine) : TimedStore := ⟨s.holder.view, s.deadline⟩

section

variable {s s' : Engine} {ctx : Ctx} {argv : List Bytes}

/-- A word without an entry in the map has no deadline, and no other. -/
theorem Paired.deadline_eq_none (hs : s.Paired) (w : Bytes) :
    s.deadline w = none ↔ AssocList.find? w s.expires = none := by
  constructor
  · intro h
    cases hf : AssocList.find? w s.expires with
    | none => rfl
    | some id =>
        obtain ⟨ev, hev⟩ := Option.isSome_iff_exists.mp (hs.ok.2.deref hf)
        rw [deadline, hf, Option.bind_some, hev] at h
        cases h
  · intro hf
    rw [deadline, hf]
    rfl

/-- What an expiration does to the values. -/
theorem setExpiration_view (hs : s.Paired) {key : Bytes} {interval : Int64}
    (h : s.setExpiration ctx key interval = some s') : s'.holder.view
      = if interval.toInt = 0 ∧ s.deadline key = none then
          Function.update s.holder.view (.ofStdString key) none
        else s.holder.view := by
  have hnone := hs.deadline_eq_none key
  simp only [hnone]
  cases setsExpiration h with
  | create hf hpos => rw [if_neg (by omega)]
  | delete hf hzero =>
      rw [if_pos ⟨hzero, hf⟩]
      exact (KVContainer.delete_acts hs.ok.1 _).2
  | nothing hf hneg => rw [if_neg (by omega)]
  | update hf hge ht => rw [if_neg fun h => Option.some_ne_none _ (hf.symm.trans h.2)]
  | remove hf hneg ht => rw [if_neg (by omega)]

/-- An expiration of a key of the store. -/
theorem timed_setExpiration (hs : s.Paired) {key : Bytes} {interval : Int64}
    (h : s.setExpiration ctx key interval = some s') :
    (s'.logExpiration ctx key interval).timed = s.timed.expire ctx.now key interval := by
  obtain ⟨log, hlog⟩ := logExpiration_eq s' ctx key interval
  have hview := setExpiration_view hs h
  have hdeadline : (s'.logExpiration ctx key interval).deadline = Function.update s.deadline key
      (deadlineAfter ctx.now interval (s.deadline key)) := by
    funext w
    rw [deadline_logExpiration, deadline_setExpiration hs h, Function.update_apply]
  rw [timed, hdeadline, hlog]
  exact congrArg (TimedStore.mk · _) hview

theorem timed_expire (hs : s.Paired) (h : checkSyntax argv 1 1 false = true) :
    ((expireCommand ctx s argv).1.timed, (expireCommand ctx s argv).2)
      = s.timed.expireAnswer ctx argv := by
  have hkey :
      s.holder.keyExists (.ofStdString (arg argv 1)) = (s.holder.view (keyOf argv)).isSome :=
    s.holder.keyExists_eq _
  have hvalues : s.timed.values (keyOf argv) = s.holder.view (keyOf argv) := rfl
  unfold expireCommand TimedStore.expireAnswer
  rw [syntax_run h, hvalues]
  dsimp only
  rw [hkey]
  cases s.holder.view (keyOf argv) with
  | none => rfl
  | some v =>
      rw [if_neg (Option.some_ne_none v)]
      cases canConvertToInt64 (arg argv 2) with
      | none => rfl
      | some interval =>
          obtain ⟨s', hset, -⟩ := setExpiration_spec hs.ok ctx (arg argv 1) interval
          dsimp only
          rw [hset, ← timed_setExpiration hs hset]
          rfl

/-- `expireat` is `expire` with the seconds that are left. -/
theorem timed_expireAt (hs : s.Paired) (h : checkSyntax argv 1 1 false = true) :
    ((expireAtCommand ctx s argv).1.timed, (expireAtCommand ctx s argv).2)
      = s.timed.expireAtAnswer ctx argv := by
  unfold expireAtCommand TimedStore.expireAtAnswer
  rw [syntax_run h]
  cases canConvertToInt64 (arg argv 2) with
  | none => rfl
  | some sec =>
      have hself : canConvertToInt64 (intToString (expireInterval ctx sec).toInt)
          = some (expireInterval ctx sec) := canConvertToInt64_eq_some.mpr rfl
      refine (timed_expire hs rfl).trans ?_
      simp only [TimedStore.expireAnswer, keyOf, arg, List.getD_cons_succ, List.getD_cons_zero,
        hself]
      rfl

theorem timed_ttl (hs : s.Paired) (h : checkSyntax argv 1 0 false = true) :
    ((ttlCommand ctx s argv).1.timed, (ttlCommand ctx s argv).2)
      = (s.timed, s.timed.ttlAnswer ctx argv) := by
  have hkey :
      s.holder.keyExists (.ofStdString (arg argv 1)) = (s.holder.view (keyOf argv)).isSome :=
    s.holder.keyExists_eq _
  have hvalues : s.timed.values (keyOf argv) = s.holder.view (keyOf argv) := rfl
  have hdeadlines : s.timed.deadline (arg argv 1) = s.deadline (arg argv 1) := rfl
  unfold ttlCommand TimedStore.ttlAnswer
  rw [syntax_run h, hvalues, hdeadlines]
  dsimp only
  rw [hkey]
  cases s.holder.view (keyOf argv) with
  | none => rfl
  | some v =>
      rw [if_neg (Option.some_ne_none v), if_neg (by simp)]
      cases hf : AssocList.find? (arg argv 1) s.expires with
      | none =>
          rw [(hs.deadline_eq_none _).mpr hf]
      | some id =>
          obtain ⟨ev, hev⟩ := Option.isSome_iff_exists.mp (hs.ok.2.deref hf)
          have hd : s.deadline (arg argv 1) = some ev.when := by
            rw [deadline, hf, Option.bind_some, hev]
            rfl
          rw [hd]
          dsimp only
          rw [hev]
          rfl

/-- A command about deadlines is the store's. -/
theorem timed_answer (hs : s.Paired) (ctx : Ctx) (argv : List Bytes) {op : Opcode}
    (hop : op.timed = true) : s.timed.answer ctx argv op
      = some ((op.handler ctx s argv).1.timed, (op.handler ctx s argv).2) := by
  cases op with
  | expire =>
      by_cases h : checkSyntax argv 1 1 false = true
      · exact (congrArg some (if_pos h)).trans (congrArg some (timed_expire hs h).symm)
      · rw [handler_refused (show Opcode.expire.form = _ from rfl) h]
        exact congrArg some (if_neg h)
  | expireat =>
      by_cases h : checkSyntax argv 1 1 false = true
      · exact (congrArg some (if_pos h)).trans (congrArg some (timed_expireAt hs h).symm)
      · rw [handler_refused (show Opcode.expireat.form = _ from rfl) h]
        exact congrArg some (if_neg h)
  | ttl =>
      by_cases h : checkSyntax argv 1 0 false = true
      · refine Eq.trans ?_ (congrArg some (timed_ttl hs h).symm)
        rw [TimedStore.answer, if_pos h]
      · rw [handler_refused (show Opcode.ttl.form = _ from rfl) h, TimedStore.answer, if_neg h]
  | _ => cases hop

/-- A turn of the timers is the store's. -/
theorem timed_turn (hs : s.Paired) (now : Nat) (stale : Bytes) :
    (s.handleFiredTimeEvent now stale).timed = s.timed.turn now := by
  obtain ⟨-, -, hfind⟩ := handleFired_spec hs now stale
  have hdeadline : (s.handleFiredTimeEvent now stale).deadline
      = fun w => (s.deadline w).filter fun d => now < d := funext (hs.deadline_turn now stale)
  have hview : (s.handleFiredTimeEvent now stale).holder.view = (s.timed.turn now).values := by
    funext k
    have hdue : k ∈ (s.due now).map .ofStdString
        ↔ ∃ w d, s.deadline w = some d ∧ d ≤ now ∧ k = .ofStdString w := by
      rw [List.mem_map]
      constructor
      · rintro ⟨w, hw, rfl⟩
        obtain ⟨d, hd, hle⟩ := (Option.any_eq_true _ _).mp (List.mem_filter.mp hw).2
        exact ⟨w, d, hd, of_decide_eq_true hle, rfl⟩
      · rintro ⟨w, d, hd, hle, rfl⟩
        refine ⟨w, List.mem_filter.mpr ⟨?_, ?_⟩, rfl⟩
        · refine of_not_not fun hnot => ?_
          rw [(hs.deadline_eq_none w).mpr (find?_eq_none.mpr hnot)] at hd
          cases hd
        · rw [hd]
          exact decide_eq_true hle
    rw [KVContainer.view, hfind, TimedStore.turn]
    dsimp only
    by_cases hk : k ∈ (s.due now).map .ofStdString
    · rw [if_pos hk]
      exact (if_pos (hdue.mp hk)).symm
    · rw [if_neg hk]
      exact (if_neg (mt hdue.mpr hk)).symm
  rw [timed, hdeadline, hview]
  rfl

end

/-! ## Runs -/

/-- An event, and what the client reads. -/
def serve (s : Engine) : Event → Engine × Option Reply
  | .command ctx argv => ((s.handleCommand ctx argv).1, some (s.handleCommand ctx argv).2)
  | .timers now stale => (s.handleFiredTimeEvent now stale, none)

end Engine

/-- An event that is not about deadlines. -/
def Event.OnValues : Event → Prop
  | .command _ argv => ∀ op, opcodeOf argv = some op → op.timed = false
  | .timers _ _ => False

namespace Engine

/-- An event that is not about deadlines is a step of the values. -/
theorem serve_values {s : Engine} (hok : s.holder.Ok) {e : Event} (he : e.OnValues) :
    (s.serve e).1.holder.Ok ∧
      Store.Step s.holder.view e (s.serve e).2 (s.serve e).1.holder.view := by
  cases e with
  | timers now stale => exact he.elim
  | command ctx argv =>
      show (s.handleCommand ctx argv).1.holder.Ok ∧
        Store.Step s.holder.view (.command ctx argv) (some (s.handleCommand ctx argv).2)
          (s.handleCommand ctx argv).1.holder.view
      rw [handleCommand_lazy]
      cases hop : opcodeOf argv with
      | none => exact ⟨hok, .unknown hop⟩
      | some op =>
          obtain ⟨hok₁, hloses, hcalm⟩ := lazyEviction_loses hok ctx
          obtain ⟨hok₂, hserves⟩ :
              (op.handler ctx (s.lazyEviction ctx) (lowered argv)).1.holder.Ok ∧ _ :=
            handler_serves hok₁ (he op hop)
          exact ⟨hok₂, .command hop hloses hcalm hserves⟩

/-- It leaves the deadlines alone. -/
theorem serve_deadline {s : Engine} (hok : s.holder.Ok) {e : Event} (he : e.OnValues) :
    (s.serve e).1.deadline = s.deadline := by
  cases e with
  | timers now stale => exact he.elim
  | command ctx argv =>
      show (s.handleCommand ctx argv).1.deadline = s.deadline
      rw [handleCommand_lazy]
      cases hop : opcodeOf argv with
      | none => rfl
      | some op =>
          have hexpires : op.expires = false := by
            have := he op hop
            cases op <;> first | rfl | cases this
          obtain ⟨hexp, htev⟩ :=
            handler_timers (lazyEviction_loses hok ctx).1 ctx hexpires (lowered argv)
          funext w
          rw [← deadline_lazyEviction s ctx w]
          show deadline (op.handler ctx (s.lazyEviction ctx) (lowered argv)).1 w = _
          rw [deadline, hexp, htev, deadline]

/-- An event is a step of the store. -/
theorem serve_refines {s : Engine} (hs : s.Paired) (e : Event) :
    (s.serve e).1.Paired ∧ TimedStore.Step s.timed e (s.serve e).2 (s.serve e).1.timed := by
  have hpaired : (s.serve e).1.Paired := by
    cases e with
    | command ctx argv => exact step_paired hs (.command ctx argv)
    | timers now stale => exact step_paired hs (.timers now stale)
  refine ⟨hpaired, ?_⟩
  by_cases he : e.OnValues
  · have htimed : (s.serve e).1.timed = { s.timed with values := (s.serve e).1.holder.view } := by
      rw [timed, serve_deadline hs.ok.1 he]
      rfl
    rw [htimed]
    exact .values (serve_values hs.ok.1 he).2
  · cases e with
    | timers now stale =>
        show TimedStore.Step s.timed _ none (s.handleFiredTimeEvent now stale).timed
        rw [timed_turn hs]
        exact .timers
    | command ctx argv =>
        obtain ⟨op, hop, htimed⟩ : ∃ op, opcodeOf argv = some op ∧ op.timed = true := by
          simpa only [Event.OnValues, not_forall, Bool.not_eq_false, exists_prop] using he
        obtain ⟨-, hloses, hcalm⟩ := lazyEviction_loses hs.ok.1 ctx
        have hanswer := timed_answer (lazyEviction_spec hs ctx).1 ctx (lowered argv) htimed
        have hstart : (s.lazyEviction ctx).timed
            = { s.timed with values := (s.lazyEviction ctx).holder.view } := by
          rw [timed, funext (deadline_lazyEviction s ctx)]
          rfl
        rw [hstart] at hanswer
        show TimedStore.Step s.timed _ (some (s.handleCommand ctx argv).2)
          (s.handleCommand ctx argv).1.timed
        rw [handleCommand_lazy, hop]
        exact .expiration hop hloses hcalm hanswer

/-- Every run of commands and timers, from a state whose timers are those of its
expirations, is a run of the abstract store, reply by reply. -/
theorem run_refines {s : Engine} (hs : s.Paired) (events : List Event) :
    Run.Runs TimedStore.Step s.timed events (Run.trace serve s events).2
      (Run.trace serve s events).1.timed := by
  have hstep : ∀ (t : Engine) (e : Event), t.Paired →
      (t.serve e).1.Paired ∧ TimedStore.Step t.timed e (t.serve e).2 (t.serve e).1.timed :=
    fun t e hs => serve_refines hs e
  exact Run.runs_of_trace hstep events s hs

end Engine

/-! ## The whole server -/

/-- The replies among the effects; a turn of the timers has none. -/
def Effect.answer : Effect → Option (Option Reply)
  | .command _ _ _ reply => some (some (.ok reply))
  | .timers _ _ => some none
  | _ => none

/-- The replies of a run, in the order of its history. -/
def answersOf (es : List Effect) : List (Option Reply) := es.filterMap Effect.answer

/-- The history of a run, served by the engine, gives the replies of the run. -/
theorem trace_history : ∀ (es : List Effect) {s : Engine},
    Run.Guarded Engine.after (fun s e => e.AnsweredBy s) s es →
      Run.trace Engine.serve s (history es) = (es.foldl Engine.after s, answersOf es)
  | [], _, _ => rfl
  | e :: es, s, h => by
      obtain ⟨ha, hrest⟩ := h
      have ih := trace_history es hrest
      cases e with
      | command p ctx argv reply =>
          have hserve : s.serve (.command ctx argv)
              = (s.after (.command p ctx argv reply), some (.ok reply)) :=
            Prod.ext rfl (congrArg some ha)
          show Run.trace Engine.serve s (.command ctx argv :: history es) = _
          rw [Run.trace_cons, hserve, ih]
          rfl
      | timers now stale =>
          show Run.trace Engine.serve s (.timers now stale :: history es) = _
          have hserve : s.serve (.timers now stale) = (s.after (.timers now stale), none) := rfl
          rw [Run.trace_cons, hserve, ih]
          rfl
      | accepted p => exact ih
      | received p chunk => exact ih
      | malformed p => exact ih
      | relayed p bytes => exact ih
      | sent p bytes => exact ih
      | closed p => exact ih

namespace Process

/-- **The server is one store to all its clients**: whatever they send and
however their turns mix, there is one order of the commands and the timers in
which each reply is what the abstract store answers at that point, and a key
goes unasked only by eviction or when its deadline has come. -/
theorem run_refines_store {s : Engine} (hs : s.Paired) {turns : List Turn} {ps : Process}
    {es : List Effect} (hc : (new s).Conforms turns) (h : (new s).run turns = .ok (ps, es)) :
    Run.Runs TimedStore.Step s.timed (history es) (answersOf es) ps.engine.timed := by
  have hacc := (run_accounts hc h).2
  have htrace := trace_history es hacc.answered
  have hrefines := Engine.run_refines hs (history es)
  rwa [htrace, ← hacc.engine] at hrefines

theorem run_refines_store_ping : ∃ ps es, (new .new).run pingTurns = .ok (ps, es) ∧
    Run.Runs TimedStore.Step Engine.new.timed (history es) (answersOf es) ps.engine.timed := by
  obtain ⟨ps, es, h, -⟩ := pingTurns_ok
  exact ⟨ps, es, h, run_refines_store paired_new pingTurns_conforms h⟩

end Process

/-! ## What the history leaves no trace of -/

/-- The commands whose reply the values determine, and the values behind them: not
those that list or draw in some order, nor those about deadlines. -/
def Opcode.settled : Opcode → Bool
  | .evict | .expire | .expireat | .ttl => false
  | .hgetall | .hkeys | .hvals | .smembers => false
  | _ => true

theorem Opcode.timed_of_settled {op : Opcode} (h : op.settled = true) : op.timed = false := by
  cases op <;> first | rfl | cases h

theorem Store.Holds.perm {v : Store} {vs vs' : List Value} (h : v.Holds vs) (h' : v.Holds vs') :
    vs.Perm vs' := by
  obtain ⟨ks, hn, hmem, rfl⟩ := h
  obtain ⟨ks', hn', hmem', rfl⟩ := h'
  exact ((List.perm_ext_iff_of_nodup hn hn').mpr fun k => (hmem k).trans (hmem' k).symm).filterMap v

/-- The counts do not depend on the order of the values. -/
theorem overviewOf_perm {vs vs' : List Value} (h : vs.Perm vs') :
    overviewOf vs = overviewOf vs' := by
  have hcount (t : Nat) : (vs.filter fun v => v.typeNumber == t).length
      = (vs'.filter fun v => v.typeNumber == t).length := (h.filter _).length_eq
  have htotal (t : Nat) : (vs.map fun v => if v.typeNumber == t then v.size else 0).sum
      = (vs'.map fun v => if v.typeNumber == t then v.size else 0).sum := (h.map _).sum_eq
  simp only [overviewOf, hcount, htotal]

/-- A command the store determines. -/
def Event.Determined (v : Store) : Event → Prop
  | .command ctx argv => ctx.pressure = none ∧ ∀ op, opcodeOf argv = some op →
      op.settled = true ∧ (op = .lrange → ∀ b e, canConvertToInt32 (arg (lowered argv) 2) = some b →
        canConvertToInt32 (arg (lowered argv) 3) = some e →
          Cell.RangeFits b e (v (keyOf (lowered argv))))
  | .timers _ _ => False

theorem Event.Determined.onValues {v : Store} {e : Event} (h : e.Determined v) : e.OnValues := by
  cases e with
  | command ctx argv => exact fun op hop => Opcode.timed_of_settled (h.2 op hop).1
  | timers now stale => exact h.elim

theorem Opcode.serves_functional {op : Opcode} {ctx : Ctx} {argv : List Bytes} {v v₁ v₂ : Store}
    {r₁ r₂ : Reply} (hop : op.settled = true)
    (hrange : op = .lrange → ∀ b e, canConvertToInt32 (arg argv 2) = some b →
      canConvertToInt32 (arg argv 3) = some e → Cell.RangeFits b e (v (keyOf argv)))
    (h₁ : op.Serves ctx argv v r₁ v₁) (h₂ : op.Serves ctx argv v r₂ v₂) : r₁ = r₂ ∧ v₁ = v₂ := by
  have hbody (h₁ : op.Answers ctx argv v v₁ r₁ ∧ op.Leaves argv v v₁)
      (h₂ : op.Answers ctx argv v v₂ r₂ ∧ op.Leaves argv v v₂) : r₁ = r₂ ∧ v₁ = v₂ := by
    obtain ⟨ha₁, hl₁⟩ := h₁
    obtain ⟨ha₂, hl₂⟩ := h₂
    cases op with
    | overview =>
        obtain ⟨vs₁, hvs₁, hr₁⟩ := ha₁
        obtain ⟨vs₂, hvs₂, hr₂⟩ := ha₂
        refine ⟨?_, hl₁.trans hl₂.symm⟩
        rw [hr₁, hr₂, overviewOf_perm (hvs₁.perm hvs₂)]
    | hget =>
        refine ⟨?_, hl₁.trans hl₂.symm⟩
        unfold Opcode.Answers at ha₁ ha₂
        dsimp only at ha₁ ha₂
        split at ha₁
        · rename_i hlen
          rw [if_pos hlen] at ha₂
          exact ha₁.trans ha₂.symm
        · rename_i hlen
          rw [if_neg hlen] at ha₂
          exact ha₁.trans ha₂.symm
    | lrange =>
        refine ⟨?_, hl₁.trans hl₂.symm⟩
        unfold Opcode.Answers at ha₁ ha₂
        dsimp only at ha₁ ha₂
        cases hb : canConvertToInt32 (arg argv 2) with
        | none =>
            rw [hb] at ha₁ ha₂
            exact ha₁.trans ha₂.symm
        | some b =>
            rw [hb] at ha₁ ha₂
            cases he : canConvertToInt32 (arg argv 3) with
            | none =>
                rw [he] at ha₁ ha₂
                exact ha₁.trans ha₂.symm
            | some e =>
                rw [he] at ha₁ ha₂
                have hfits := hrange rfl b e hb he
                exact (ha₁ hfits).trans (ha₂ hfits).symm
    | evict | expire | expireat | ttl | hgetall | hkeys | hvals | smembers => cases hop
    | _ => exact ⟨ha₁.trans ha₂.symm, hl₁.trans hl₂.symm⟩
  unfold Opcode.Serves at h₁ h₂
  cases hf : op.form with
  | none =>
      rw [hf] at h₁ h₂
      exact hbody h₁ h₂
  | some f =>
      rw [hf] at h₁ h₂
      dsimp only at h₁ h₂
      split at h₁
      · rename_i hsyn
        rw [if_pos hsyn] at h₂
        exact hbody h₁ h₂
      · rename_i hsyn
        rw [if_neg hsyn] at h₂
        exact ⟨h₁.1.trans h₂.1.symm, h₁.2.trans h₂.2.symm⟩

theorem Store.Step.functional {v v₁ v₂ : Store} {e : Event} {r₁ r₂ : Option Reply}
    (hdet : e.Determined v) (h₁ : Store.Step v e r₁ v₁) (h₂ : Store.Step v e r₂ v₂) :
    r₁ = r₂ ∧ v₁ = v₂ := by
  cases h₁ with
  | unknown hop =>
      cases h₂ with
      | unknown => exact ⟨rfl, rfl⟩
      | command hop₂ =>
          rw [hop] at hop₂
          cases hop₂
  | command hop hloses hcalm hserves =>
      cases h₂ with
      | unknown hop₂ =>
          rw [hop] at hop₂
          cases hop₂
      | command hop₂ hloses₂ hcalm₂ hserves₂ =>
          rw [hop, Option.some.injEq] at hop₂
          subst hop₂
          obtain ⟨hpressure, hops⟩ := hdet
          obtain ⟨hsettled, hrange⟩ := hops _ hop
          obtain rfl := hcalm hpressure
          obtain rfl := hcalm₂ hpressure
          obtain ⟨hr, hv⟩ := Opcode.serves_functional hsettled hrange hserves hserves₂
          exact ⟨congrArg some hr, hv⟩

namespace Engine

/-- **The history of a store cannot be seen**: two processes that hold the same
values, whatever the order in which these came, how far their tables are
rehashed, where their lists start in a block and when a key was last visited,
give the same replies to the same commands and hold the same values again. -/
theorem run_forgets_history (events : List Event) : ∀ {s t : Engine}, s.holder.Ok → t.holder.Ok →
    s.holder.view = t.holder.view →
    Run.Guarded step (fun s e => e.Determined s.holder.view) s events →
      (Run.trace serve s events).2 = (Run.trace serve t events).2 ∧
        (Run.trace serve s events).1.holder.view = (Run.trace serve t events).1.holder.view := by
  induction events with
  | nil => exact fun _ _ hview _ => ⟨rfl, hview⟩
  | cons e events ih =>
    intro s t hs ht hview hdet
    have hvalues := hdet.1.onValues
    obtain ⟨hs', hstep⟩ := serve_values hs hvalues
    obtain ⟨ht', hstep'⟩ := serve_values ht hvalues
    rw [← hview] at hstep'
    obtain ⟨hreply, hview'⟩ := hstep.functional hdet.1 hstep'
    have hnext : (s.serve e).1 = s.step e := by cases e <;> rfl
    obtain ⟨hreplies, hend⟩ := ih hs' ht' hview' (by rw [hnext]; exact hdet.2)
    rw [Run.trace_cons, Run.trace_cons, hreply, hreplies]
    exact ⟨rfl, hend⟩

/-- A process that holds 7 under `a`, since a time. -/
def holdsSeven (now : Nat) : Engine :=
  { new with holder := KVContainer.new.setInt now (.ofStdString (ascii "a")) 7 }

theorem run_forgets_history_seven :
    let events := [Event.command calm [Opcode.incr.name, ascii "a"],
      .command calm [Opcode.get.name, ascii "a"]]
    (Run.trace serve (holdsSeven 0) events).2 = (Run.trace serve (holdsSeven 9) events).2 := by
  intro events
  have hput (now : Nat) := KVContainer.put_acts KVContainer.ok_new (.ofStdString (ascii "a"))
    (StaticString.ofStdString_clean _) ⟨.int 7, now⟩
  refine (run_forgets_history events (hput 0).1 (hput 9).1 ((hput 0).2.trans (hput 9).2.symm) ?_).1
  have hdet (v : Store) (op : Opcode) (hop : op.settled = true ∧ op ≠ .lrange) :
      (Event.command calm [op.name, ascii "a"]).Determined v := by
    refine ⟨rfl, fun op' h => ?_⟩
    rw [opcodeOf_name, Option.some.injEq] at h
    subst h
    exact ⟨hop.1, fun h => absurd h hop.2⟩
  exact ⟨hdet _ .incr (by decide), hdet _ .get (by decide), trivial⟩

end Engine

end LiteKV
