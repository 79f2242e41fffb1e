/-
LiteKV.Net.CountTheorems — the integers `del`, `hdel`, `sadd` and `srem`
reply.

Each of the four commands runs over its words and counts the steps that did
something; a step does something at an item the first time it is named, if
it is there (for `sadd`, if it is not). `eraseFields_count` and its siblings
give that count as `distinct`, and `ncard_without`, `ncard_with` as the
change of the size, which the container keeps in `Count()` and
`keys_pool_`.

Three of the commands reply that count. `SRemCommand` passes a
`std::string`, so it calls the overload of `SetRemoveMembers` that returns
`bool`: it replies 1 for any number of members that are gone.
-/
import LiteKV.EvictionTheorems
import LiteKV.RehashTheorems
import LiteKV.Net.WrongTypeTheorems
import LiteKV.Lib.Distinct

namespace LiteKV

open Lib.Distinct

/-! ## The loops -/

theorem DictObject.erase_answer (o : DictObject) (field : Bytes) :
    (o.erase field).2 = (o.lookup field).isSome := (Rehashable.erase_spec .dict o.ok field).2.2

theorem SetObject.erase_answer (o : SetObject) (member : Bytes) :
    (o.erase member).2 = o.contains member := (Rehashable.erase_spec .set o.ok member).2.2

namespace KVContainer

theorem eraseFields_count (fields : List Bytes) (o : DictObject) :
    (eraseFields o fields).2 = distinct fields fun f => (o.lookup f).isSome := by
  induction fields generalizing o with
  | nil => rfl
  | cons f fields ih =>
    have hrest : (fun k => ((o.erase f).1.lookup k).isSome)
        = fun k => decide (k ≠ f) && (o.lookup k).isSome := by
      funext k
      rw [DictObject.lookup_erase]
      by_cases hk : k = f <;> simp [hk]
    rw [eraseFields, distinct_cons, ← hrest, ← ih, DictObject.erase_answer]

theorem eraseMembers_count (members : List Bytes) (o : SetObject) :
    (eraseMembers o members).2 = distinct members o.contains := by
  induction members generalizing o with
  | nil => rfl
  | cons m members ih =>
    have hrest : (o.erase m).1.contains = fun k => decide (k ≠ m) && o.contains k := by
      funext k
      rw [SetObject.contains_erase]
      by_cases hk : k = m <;> simp [hk]
    rw [eraseMembers, distinct_cons, ← hrest, ← ih, SetObject.erase_answer]

theorem insertAll_count (members : List Bytes) (o : SetObject) :
    (insertAll o members).2 = distinct members fun m => !o.contains m := by
  induction members generalizing o with
  | nil => rfl
  | cons m members ih =>
    have hrest : (fun k => !(o.insert m).1.contains k)
        = fun k => decide (k ≠ m) && !o.contains k := by
      funext k
      rw [SetObject.contains_insert]
      by_cases hk : k = m <;> simp [hk]
    rw [insertAll, distinct_cons, ← hrest, ← ih, SetObject.insert_answer]
    cases o.contains m <;> rfl

theorem deleteAll_count (keys : List Bytes) {h : KVContainer} (hok : h.Ok) :
    (h.deleteAll keys).2
      = distinct (keys.map StaticString.ofStdString) fun k => (h.view k).isSome := by
  induction keys generalizing h with
  | nil => rfl
  | cons key keys ih =>
    obtain ⟨hok', hanswer, -⟩ := delete_spec hok (.ofStdString key)
    have hrest : (fun k => ((h.delete (.ofStdString key)).1.view k).isSome)
        = fun k => decide (k ≠ .ofStdString key) && (h.view k).isSome := by
      funext k
      rw [(delete_acts hok (.ofStdString key)).2, Function.update_apply]
      by_cases hk : k = .ofStdString key <;> simp [hk]
    rw [deleteAll, List.map_cons, distinct_cons, ← hrest, ← ih hok', hanswer, ← keyExists_eq]
    rfl

end KVContainer

/-! ## The sizes -/

/-- The fields a key holds. -/
def Cell.fieldsOf : Cell → Bytes → Bool
  | some (.hash m) => fun f => (m f).isSome
  | _ => fun _ => false

/-- The members a key holds. -/
def Cell.membersOf : Cell → Bytes → Bool
  | some (.set m) => m
  | _ => fun _ => false

theorem DictObject.count_eq_ncard (o : DictObject) :
    {f | (o.lookup f).isSome = true}.Finite ∧ o.count = {f | (o.lookup f).isSome = true}.ncard :=
  o.isMap.count_eq_ncard

theorem SetObject.count_eq_ncard (o : SetObject) :
    {m | o.contains m = true}.Finite ∧ o.count = {m | o.contains m = true}.ncard :=
  o.isMap.count_eq_ncard

namespace KVContainer

/-- The number of fields of a key, what `hlen` replies. -/
def fieldCount (h : KVContainer) (key : Key) : Nat :=
  (((h.find key).bind fun obj => obj.payload.asHash).map DictObject.count).getD 0

/-- The number of members of a key, what `scard` replies. -/
def memberCount (h : KVContainer) (key : Key) : Nat :=
  (((h.find key).bind fun obj => obj.payload.asSet).map SetObject.count).getD 0

theorem fieldCount_eq_ncard (h : KVContainer) (key : Key) :
    {f | Cell.fieldsOf (h.view key) f = true}.Finite ∧
      h.fieldCount key = {f | Cell.fieldsOf (h.view key) f = true}.ncard := by
  rw [fieldCount, view]
  cases h.find key with
  | none => simp [Cell.fieldsOf]
  | some obj =>
      cases hp : obj.payload with
      | hash o => simpa [Payload.asHash, Payload.toValue, hp, Cell.fieldsOf] using o.count_eq_ncard
      | _ => simp [Payload.asHash, Payload.toValue, hp, Cell.fieldsOf]

theorem memberCount_eq_ncard (h : KVContainer) (key : Key) :
    {m | Cell.membersOf (h.view key) m = true}.Finite ∧
      h.memberCount key = {m | Cell.membersOf (h.view key) m = true}.ncard := by
  rw [memberCount, view]
  cases h.find key with
  | none => simp [Cell.membersOf]
  | some obj =>
      cases hp : obj.payload with
      | set o => simpa [Payload.asSet, Payload.toValue, hp, Cell.membersOf] using o.count_eq_ncard
      | _ => simp [Payload.asSet, Payload.toValue, hp, Cell.membersOf]

theorem Ok.numItems_eq_ncard {h : KVContainer} (hok : h.Ok) :
    {k | (h.view k).isSome = true}.Finite ∧ h.numItems = {k | (h.view k).isSome = true}.ncard := by
  have hkeys : {k | (h.view k).isSome = true} = ↑h.keysPool.toFinset := by
    ext k
    rw [Set.mem_ofPred_eq, ← keyExists_eq, keyExists, hok.find_isSome]
    simp
  rw [hkeys, Set.ncard_coe_finset, List.toFinset_card_of_nodup hok.poolNodup]
  exact ⟨Finset.finite_toSet _, hok.numItems_eq⟩

end KVContainer

/-! ## What an operation counts -/

/-- What the three cell operations leave. -/
theorem Cell.fieldsOf_deleteFields (fields : List Bytes) (c : Cell) (f : Bytes) :
    Cell.fieldsOf (Cell.deleteFields fields c).1 f = true ↔
      f ∉ fields ∧ Cell.fieldsOf c f = true := by
  cases c with
  | none => simp [Cell.deleteFields, Cell.onCell, Cell.fieldsOf]
  | some v =>
      cases v with
      | hash m =>
          simp only [Cell.deleteFields, Cell.onCell, Value.asHash, Cell.fieldsOf, Cell.without]
          by_cases hf : f ∈ fields <;> simp [hf]
      | _ => simp [Cell.deleteFields, Cell.onCell, Value.asHash, Cell.fieldsOf]

theorem Cell.membersOf_removeMembers (members : List Bytes) (c : Cell) (m : Bytes) :
    Cell.membersOf (Cell.removeMembers members c).1 m = true ↔
      m ∉ members ∧ Cell.membersOf c m = true := by
  cases c with
  | none => simp [Cell.removeMembers, Cell.onCell, Cell.membersOf]
  | some v =>
      cases v <;> simp [Cell.removeMembers, Cell.onCell, Value.asSet, Cell.membersOf]

theorem Cell.membersOf_addMembers (members : List Bytes) {c : Cell}
    (hc : (Cell.addMembers members c).2 = .ok) (m : Bytes) :
    Cell.membersOf (Cell.addMembers members c).1 m = true ↔
      m ∈ members ∨ Cell.membersOf c m = true := by
  cases c with
  | none => simp [Cell.addMembers, Cell.createOnCell, Cell.membersOf]
  | some v =>
      cases v with
      | set held => simp [Cell.addMembers, Cell.createOnCell, Cell.membersOf, Value.asSet]
      | _ => cases hc

theorem Cell.addMembers_code (members : List Bytes) (c : Cell) :
    (Cell.addMembers members c).2 = .ok ∨ (Cell.addMembers members c).2 = .wrongType := by
  cases c with
  | none => exact Or.inl rfl
  | some v =>
      cases v with
      | set held => exact Or.inl rfl
      | _ => exact Or.inr rfl

theorem Cell.without_nil (m : Bytes → Option Bytes) : Cell.without [] m = m := by
  funext f
  simp [Cell.without]

theorem Cell.deleteFields_nil (c : Cell) : (Cell.deleteFields [] c).1 = c := by
  cases c with
  | none => rfl
  | some v => cases v <;> simp [Cell.deleteFields, Cell.onCell, Value.asHash, Cell.without_nil]

theorem Cell.removeMembers_nil (c : Cell) : (Cell.removeMembers [] c).1 = c := by
  cases c with
  | none => rfl
  | some v => cases v <;> simp [Cell.removeMembers, Cell.onCell, Value.asSet]

namespace KVContainer

theorem hashDelField_count (h : KVContainer) (now : Nat) (key : Key) (fields : List Bytes) :
    (h.hashDelField now key fields).2.1 = distinct fields (Cell.fieldsOf (h.view key)) := by
  rw [hashDelField, onType, view]
  cases h.find key with
  | none => exact (distinct_false fields).symm
  | some obj =>
      cases hp : obj.payload with
      | hash o =>
          simpa [Payload.asHash, hp, Payload.toValue, Cell.fieldsOf]
            using eraseFields_count fields o
      | _ => simp [Payload.asHash, hp, Payload.toValue, Cell.fieldsOf, distinct_false]

theorem setRemoveMembers_count (h : KVContainer) (now : Nat) (key : Key) (members : List Bytes) :
    (h.setRemoveMembers now key members).2.1 = distinct members (Cell.membersOf (h.view key)) := by
  rw [setRemoveMembers, onType, view]
  cases h.find key with
  | none => exact (distinct_false members).symm
  | some obj =>
      cases hp : obj.payload with
      | set o =>
          simpa [Payload.asSet, hp, Payload.toValue, Cell.membersOf]
            using eraseMembers_count members o
      | _ => simp [Payload.asSet, hp, Payload.toValue, Cell.membersOf, distinct_false]

theorem setAddItem_count (h : KVContainer) (now : Nat) (key : Key) (members : List Bytes)
    (hc : (h.setAddItem now key members).2.2 = .ok) :
    (h.setAddItem now key members).2.1
      = distinct members fun m => !Cell.membersOf (h.view key) m := by
  rw [setAddItem, createOrOnType, view] at *
  cases hf : h.find key with
  | none => simpa [Cell.membersOf] using insertAll_count members .new
  | some obj =>
      cases hp : obj.payload with
      | set o =>
          simpa [Payload.asSet, hp, Payload.toValue, Cell.membersOf] using insertAll_count members o
      | _ => simp [hf, Payload.asSet, hp] at hc

end KVContainer

/-! ## The commands -/

/-- The commands that reply a number of items. -/
inductive CountingOp where
  | del
  | hdel
  | sadd
  | srem
  deriving DecidableEq

namespace CountingOp

def opcode : CountingOp → Opcode
  | del => .del
  | hdel => .hdel
  | sadd => .sadd
  | srem => .srem

/-- The number of keys, or of fields or members of the addressed key. -/
def size (op : CountingOp) (args : List Bytes) (h : KVContainer) : Nat :=
  match op with
  | del => h.numItems
  | hdel => h.fieldCount (.ofStdString (arg args 0))
  | sadd | srem => h.memberCount (.ofStdString (arg args 0))

/-- By how much the size grew (`sadd`) or shrank. -/
def changed (op : CountingOp) (args : List Bytes) (h h' : KVContainer) : Int :=
  match op with
  | sadd => (op.size args h' : Int) - op.size args h
  | _ => (op.size args h : Int) - op.size args h'

/-- The store in which exactly the named items are gone, or there. A command
without items is refused. -/
def after (op : CountingOp) (args : List Bytes) (v : Store) : Store :=
  let key := StaticString.ofStdString (arg args 0)
  match op with
  | del => fun k => if k ∈ args.map StaticString.ofStdString then none else v k
  | hdel => Function.update v key (Cell.deleteFields (args.drop 1) (v key)).1
  | sadd =>
      if args.drop 1 = [] then v
      else Function.update v key (Cell.addMembers (args.drop 1) (v key)).1
  | srem => Function.update v key (Cell.removeMembers (args.drop 1) (v key)).1

/-- The command names items, and its key does not hold a value of another type. -/
def Applies (op : CountingOp) (args : List Bytes) (v : Store) : Prop :=
  let c := v (.ofStdString (arg args 0))
  match op with
  | del => args ≠ []
  | hdel => args.drop 1 ≠ [] ∧ (Cell.deleteFields (args.drop 1) c).2 ≠ .wrongType
  | sadd => args.drop 1 ≠ [] ∧ (Cell.addMembers (args.drop 1) c).2 ≠ .wrongType
  | srem => args.drop 1 ≠ [] ∧ (Cell.removeMembers (args.drop 1) c).2 ≠ .wrongType

end CountingOp

/-- A counting command replies with an integer when it applies, an integer
reply is the number of items really changed, and nothing but the named items
is changed. -/
structure Counts (ctx : Ctx) (s : Engine) (op : CountingOp) (args : List Bytes) : Prop where
  answers : op.Applies args s.holder.view →
    ∃ n : Int, (op.opcode.handler ctx s (op.opcode.name :: args)).2 = .ok (packIntReply n)
  reply : ∀ n : Int, (op.opcode.handler ctx s (op.opcode.name :: args)).2 = .ok (packIntReply n) →
    n = op.changed args s.holder (op.opcode.handler ctx s (op.opcode.name :: args)).1.holder
  store : (op.opcode.handler ctx s (op.opcode.name :: args)).1.holder.view
    = op.after args s.holder.view

theorem error_ne_packIntReply {msg : Bytes} (h : msg.head? = some 45) (n : Int) :
    msg ≠ packIntReply n := by
  rintro rfl
  have : (packIntReply n).head? = some 58 := rfl
  rw [this] at h
  cases h

section

variable {ctx : Ctx} {s : Engine} {op : CountingOp} {args : List Bytes}

/-- A command that is answered with an error. -/
theorem counts_of_error {msg : Bytes}
    (hreply : (op.opcode.handler ctx s (op.opcode.name :: args)).2 = .ok msg)
    (hmsg : msg.head? = some 45) (hnot : ¬ op.Applies args s.holder.view)
    (hstore : (op.opcode.handler ctx s (op.opcode.name :: args)).1.holder.view
      = op.after args s.holder.view) : Counts ctx s op args where
  answers h := absurd h hnot
  reply n hn := by
    rw [hreply, Except.ok.injEq] at hn
    exact absurd hn (error_ne_packIntReply hmsg n)
  store := hstore

/-- A command that is answered with an integer counts right exactly when the
integer is right. -/
theorem counts_iff_of_reply {n : Nat}
    (hreply : (op.opcode.handler ctx s (op.opcode.name :: args)).2 = .ok (packIntReply n))
    (hstore : (op.opcode.handler ctx s (op.opcode.name :: args)).1.holder.view
      = op.after args s.holder.view) :
    Counts ctx s op args ↔
      (n : Int) = op.changed args s.holder
      (op.opcode.handler ctx s (op.opcode.name :: args)).1.holder :=
  ⟨fun h => h.reply n hreply, fun h =>
    { answers := fun _ => ⟨n, hreply⟩
      reply := fun m hm => by
        rw [hreply, Except.ok.injEq] at hm
        rw [← packIntReply_injective hm, h]
      store := hstore }⟩

/-- The number of words of the three commands on a key. -/
theorem syntax_items (opcode : Bytes) (args : List Bytes) :
    checkSyntax (opcode :: args) 1 (-1) false = true ↔ args.drop 1 ≠ [] := by
  cases args with
  | nil => simp [checkSyntax]
  | cons key items => cases items <;> simp [checkSyntax]

/-- What the three commands on a key leave. -/
theorem store_after (hok : s.holder.Ok) (hop : op ≠ .del) :
    (op.opcode.handler ctx s (op.opcode.name :: args)).1.holder.view
      = op.after args s.holder.view := by
  have hsingle : op.opcode.single = true := by
    cases op with
    | del => exact absurd rfl hop
    | _ => rfl
  have haff :
      Affects ctx s (op.opcode.name :: args) (op.opcode.effect (op.opcode.name :: args)) _ :=
    handler_affects hok op.opcode hsingle
  rw [haff.acts.2, show keyOf (op.opcode.name :: args) = .ofStdString (arg args 0) from rfl]
  generalize s.holder.view = v
  have heffect (c : Cell) : (op.opcode.effect (op.opcode.name :: args) c).1
      = if args.drop 1 = [] then c else (op.opcode.body (op.opcode.name :: args) c).1 := by
    have hsyntax : op.opcode.syntaxOk (op.opcode.name :: args) = !decide (args.drop 1 = []) := by
      have := syntax_items op.opcode.name args
      rw [Bool.eq_iff_iff]
      cases op with
      | del => exact absurd rfl hop
      | _ => simpa [CountingOp.opcode, Opcode.syntaxOk] using this
    rw [Opcode.effect, hsyntax]
    by_cases hitems : args.drop 1 = []
    · rw [if_pos hitems, if_neg (by simp [hitems])]
    · rw [if_neg hitems, if_pos (by rw [decide_eq_false hitems]; rfl)]
  dsimp only
  rw [heffect]
  by_cases hitems : args.drop 1 = []
  · rw [if_pos hitems, Function.update_eq_self]
    cases op with
    | del => exact absurd rfl hop
    | hdel => rw [CountingOp.after, hitems, Cell.deleteFields_nil, Function.update_eq_self]
    | sadd => rw [CountingOp.after, if_pos hitems]
    | srem => rw [CountingOp.after, hitems, Cell.removeMembers_nil, Function.update_eq_self]
  · rw [if_neg hitems]
    cases op with
    | del => exact absurd rfl hop
    | hdel => rfl
    | sadd => rw [CountingOp.after, if_neg hitems]; rfl
    | srem => rfl

/-- Without items the three commands are refused. -/
theorem refused (hop : op ≠ .del) (hitems : args.drop 1 = []) : ∃ msg : Bytes,
    msg.head? = some 45 ∧ (op.opcode.handler ctx s (op.opcode.name :: args)).2 = .ok msg := by
  have hsyntax : checkSyntax (op.opcode.name :: args) 1 (-1) false = false := by
    simpa [hitems] using syntax_items op.opcode.name args
  cases op with
  | del => exact absurd rfl hop
  | hdel =>
      refine ⟨syntaxErrMsg "hdel", rfl, ?_⟩
      simp only [CountingOp.opcode] at hsyntax
      simp only [CountingOp.opcode, Opcode.handler, hDelCommand, checkSyntaxHelper, hsyntax,
        Bool.false_eq_true, if_false]
  | sadd =>
      refine ⟨syntaxErrMsg "sadd", rfl, ?_⟩
      simp only [CountingOp.opcode] at hsyntax
      simp only [CountingOp.opcode, Opcode.handler, sAddCommand, checkSyntaxHelper, hsyntax,
        Bool.false_eq_true, if_false]
  | srem =>
      refine ⟨syntaxErrMsg "srem", rfl, ?_⟩
      simp only [CountingOp.opcode] at hsyntax
      simp only [CountingOp.opcode, Opcode.handler, sRemCommand, checkSyntaxHelper, hsyntax,
        Bool.false_eq_true, if_false]

end

/-! ## How much is changed -/

section

variable {h h' : KVContainer} {args : List Bytes}

theorem del_changed (hok : h.Ok) (hok' : h'.Ok)
    (hview : h'.view = CountingOp.after .del args h.view) :
    CountingOp.changed .del args h h'
      = distinct (args.map StaticString.ofStdString) fun k => (h.view k).isSome := by
  obtain ⟨hfin, hsize⟩ := hok.numItems_eq_ncard
  have hset : {k | (h'.view k).isSome = true}
      = {k | k ∉ args.map StaticString.ofStdString ∧ (h.view k).isSome = true} := by
    ext k
    rw [hview, Set.mem_ofPred_eq, Set.mem_ofPred_eq, CountingOp.after]
    dsimp only
    by_cases hk : k ∈ args.map StaticString.ofStdString
    · rw [if_pos hk]
      exact iff_of_false (by decide) fun h => h.1 hk
    · rw [if_neg hk]
      exact (and_iff_right hk).symm
  have hcard : {k | (h.view k).isSome = true}.ncard
      = distinct (args.map StaticString.ofStdString) (fun k => (h.view k).isSome)
        + {k | k ∉ args.map StaticString.ofStdString ∧ (h.view k).isSome = true}.ncard :=
    ncard_without _ hfin
  have hsize' := hok'.numItems_eq_ncard.2
  rw [hset] at hsize'
  simp only [CountingOp.changed, CountingOp.size]
  omega

theorem hdel_changed (hview : h'.view = CountingOp.after .hdel args h.view) :
    CountingOp.changed .hdel args h h'
      = distinct (args.drop 1) (Cell.fieldsOf (h.view (.ofStdString (arg args 0)))) := by
  obtain ⟨hfin, hsize⟩ := h.fieldCount_eq_ncard (.ofStdString (arg args 0))
  have hcard := ncard_without (args.drop 1) hfin
  have hsize' := (h'.fieldCount_eq_ncard (.ofStdString (arg args 0))).2
  rw [hview, CountingOp.after, Function.update_self] at hsize'
  simp only [Cell.fieldsOf_deleteFields] at hsize'
  simp only [CountingOp.changed, CountingOp.size]
  omega

theorem srem_changed (hview : h'.view = CountingOp.after .srem args h.view) :
    CountingOp.changed .srem args h h'
      = distinct (args.drop 1) (Cell.membersOf (h.view (.ofStdString (arg args 0)))) := by
  obtain ⟨hfin, hsize⟩ := h.memberCount_eq_ncard (.ofStdString (arg args 0))
  have hcard := ncard_without (args.drop 1) hfin
  have hsize' := (h'.memberCount_eq_ncard (.ofStdString (arg args 0))).2
  rw [hview, CountingOp.after, Function.update_self] at hsize'
  simp only [Cell.membersOf_removeMembers] at hsize'
  simp only [CountingOp.changed, CountingOp.size]
  omega

theorem sadd_changed (hview : h'.view = CountingOp.after .sadd args h.view)
    (hitems : args.drop 1 ≠ [])
    (hcode : (Cell.addMembers (args.drop 1) (h.view (.ofStdString (arg args 0)))).2 = .ok) :
    CountingOp.changed .sadd args h h'
      = distinct (args.drop 1) fun m => !Cell.membersOf (h.view (.ofStdString (arg args 0))) m := by
  obtain ⟨hfin, hsize⟩ := h.memberCount_eq_ncard (.ofStdString (arg args 0))
  have hcard := ncard_with (args.drop 1) hfin
  have hsize' := (h'.memberCount_eq_ncard (.ofStdString (arg args 0))).2
  rw [hview, CountingOp.after, if_neg hitems, Function.update_self] at hsize'
  simp only [Cell.membersOf_addMembers _ hcode] at hsize'
  simp only [CountingOp.changed, CountingOp.size]
  omega

end

/-! ## The replies -/

section

variable {ctx : Ctx} {s : Engine} {args : List Bytes}

/-- `del` replies the number of keys that are gone. -/
theorem del_counts (hok : s.holder.Ok) : Counts ctx s .del args := by
  cases args with
  | nil =>
      have herr : (delCommand ctx s [Opcode.del.name]).2 = .ok (syntaxErrMsg "del") := rfl
      refine counts_of_error herr rfl (fun h => h rfl) ?_
      funext k
      simp [CountingOp.after, CountingOp.opcode, Opcode.handler, delCommand, checkSyntaxHelper,
        checkSyntax]
  | cons key keys =>
      obtain ⟨hok', hview⟩ := KVContainer.deleteAll_spec hok (key :: keys)
      have hrun : delCommand ctx s (Opcode.del.name :: key :: keys)
          = (Engine.addIntoAppendable { s with holder := (s.holder.deleteAll (key :: keys)).1 } ctx
              (Opcode.del.name :: key :: keys),
            .ok (packIntReply (s.holder.deleteAll (key :: keys)).2)) := by
        have hsyntax : checkSyntax (Opcode.del.name :: key :: keys) (-1) 0 false = true := by
          simp [checkSyntax]
        rw [delCommand, checkSyntaxHelper, if_pos hsyntax]
        rfl
      have hholder : (delCommand ctx s (Opcode.del.name :: key :: keys)).1.holder
          = (s.holder.deleteAll (key :: keys)).1 := by
        rw [hrun, Engine.addIntoAppendable]
        split <;> rfl
      refine (@counts_iff_of_reply ctx s .del _ _ (congrArg Prod.snd hrun) ?_).mpr ?_
      · exact (congrArg KVContainer.view hholder).trans hview
      · rw [show (CountingOp.opcode .del).handler ctx s _ = delCommand ctx s _ from rfl,
          show (CountingOp.opcode .del).name = Opcode.del.name from rfl, hholder,
          del_changed hok hok' hview, KVContainer.deleteAll_count _ hok]

/-- The three commands on a key, given items: what their operation answers. -/
theorem hdel_reply (hok : s.holder.Ok) (hitems : args.drop 1 ≠ []) :
    (hDelCommand ctx s (Opcode.hdel.name :: args)).2 = .ok
      (if (Cell.deleteFields (args.drop 1) (s.holder.view (.ofStdString (arg args 0)))).2
          = .wrongType
        then kWrongTypeMsg
        else packIntReply (distinct (args.drop 1)
          (Cell.fieldsOf (s.holder.view (.ofStdString (arg args 0)))) : Nat)) := by
  have hsyntax := (syntax_items Opcode.hdel.name args).mpr hitems
  rw [hDelCommand, checkSyntaxHelper, if_pos hsyntax,
    ← (KVContainer.hashDelField_acts hok ctx.now _ (args.drop 1)).2,
    ← KVContainer.hashDelField_count s.holder ctx.now]
  rfl

theorem sadd_reply (hok : s.holder.Ok) (hitems : args.drop 1 ≠ []) :
    (sAddCommand ctx s (Opcode.sadd.name :: args)).2 = .ok
      (if (Cell.addMembers (args.drop 1) (s.holder.view (.ofStdString (arg args 0)))).2 = .wrongType
        then kWrongTypeMsg
        else packIntReply (distinct (args.drop 1)
          (fun m => !Cell.membersOf (s.holder.view (.ofStdString (arg args 0))) m) : Nat)) := by
  have hsyntax := (syntax_items Opcode.sadd.name args).mpr hitems
  obtain ⟨-, hcode⟩ := KVContainer.setAddItem_acts hok ctx.now (.ofStdString (arg args 0))
    (StaticString.ofStdString_clean _) (args.drop 1)
  have hcount :=
    KVContainer.setAddItem_count s.holder ctx.now (.ofStdString (arg args 0)) (args.drop 1)
  have hrun : ∀ r, s.holder.setAddItem ctx.now (.ofStdString (arg args 0)) (args.drop 1) = r →
      (sAddCommand ctx s (Opcode.sadd.name :: args)).2 = .ok
        (if r.2.2 = .wrongType then kWrongTypeMsg else if r.2.2 = .fail then packIntReply 0
          else packIntReply r.2.1) := by
    rintro r rfl
    rw [sAddCommand, checkSyntaxHelper, if_pos hsyntax]
    rfl
  rw [hrun _ rfl, hcode]
  rw [hcode] at hcount
  rcases Cell.addMembers_code (args.drop 1) (s.holder.view (.ofStdString (arg args 0))) with h | h
  · rw [hcount h, h]
    rfl
  · rw [h, if_pos rfl, if_pos rfl]

theorem srem_reply (hok : s.holder.Ok) (hitems : args.drop 1 ≠ []) :
    (sRemCommand ctx s (Opcode.srem.name :: args)).2 = .ok
      (if (Cell.removeMembers (args.drop 1) (s.holder.view (.ofStdString (arg args 0)))).2
          = .wrongType
        then kWrongTypeMsg
        else packIntReply (distinct (args.drop 1)
          (Cell.membersOf (s.holder.view (.ofStdString (arg args 0)))) != 0).toNat) := by
  have hsyntax := (syntax_items Opcode.srem.name args).mpr hitems
  rw [sRemCommand, checkSyntaxHelper, if_pos hsyntax,
    ← (KVContainer.setRemoveMembers_acts hok ctx.now _ (args.drop 1)).2,
    ← KVContainer.setRemoveMembers_count s.holder ctx.now]
  rfl

/-- The three commands on a key count right exactly when they reply the change. -/
theorem counts_iff_of_change {op : CountingOp} (hok : s.holder.Ok) (hop : op ≠ .del)
    {wrong : Prop} [Decidable wrong] {n : Nat} {d : Nat}
    (happlies : op.Applies args s.holder.view ↔ args.drop 1 ≠ [] ∧ ¬ wrong)
    (hreply : args.drop 1 ≠ [] → (op.opcode.handler ctx s (op.opcode.name :: args)).2
      = .ok (if wrong then kWrongTypeMsg else packIntReply n))
    (hchanged : ∀ h' : KVContainer, args.drop 1 ≠ [] → ¬ wrong →
      h'.view = op.after args s.holder.view → op.changed args s.holder h' = d) :
    Counts ctx s op args ↔ (args.drop 1 ≠ [] → ¬ wrong → n = d) := by
  have hstore : (op.opcode.handler ctx s (op.opcode.name :: args)).1.holder.view
      = op.after args s.holder.view := store_after hok hop
  by_cases hitems : args.drop 1 = []
  · obtain ⟨msg, hmsg, herr⟩ := @refused ctx s op args hop hitems
    exact iff_of_true (counts_of_error herr hmsg (fun h => (happlies.mp h).1 hitems) hstore)
      fun h => absurd hitems h
  · by_cases hw : wrong
    · have herr := hreply hitems
      rw [if_pos hw] at herr
      exact iff_of_true (counts_of_error herr rfl (fun h => (happlies.mp h).2 hw) hstore)
        fun _ h => absurd hw h
    · have hint := hreply hitems
      rw [if_neg hw] at hint
      rw [counts_iff_of_reply hint hstore, hchanged _ hitems hw hstore]
      exact ⟨fun h _ _ => by exact_mod_cast h, fun h => by exact_mod_cast h hitems hw⟩

theorem hdel_counts (hok : s.holder.Ok) : Counts ctx s .hdel args :=
  (counts_iff_of_change hok (by decide) Iff.rfl (hdel_reply hok)
    fun _ _ _ hview => hdel_changed hview).mpr fun _ _ => rfl

theorem sadd_counts (hok : s.holder.Ok) : Counts ctx s .sadd args :=
  (counts_iff_of_change hok (by decide) Iff.rfl (sadd_reply hok)
    fun _ hitems hw hview => sadd_changed hview hitems
      ((Cell.addMembers_code _ _).resolve_right hw)).mpr fun _ _ => rfl

theorem removeMembers_wrong {members : List Bytes} {c : Cell}
    (h : (Cell.removeMembers members c).2 = .wrongType) : Cell.membersOf c = fun _ => false := by
  cases c with
  | none => rfl
  | some v =>
      cases v with
      | set held => cases h
      | _ => rfl

/-- `srem` replies whether anything is gone. -/
theorem srem_counts_iff (hok : s.holder.Ok) : Counts ctx s .srem args ↔
    distinct (args.drop 1) (Cell.membersOf (s.holder.view (.ofStdString (arg args 0)))) ≤ 1 := by
  rw [counts_iff_of_change hok (by decide) Iff.rfl (srem_reply hok)
    fun _ _ _ hview => srem_changed hview]
  generalize hd : distinct (args.drop 1)
    (Cell.membersOf (s.holder.view (.ofStdString (arg args 0)))) = d
  have hbool : (d != 0).toNat = d ↔ d ≤ 1 := by
    rcases d with - | - | d
    · decide
    · decide
    · simp
  rw [hbool]
  refine ⟨fun h => ?_, fun h _ _ => h⟩
  by_cases hitems : args.drop 1 = []
  · rw [hitems, distinct_nil] at hd
    omega
  · by_cases hw : (Cell.removeMembers (args.drop 1)
        (s.holder.view (.ofStdString (arg args 0)))).2 = .wrongType
    · rw [removeMembers_wrong hw, distinct_false] at hd
      omega
    · exact h hitems hw

/-- **The integer of `del`, `hdel` and `sadd` is the number of items really
changed; that of `srem` is, when it names at most one member that is there.** -/
theorem counts_iff {s : Engine} (hr : s.holder.Reachable) (ctx : Ctx) (op : CountingOp)
    (args : List Bytes) :
    Counts ctx s op args ↔ (op = .srem →
      distinct (args.drop 1) (Cell.membersOf (s.holder.view (.ofStdString (arg args 0)))) ≤ 1) := by
  cases op with
  | del => exact iff_of_true (del_counts hr.ok) fun h => CountingOp.noConfusion h
  | hdel => exact iff_of_true (hdel_counts hr.ok) fun h => CountingOp.noConfusion h
  | sadd => exact iff_of_true (sadd_counts hr.ok) fun h => CountingOp.noConfusion h
  | srem => exact (srem_counts_iff hr.ok).trans ⟨fun h _ => h, fun h => h rfl⟩

theorem counts_iff_sadd_twice :
    Counts calm .new .sadd [ascii "k", ascii "a", ascii "b", ascii "a"] :=
  (counts_iff ⟨[], rfl⟩ calm .sadd _).mpr fun h => CountingOp.noConfusion h

/-- The set `{a, b}` under the key `k`. -/
def twoMembers : Engine :=
  { Engine.new with
    holder := (KVContainer.new.setAddItem 0 (.ofStdString (ascii "k")) [ascii "a", ascii "b"]).1 }

/-- Removing both members replies 1. -/
theorem srem_replies_one : twoMembers.holder.Reachable ∧
    (sRemCommand calm twoMembers [ascii "srem", ascii "k", ascii "a", ascii "b"]).2 = .ok kInt1Msg ∧
    ¬ Counts calm twoMembers .srem [ascii "k", ascii "a", ascii "b"] := by
  have hr : twoMembers.holder.Reachable :=
    ⟨[(.setAddItem (ascii "k") [ascii "a", ascii "b"], 0)], rfl⟩
  have hcell : twoMembers.holder.view (.ofStdString (arg [ascii "k", ascii "a", ascii "b"] 0))
      = (Cell.addMembers [ascii "a", ascii "b"] none).1 := by
    have hview := (KVContainer.setAddItem_acts KVContainer.ok_new 0 (.ofStdString (ascii "k"))
      (StaticString.ofStdString_clean _) [ascii "a", ascii "b"]).1.2
    rw [KVContainer.view_new] at hview
    rw [twoMembers, hview]
    exact Function.update_self _ _ _
  have htwo : distinct [ascii "a", ascii "b"]
      (Cell.membersOf (Cell.addMembers [ascii "a", ascii "b"] none).1) = 2 := by decide
  refine ⟨hr, ?_, fun h => ?_⟩
  · have hreply := @srem_reply calm _ [ascii "k", ascii "a", ascii "b"] hr.ok (by decide)
    rw [hcell] at hreply
    refine hreply.trans ?_
    rw [show [ascii "k", ascii "a", ascii "b"].drop 1 = [ascii "a", ascii "b"] from rfl, htwo]
    decide
  · have hle := (srem_counts_iff hr.ok).mp h
    rw [hcell, show [ascii "k", ascii "a", ascii "b"].drop 1 = [ascii "a", ascii "b"] from rfl,
      htwo] at hle
    omega

end

end LiteKV
