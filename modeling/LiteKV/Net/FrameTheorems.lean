/-
LiteKV.Net.FrameTheorems — a command on one key and all the other keys.

Every operation of the container leaves it alone, changes the object of its
key, or inserts its key: `OneStep` says so once for each operation, and
`handler_stepsTo` for each handler. What another key holds, down to the
object itself, is then the same before and after, and so is every reply
that reads it.

Which keys are OTHER keys is decided by `StaticString`: it is built through
`c_str()`, so two byte strings that agree up to their first NUL byte are one
key.
-/
import LiteKV.CoreTheorems
import LiteKV.Net.CommandsTheorems

namespace LiteKV

open Lib Lib.AssocList

namespace KVContainer

/-! ## What an operation can do to the buckets -/

/-- Nothing, or one write under the key. -/
inductive OneStep (h : KVContainer) (key : Key) : KVContainer → Prop where
  | same : OneStep h key h
  | modify (obj : ValueObject) : OneStep h key (h.modify key obj)
  | insertNew (obj : ValueObject) (hf : h.find key = none) : OneStep h key (h.insertNew key obj)

section

variable {h h' : KVContainer} {key : Key}

/-- Other keys keep their objects, and no key disappears. -/
theorem OneStep.frame (hok : h.Ok) (hkey : key.Clean) (hs : OneStep h key h') :
    h'.Ok ∧ (∀ k, k ≠ key → h'.find k = h.find k) ∧
      ∀ k, (h.find k).isSome = true → (h'.find k).isSome = true := by
  cases hs with
  | same => exact ⟨hok, fun _ _ => rfl, fun _ hk => hk⟩
  | modify obj =>
      obtain ⟨hr, hfind⟩ := modify_spec hok key obj
      refine ⟨hr, fun k hk => by rw [hfind, if_neg hk], fun k hk => ?_⟩
      rw [hfind]
      split
      · rename_i heq
        rw [← heq, Option.isSome_map]
        exact hk
      · exact hk
  | insertNew obj hf =>
      obtain ⟨hr, hfind⟩ := insertNew_spec hok key hkey hf obj
      refine ⟨hr, fun k hk => by rw [hfind, if_neg hk], fun k hk => ?_⟩
      rw [hfind]
      split
      · rfl
      · exact hk

variable (h key) (now : Nat)

theorem put_oneStep (obj : ValueObject) : OneStep h key (h.put key obj) := by
  unfold put
  split
  · exact .insertNew _ ‹_›
  · exact .modify _

theorem onType_oneStep {α β : Type} (proj : Payload → Option α) (missing : β)
    (f : α → Payload × β) : OneStep h key (h.onType proj now key missing f).1 := by
  unfold onType
  split
  · exact .same
  · split
    · exact .same
    · exact .modify _

theorem createOrOnType_oneStep {α β : Type} (proj : Payload → Option α) (fresh : α) (missing : β)
    (f : α → Payload × β) : OneStep h key (h.createOrOnType proj fresh now key missing f).1 := by
  unfold createOrOnType
  split
  · exact .insertNew _ ‹_›
  · split
    · exact .same
    · exact .modify _

theorem addInt_oneStep (change : Int64) (bad : Int64 → Bool) :
    OneStep h key (h.addInt now key change bad).1 := by
  unfold addInt
  split
  · exact .insertNew _ ‹_›
  · split
    · exact .same
    · split
      · exact .modify _
      · exact .modify _

theorem strLen_oneStep : OneStep h key (h.strLen now key).1 := by
  unfold strLen
  split
  · exact .same
  · split
    · exact .modify _
    · exact .modify _
    · exact .same

theorem get_oneStep : OneStep h key (h.get now key).1 := by
  unfold get
  split
  · exact .same
  · split
    · exact .modify _
    · exact .modify _
    · exact .same

theorem append_oneStep (val : Bytes) : OneStep h key (h.append now key val).1 := by
  unfold append
  split
  · exact .insertNew _ ‹_›
  · split
    · exact .modify _
    · exact .modify _
    · exact .same

theorem listItemAtIndex_oneStep (index : Int) :
    OneStep h key (h.listItemAtIndex now key index).1 := by
  unfold listItemAtIndex
  split
  · exact .same
  · split
    · exact .same
    · dsimp only
      split
      · exact .same
      · split
        · exact .modify _
        · exact .modify _

theorem listSetItemAtIndex_oneStep (index : Int) (val : Bytes) :
    OneStep h key (h.listSetItemAtIndex now key index val).1 := by
  unfold listSetItemAtIndex
  split
  · exact .same
  · split
    · exact .same
    · dsimp only
      split
      · exact .same
      · split
        · exact .modify _
        · exact .same

theorem listRange_oneStep (begin_ end_ : Int) :
    OneStep h key (h.listRange now key begin_ end_).1 := by
  unfold listRange listRangeCommonOperation
  split
  · exact .same
  · split
    · exact .same
    · dsimp only
      split
      · exact .same
      · exact .modify _

theorem hashGetValue_oneStep (field : Bytes) : OneStep h key (h.hashGetValue now key field).1 := by
  unfold hashGetValue
  dsimp only
  split <;> exact onType_oneStep h key now _ _ _

theorem setMIsMember_oneStep (members : List Bytes) :
    OneStep h key (h.setMIsMember now key members).1 := by
  unfold setMIsMember
  split
  · exact .same
  · exact onType_oneStep h key now _ _ _

end

end KVContainer

/-! ## The handlers -/

section

variable {ctx : Ctx} {s : Engine} {argv : List Bytes}

/-- What a handler on one key does to the container. -/
def Engine.StepsTo (s : Engine) (argv : List Bytes) (s' : Engine) : Prop :=
  s.holder.OneStep (keyOf argv) s'.holder

theorem syntax_stepsTo {nKey nOp : Int} {even : Bool} {name : String} {body : Engine × Reply}
    (h : s.StepsTo argv body.1) :
    s.StepsTo argv (checkSyntaxHelper argv nKey nOp even name s body).1 := by
  unfold checkSyntaxHelper
  split
  · exact h
  · exact .same

theorem onKey_stepsTo {α : Type} {op : KVContainer → Key → KVContainer × α × ErrCode}
    {logs : α → ErrCode → Bool} {reply : α → ErrCode → Bytes}
    (h : s.holder.OneStep (keyOf argv) (op s.holder (keyOf argv)).1) :
    s.StepsTo argv (onKey ctx s argv op logs reply).1 := by
  unfold onKey Engine.addIntoAppendable
  dsimp only
  split
  · split <;> exact h
  · exact h

theorem byNumber_stepsTo {op : KVContainer → Nat → Key → Int64 → KVContainer × Int64 × ErrCode}
    (h : ∀ n, s.holder.OneStep (keyOf argv) (op s.holder ctx.now (keyOf argv) n).1) :
    s.StepsTo argv (incrDecrCommonHelper2 op ctx s argv).1 := by
  unfold incrDecrCommonHelper2
  split
  · exact .same
  · split
    · exact .same
    · exact onKey_stepsTo (h _)

/-- Every handler on one key takes at most one step on it. -/
theorem handler_stepsTo (op : Opcode) (hop : op.single = true) :
    s.StepsTo argv (op.handler ctx s argv).1 := by
  have onType {α β : Type} (proj : Payload → Option α) (missing : β) (f : α → Payload × β) :=
    KVContainer.onType_oneStep s.holder (keyOf argv) ctx.now proj missing f
  have create {α β : Type} (proj : Payload → Option α) (fresh : α) (missing : β)
      (f : α → Payload × β) :=
    KVContainer.createOrOnType_oneStep s.holder (keyOf argv) ctx.now proj fresh missing f
  cases op with
  | evict => cases hop
  | del => cases hop
  | expire => cases hop
  | expireat => cases hop
  | overview => exact syntax_stepsTo .same
  | total => exact syntax_stepsTo .same
  | ping => exact syntax_stepsTo .same
  | exists_ => exact syntax_stepsTo .same
  | type => exact syntax_stepsTo .same
  | ttl =>
      refine syntax_stepsTo ?_
      dsimp only
      split
      · exact .same
      · split <;> exact .same
  | set =>
      refine syntax_stepsTo (onKey_stepsTo ?_)
      dsimp only
      split <;> exact KVContainer.put_oneStep _ _ _
  | get => exact syntax_stepsTo (KVContainer.get_oneStep _ _ _)
  | incr => exact syntax_stepsTo (onKey_stepsTo (KVContainer.addInt_oneStep _ _ _ _ _))
  | decr => exact syntax_stepsTo (onKey_stepsTo (KVContainer.addInt_oneStep _ _ _ _ _))
  | incrby =>
      exact syntax_stepsTo (byNumber_stepsTo fun _ => KVContainer.addInt_oneStep _ _ _ _ _)
  | decrby =>
      exact syntax_stepsTo (byNumber_stepsTo fun _ => KVContainer.addInt_oneStep _ _ _ _ _)
  | strlen => exact syntax_stepsTo (KVContainer.strLen_oneStep _ _ _)
  | append => exact syntax_stepsTo (onKey_stepsTo (KVContainer.append_oneStep _ _ _ _))
  | llen => exact syntax_stepsTo (onType _ _ _)
  | lpop => exact syntax_stepsTo (onKey_stepsTo (onType _ _ _))
  | rpop => exact syntax_stepsTo (onKey_stepsTo (onType _ _ _))
  | lpush => exact syntax_stepsTo (onKey_stepsTo (create _ _ _ _))
  | rpush => exact syntax_stepsTo (onKey_stepsTo (create _ _ _ _))
  | lrange =>
      refine syntax_stepsTo ?_
      split
      · exact KVContainer.listRange_oneStep _ _ _ _ _
      · exact .same
  | lsetindex =>
      refine syntax_stepsTo ?_
      split
      · exact .same
      · exact onKey_stepsTo (KVContainer.listSetItemAtIndex_oneStep _ _ _ _ _)
  | lindex =>
      refine syntax_stepsTo ?_
      split
      · exact .same
      · exact KVContainer.listItemAtIndex_oneStep _ _ _ _
  | hset => exact syntax_stepsTo (onKey_stepsTo (create _ _ _ _))
  | hget =>
      refine syntax_stepsTo ?_
      split
      · exact KVContainer.hashGetValue_oneStep _ _ _ _
      · exact onType _ _ _
  | hdel => exact syntax_stepsTo (onKey_stepsTo (onType _ _ _))
  | hexists => exact syntax_stepsTo (onType _ _ _)
  | hgetall => exact syntax_stepsTo (onType _ _ _)
  | hkeys => exact syntax_stepsTo (onType _ _ _)
  | hvals => exact syntax_stepsTo (onType _ _ _)
  | hlen => exact syntax_stepsTo (onType _ _ _)
  | sadd => exact syntax_stepsTo (onKey_stepsTo (create _ _ _ _))
  | sismember => exact syntax_stepsTo (onType _ _ _)
  | smismember => exact syntax_stepsTo (KVContainer.setMIsMember_oneStep _ _ _ _)
  | smembers => exact syntax_stepsTo (onType _ _ _)
  | srem =>
      have hstep : s.holder.OneStep (keyOf argv)
          (s.holder.setRemoveMembers ctx.now (keyOf argv) (argv.drop 2)).1 := onType _ _ _
      exact syntax_stepsTo (onKey_stepsTo hstep)
  | scard => exact syntax_stepsTo (onType _ _ _)
  | getrange | setrange | linsert | lrem | spop | publish | subscribe | unsubscribe | bgsave =>
      exact .same

end

/-! ## What is seen of a key -/

/-- The commands that show whether a key is there, its type and its value. -/
inductive Observation (k : Bytes) : List Bytes → Prop where
  | exists_ : Observation k [ascii "exists", k]
  | type : Observation k [ascii "type", k]
  | get : Observation k [ascii "get", k]
  | lrange (begin_ end_ : Bytes) : Observation k [ascii "lrange", k, begin_, end_]
  | hgetall : Observation k [ascii "hgetall", k]
  | smembers : Observation k [ascii "smembers", k]

/-- Two states in which every observation of a key gives the same reply. -/
def SameSeen (s s' : Engine) (k : Bytes) : Prop :=
  ∀ (ctx : Ctx) (argv : List Bytes), ctx.pressure = none → Observation k argv →
    (s.handleCommand ctx argv).2 = (s'.handleCommand ctx argv).2

theorem KVContainer.onType_reads {α β : Type} (proj : Payload → Option α) {h h' : KVContainer}
    (now : Nat) {key : Key} (missing : β) (f : α → Payload × β) (hf : h'.find key = h.find key) :
    (h.onType proj now key missing f).2 = (h'.onType proj now key missing f).2 := by
  unfold onType
  rw [hf]
  split
  · rfl
  · split <;> rfl

theorem KVContainer.listRange_reads {h h' : KVContainer} (now : Nat) {key : Key} (b e : Int)
    (hf : h'.find key = h.find key) :
    (h.listRange now key b e).2 = (h'.listRange now key b e).2 := by
  unfold listRange listRangeCommonOperation
  rw [hf]
  split
  · rfl
  · split
    · rfl
    · dsimp only
      split <;> rfl

theorem KVContainer.get_reads {h h' : KVContainer} (now : Nat) {key : Key}
    (hf : h'.find key = h.find key) : (h.get now key).2 = (h'.get now key).2 := by
  unfold get
  rw [hf]
  split
  · rfl
  · split <;> rfl

theorem syntax_reads (s s' : Engine) {argv : List Bytes} {nKey nOp : Int} {even : Bool}
    {name : String} {body body' : Engine × Reply} (h : body.2 = body'.2) :
    (checkSyntaxHelper argv nKey nOp even name s body).2
      = (checkSyntaxHelper argv nKey nOp even name s' body').2 := by
  unfold checkSyntaxHelper
  split
  · exact h
  · rfl

theorem readKey_reads {α : Type} {s s' : Engine} {argv : List Bytes}
    {op : KVContainer → Key → KVContainer × α × ErrCode} {reply : α → ErrCode → Bytes}
    (h : (op s.holder (keyOf argv)).2 = (op s'.holder (keyOf argv)).2) :
    (readKey s argv op reply).2 = (readKey s' argv op reply).2 := by
  unfold readKey
  change Except.ok (reply (op s.holder (keyOf argv)).2.1 (op s.holder (keyOf argv)).2.2) = _
  rw [h]
  rfl

theorem exists_reply (s : Engine) {ctx : Ctx} (hp : ctx.pressure = none) (k : Bytes) :
    (s.handleCommand ctx [ascii "exists", k]).2
      = .ok (packIntReply (if s.holder.keyExists (.ofStdString k) then 1 else 0)) := by
  have hrun := handleCommand_logged s hp .exists_ [k]
  have hsyn : checkSyntax [Opcode.name .exists_, k] (-1) 0 false = true := by simp [checkSyntax]
  rw [show ascii "exists" = Opcode.name .exists_ from rfl, hrun, Opcode.handler, existsCommand,
    checkSyntaxHelper, if_pos hsyn]
  simp only [KVContainer.countExisting, List.drop_succ_cons, List.drop_zero, List.filter_cons,
    List.filter_nil]
  split <;> rfl

/-- What is seen of a key depends on its object alone. -/
theorem sameSeen_of_find {s s' : Engine} {k : Bytes}
    (hf : s'.holder.find (.ofStdString k) = s.holder.find (.ofStdString k)) : SameSeen s s' k := by
  intro ctx argv hp hobs
  have run (op : Opcode) (args : List Bytes)
      (h : (op.handler ctx s (op.name :: args)).2 = (op.handler ctx s' (op.name :: args)).2) :
      (s.handleCommand ctx (op.name :: args)).2 = (s'.handleCommand ctx (op.name :: args)).2 := by
    rw [handleCommand_logged s hp, handleCommand_logged s' hp, h]
  cases hobs with
  | exists_ =>
      have hex : s.holder.keyExists (.ofStdString k) = s'.holder.keyExists (.ofStdString k) := by
        rw [KVContainer.keyExists, KVContainer.keyExists, hf]
      rw [exists_reply s hp, exists_reply s' hp, hex]
  | type =>
      refine run .type [k] ?_
      simp only [Opcode.handler, typeCommand]
      apply syntax_reads
      have htype : s.holder.queryObjectType (.ofStdString k)
          = s'.holder.queryObjectType (.ofStdString k) := by
        rw [KVContainer.queryObjectType, KVContainer.queryObjectType, hf]
      simp only [arg, List.getD_cons_succ, List.getD_cons_zero, htype]
  | get => exact run .get [k] (syntax_reads s s' (readKey_reads (KVContainer.get_reads _ hf)))
  | lrange b e =>
      refine run .lrange [k, b, e] ?_
      simp only [Opcode.handler, lRangeCommand]
      apply syntax_reads
      split
      · have hrange := fun b e => KVContainer.listRange_reads ctx.now b e hf
        simp only [arg, List.getD_cons_succ, List.getD_cons_zero, hrange]
      · rfl
  | hgetall =>
      exact run .hgetall [k]
        (syntax_reads s s' (readKey_reads (KVContainer.onType_reads _ _ _ _ hf)))
  | smembers =>
      exact run .smembers [k]
        (syntax_reads s s' (readKey_reads (KVContainer.onType_reads _ _ _ _ hf)))

/-! ## Commands on one key -/

/-- The data commands: on strings and integers, lists, hashes and sets. -/
def Opcode.data : Opcode → Bool
  | .set | .get | .strlen | .append | .incr | .decr | .incrby | .decrby
  | .llen | .lpop | .rpop | .lpush | .rpush | .lrange | .lindex | .lsetindex
  | .hset | .hget | .hdel | .hexists | .hgetall | .hkeys | .hvals | .hlen
  | .sadd | .sismember | .smismember | .smembers | .srem | .scard => true
  | _ => false

theorem Opcode.single_of_data {op : Opcode} (h : op.data = true) : op.single = true := by
  cases op <;> first | rfl | cases h

/-- A command that names the key `k` and no other: a data command on it, or
`del` of it alone. -/
def NamesOnly (k : Bytes) (argv : List Bytes) : Prop :=
  arg argv 1 = k ∧ ∃ op, opcodeOf argv = some op ∧ (op.data = true ∨ op = .del ∧ argv.length = 2)

/-- Such a command leaves the objects of all other keys alone. -/
theorem namesOnly_frame {s : Engine} (hok : s.holder.Ok) {ctx : Ctx} (hp : ctx.pressure = none)
    {k : Bytes} {argv : List Bytes} (hn : NamesOnly k argv) {key : Key}
    (hne : key ≠ .ofStdString k) :
    (s.handleCommand ctx argv).1.holder.find key = s.holder.find key := by
  obtain ⟨rfl, op, hop, hdata | ⟨rfl, hlen⟩⟩ := hn
  · rw [handleCommand_eq s hp, hop]
    have hkey : keyOf (lowered argv) = .ofStdString (arg argv 1) := by rw [keyOf, arg_lowered]
    have hstep : s.StepsTo (lowered argv) (op.handler ctx s (lowered argv)).1 :=
      handler_stepsTo op (Opcode.single_of_data hdata)
    exact (hstep.frame hok (keyOf_clean _)).2.1 key (by rwa [hkey])
  · obtain ⟨w, k, rfl⟩ := List.length_eq_two.mp hlen
    rw [handleCommand_eq s hp, hop]
    have hdel := (KVContainer.delete_spec hok (.ofStdString k)).2.2 key
    rw [if_neg (show key ≠ .ofStdString k from hne)] at hdel
    have hholder : (delCommand ctx s (lowered [w, k])).1.holder
        = (s.holder.delete (.ofStdString k)).1 := by
      have hsyn : checkSyntax (lowered [w, k]) (-1) 0 false = true := by
        simp [checkSyntax, lowered]
      rw [delCommand, checkSyntaxHelper, if_pos hsyn]
      simp only [Engine.addIntoAppendable]
      split <;> rfl
    rw [← hdel, ← hholder]
    rfl

/-- **A command on one key is invisible to another exactly when the two differ
before their first NUL byte.** -/
theorem frame_iff (k k' : Bytes) :
    (∀ (s : Engine) (ctx : Ctx) (argv : List Bytes), s.holder.Reachable → ctx.pressure = none →
        NamesOnly k argv → SameSeen s (s.handleCommand ctx argv).1 k') ↔ cStr k ≠ cStr k' := by
  constructor
  · intro hall heq
    -- set `k` in an empty store, and ask for `k'`
    have hseen := hall .new calm (Opcode.name .set :: [k, ascii "1"]) ⟨[], rfl⟩ rfl
      ⟨rfl, .set, opcodeOf_name .set _, Or.inl rfl⟩ calm _ rfl .exists_
    have hkey : StaticString.ofStdString k' = keyOf (Opcode.name .set :: [k, ascii "1"]) := by
      simp only [keyOf, StaticString.ofStdString, arg, List.getD_cons_succ, List.getD_cons_zero,
        heq]
    have haff : Affects calm .new (Opcode.name .set :: [k, ascii "1"]) _ _ :=
      handler_affects KVContainer.ok_new .set rfl
    have hafter :
        (Engine.new.handleCommand calm (Opcode.name .set :: [k, ascii "1"])).1.holder.keyExists
          (.ofStdString k') = true := by
      rw [handleCommand_logged .new rfl, KVContainer.keyExists_eq, haff.acts.2, hkey,
        Function.update_self]
      rfl
    rw [exists_reply _ rfl, exists_reply _ rfl, hafter] at hseen
    have hbefore : Engine.new.holder.keyExists (.ofStdString k') = false := by
      rw [KVContainer.keyExists_eq]
      exact congrArg Option.isSome (congrFun KVContainer.view_new _)
    rw [hbefore] at hseen
    revert hseen
    decide
  · intro hne s ctx argv hr hp hn
    refine sameSeen_of_find (namesOnly_frame hr.ok hp hn ?_)
    simp only [StaticString.ofStdString, ne_eq, StaticString.mk.injEq]
    exact Ne.symm hne

/-- Setting `a\0b` in an empty store makes `a` exist. -/
theorem set_shows_in_another_key :
    ([97, 0, 98] : Bytes) ≠ [97] ∧ NamesOnly [97, 0, 98] [ascii "set", [97, 0, 98], ascii "1"] ∧
      Engine.new.holder.Reachable ∧
      ¬ SameSeen .new (Engine.new.handleCommand calm [ascii "set", [97, 0, 98], ascii "1"]).1
        [97] := by
  refine ⟨by decide, ⟨rfl, .set, opcodeOf_name .set _, Or.inl rfl⟩, ⟨[], rfl⟩, fun hseen => ?_⟩
  have hreply := hseen calm _ rfl .exists_
  revert hreply
  decide +kernel

end LiteKV
