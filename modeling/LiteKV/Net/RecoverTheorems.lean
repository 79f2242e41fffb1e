/-
LiteKV.Net.RecoverTheorems — the command that gives a value back.

`RecoverCommandFromValue` prints a value as a command of the protocol, and
the protocol has rules of its own: `set` makes an integer of a text that
reads as one, and `rpush`, `hset` and `sadd` want an element. The values that
come back are those that keep to these rules (`Value.Recoverable`), so the
condition is read off `Opcode.effect` on a key that is not there: the number
of words first, then the effect of the body.
-/
import LiteKV.Net.ReplayTheorems
import LiteKV.Net.WrongTypeTheorems

namespace LiteKV

open Lib Lib.AssocList

/-! ## The command of a value -/

/-- The opcode of the recovered command. -/
def Payload.recoverOp : Payload → Opcode
  | .int _ | .string _ => .set
  | .list _ => .rpush
  | .hash _ => .hset
  | .set _ => .sadd

/-- Its operands. -/
def Payload.recoverArgs : Payload → List Bytes
  | .int v => [intToString v.toInt]
  | .string s => [s]
  | .list o => o.toList
  | .hash o => o.allEntries.flatMap fun e => [e.1, e.2]
  | .set o => o.allKeys

theorem KVContainer.recoverCommandFromValue_eq (h : KVContainer) (key : Bytes) :
    h.recoverCommandFromValue key = (h.find (.ofStdString key)).map fun obj =>
      obj.payload.recoverOp.name :: key :: obj.payload.recoverArgs := by
  rw [recoverCommandFromValue]
  congr 1
  funext obj
  cases obj.payload <;> rfl

/-! ## An empty store -/

/-- Nothing is stored. -/
def KVContainer.Empty (h : KVContainer) : Prop := h.Reachable ∧ ∀ key, h.view key = none

theorem KVContainer.empty_new : KVContainer.new.Empty :=
  ⟨⟨[], rfl⟩, fun _ => by rw [KVContainer.view_new]⟩

theorem KVContainer.Empty.keysPool {h : KVContainer} (he : h.Empty) : h.keysPool = [] := by
  rw [List.eq_nil_iff_forall_not_mem]
  intro key hkey
  have hfind := (he.1.ok.find_isSome key).mpr hkey
  have hview := he.2 key
  rw [KVContainer.view, Option.map_eq_none_iff] at hview
  rw [hview] at hfind
  cases hfind

/-- There is nothing to evict. -/
theorem Engine.lazyEviction_empty {t : Engine} (he : t.holder.Empty) (ctx : Ctx) :
    (t.lazyEviction ctx).holder = t.holder := by
  rw [lazyEviction]
  cases ctx.pressure with
  | none => rfl
  | some env => simp [KVContainer.keyEviction, he.keysPool]

section

variable {t : Engine} (he : t.holder.Empty) (ctx : Ctx) (op : Opcode) (key : Bytes)
  (args : List Bytes)

theorem handleCommand_named : t.handleCommand ctx (op.name :: args)
    = op.handler ctx (t.lazyEviction ctx) (op.name :: args) := by
  simp only [Engine.handleCommand, arg, List.getD_cons_zero, op.toLower_name, List.drop_succ_cons,
    List.drop_zero, Opcode.ofBytes_name]

include he

/-- A command on one key of an empty store leaves its effect on nothing. -/
theorem view_empty (hop : op.single = true) :
    (t.handleCommand ctx (op.name :: key :: args)).1.holder.view (.ofStdString key)
      = (op.effect (op.name :: key :: args) none).1 := by
  have hlazy := Engine.lazyEviction_empty he ctx
  have hok : (t.lazyEviction ctx).holder.Ok := hlazy ▸ he.1.ok
  have ha : Affects ctx (t.lazyEviction ctx) (op.name :: key :: args) _ _ :=
    handler_affects hok op hop
  have hnone : (t.lazyEviction ctx).holder.view (.ofStdString key) = none := hlazy ▸ he.2 _
  rw [handleCommand_named, ha.acts.2]
  show Function.update _ (StaticString.ofStdString key) _ (StaticString.ofStdString key) = _
  rw [Function.update_self]
  show (op.effect _ ((t.lazyEviction ctx).holder.view (.ofStdString key))).1 = _
  rw [hnone]

end

/-! ## The value that comes back -/

/-- A value its command gives back: no string that reads as an integer, no
collection that is empty. -/
def Value.Recoverable : Value → Prop
  | .int _ => True
  | .string s => canConvertToInt64 s = none
  | .list l => l ≠ []
  | .hash m => ∃ k, (m k).isSome
  | .set m => ∃ k, m k = true

theorem DictObject.entries_ne_nil_iff (o : DictObject) :
    o.allEntries ≠ [] ↔ ∃ k, (o.lookup k).isSome := by
  obtain ⟨-, -, hfind⟩ := o.entries_spec
  constructor
  · intro hne
    obtain ⟨e, es, hes⟩ := List.exists_cons_of_ne_nil hne
    refine ⟨e.1, ?_⟩
    rw [hfind, find?_isSome, hes]
    exact List.mem_cons_self
  · rintro ⟨k, hk⟩ hnil
    rw [hfind, hnil] at hk
    cases hk

theorem SetObject.keys_ne_nil_iff (o : SetObject) :
    o.allKeys ≠ [] ↔ ∃ k, o.contains k = true := by
  have hmem := o.members_spec.2
  constructor
  · intro hne
    obtain ⟨k, ks, hks⟩ := List.exists_cons_of_ne_nil hne
    refine ⟨k, ?_⟩
    rw [hmem, hks]
    simp
  · rintro ⟨k, hk⟩ hnil
    rw [hmem, hnil] at hk
    cases hk

/-- Pairs of words, an opcode and a key make an even number of words. -/
theorem length_pairs (es : List (Bytes × Bytes)) :
    (es.flatMap fun e => [e.1, e.2]).length = 2 * es.length := by
  induction es with
  | nil => rfl
  | cons e es ih =>
    rw [List.flatMap_cons, List.length_append, ih, List.length_cons]
    simp only [List.length_cons, List.length_nil]
    omega

/-- The recovered command has enough words unless the collection is empty. -/
theorem recovered_checked (p : Payload) (key : Bytes) :
    p.recoverOp.syntaxOk (p.recoverOp.name :: key :: p.recoverArgs) = true ↔
    p.recoverArgs ≠ [] := by
  have hmany : ∀ (w : Bytes) (args : List Bytes),
      checkSyntax (w :: key :: args) 1 (-1) false = true ↔ args ≠ [] := by
    intro w args
    cases args <;> simp [checkSyntax]
  cases p with
  | int v => exact iff_of_true rfl (List.cons_ne_nil _ _)
  | string s => exact iff_of_true rfl (List.cons_ne_nil _ _)
  | list o => exact hmany _ _
  | hash o =>
      have hlen := length_pairs o.allEntries
      have heven : ((o.allEntries.flatMap fun e => [e.1, e.2]).length + 1 + 1) % 2 = 0 := by omega
      have hsame :
          checkSyntax (Opcode.name .hset :: key :: o.allEntries.flatMap fun e => [e.1, e.2])
              1 (-1) true
            = checkSyntax (Opcode.name .hset :: key :: o.allEntries.flatMap fun e => [e.1, e.2])
              1 (-1) false := by
        simp only [checkSyntax, List.length_cons, heven]
        rfl
      rw [← hmany (Opcode.name .hset), Payload.recoverArgs, ← hsame]
      rfl
  | set o => exact hmany _ _

/-- What the recovered command makes of a key that is not there. -/
theorem recovered_body (p : Payload) (key : Bytes) (hargs : p.recoverArgs ≠ []) :
    (p.recoverOp.body (p.recoverOp.name :: key :: p.recoverArgs) none).1 = some p.toValue ↔
      p.toValue.Recoverable := by
  cases p with
  | int v =>
      have htext : canConvertToInt64 (intToString v.toInt) = some v :=
        canConvertToInt64_eq_some.mpr rfl
      show some (Value.ofText (intToString v.toInt)) = _ ↔ _
      rw [Value.ofText, htext]
      exact iff_of_true rfl trivial
  | string s =>
      show some (Value.ofText s) = some (.string s) ↔ canConvertToInt64 s = none
      rw [Value.ofText]
      cases canConvertToInt64 s <;> simp
  | list o =>
      exact iff_of_true rfl hargs
  | hash o =>
      show some (Value.hash (Cell.updated (fieldValues (o.allEntries.flatMap fun e => [e.1, e.2]))
        fun _ => none)) = some (.hash o.lookup) ↔ _
      rw [fieldValues_flatMap, o.updated_entries]
      exact iff_of_true rfl (o.entries_ne_nil_iff.mp fun hnil => hargs (by
        rw [Payload.recoverArgs, hnil]; rfl))
  | set o =>
      have hsame : (fun k => decide (k ∈ o.allKeys) || false) = o.contains := by
        funext k
        rw [Bool.or_false, o.members_spec.2]
      show some (Value.set fun k => decide (k ∈ o.allKeys) || false) = some (.set o.contains) ↔ _
      rw [hsame]
      exact iff_of_true rfl (o.keys_ne_nil_iff.mp hargs)

/-- Without operands there is nothing the command could give back. -/
theorem not_recoverable {p : Payload} (hargs : p.recoverArgs = []) : ¬ p.toValue.Recoverable := by
  cases p with
  | int v => cases hargs
  | string s => cases hargs
  | list o => exact fun h => h hargs
  | hash o =>
      intro h
      refine o.entries_ne_nil_iff.mpr h ?_
      have hlen := length_pairs o.allEntries
      rw [Payload.recoverArgs] at hargs
      rw [hargs, List.length_nil] at hlen
      exact List.eq_nil_of_length_eq_zero (by omega)
  | set o => exact fun h => o.keys_ne_nil_iff.mpr h hargs

theorem recovered_effect (p : Payload) (key : Bytes) :
    (p.recoverOp.effect (p.recoverOp.name :: key :: p.recoverArgs) none).1 = some p.toValue ↔
      p.toValue.Recoverable := by
  rw [Opcode.effect]
  by_cases hargs : p.recoverArgs = []
  · rw [if_neg (mt (recovered_checked p key).mp (not_not_intro hargs))]
    exact iff_of_false (Option.some_ne_none _).symm (not_recoverable hargs)
  · rw [if_pos ((recovered_checked p key).mpr hargs)]
    exact recovered_body p key hargs

/-! ## The reply -/

/-- The reply is no error. -/
def Succeeds (r : Reply) : Prop := ∃ msg : Bytes, r = .ok msg ∧ msg.head? ≠ some 45

theorem succeeds_int (n : Int) : Succeeds (.ok (packIntReply n)) :=
  ⟨_, rfl, by simp [packIntReply, ascii]⟩

theorem KVContainer.createOrOnType_fresh {α β : Type} {proj : Payload → Option α} {fresh : α}
    {h : KVContainer} {now : Nat} {key : Key} {missing : β} {f : α → Payload × β}
    (hf : h.find key = none) :
    (createOrOnType proj fresh h now key missing f).2 = ((f fresh).2, .ok) := by
  rw [createOrOnType, hf]

theorem onKey_fresh {α : Type} {ctx : Ctx} {s : Engine} {argv : List Bytes}
    {op : KVContainer → Key → KVContainer × α × ErrCode} {logs : α → ErrCode → Bool}
    {reply : α → ErrCode → Bytes} {x : α}
    (h : (op s.holder (.ofStdString (arg argv 1))).2 = (x, .ok)) :
    (onKey ctx s argv op logs reply).2 = .ok (reply x .ok) := by
  rw [onKey]
  dsimp only
  rw [h]

section

variable {t : Engine} (he : t.holder.Empty) (ctx : Ctx) (key : Bytes)

include he

theorem recovered_reply {p : Payload} (hargs : p.recoverArgs ≠ []) :
    Succeeds (t.handleCommand ctx (p.recoverOp.name :: key :: p.recoverArgs)).2 := by
  have hlazy := Engine.lazyEviction_empty he ctx
  have hnone : (t.lazyEviction ctx).holder.find (.ofStdString key) = none := by
    have hview := he.2 (.ofStdString key)
    rwa [← hlazy, KVContainer.view, Option.map_eq_none_iff] at hview
  have hsyntax := (recovered_checked p key).mpr hargs
  rw [handleCommand_named]
  cases p with
  | int v => exact ⟨kOkMsg, rfl, by decide⟩
  | string s => exact ⟨kOkMsg, rfl, by decide⟩
  | list o =>
      have hwords : checkSyntax (Opcode.name .rpush :: key :: o.toList) 1 (-1) false = true :=
        hsyntax
      have hreply :
          (rPushCommand ctx (t.lazyEviction ctx) (Opcode.name .rpush :: key :: o.toList)).2
            = .ok (packIntReply (KVContainer.pushAll .new false o.toList).length) :=
        (congrArg Prod.snd (syntax_run hwords)).trans
          (onKey_fresh (KVContainer.createOrOnType_fresh hnone))
      exact hreply ▸ succeeds_int _
  | hash o =>
      have hfields : o.allEntries.length ≠ 0 := by
        intro h0
        refine hargs ?_
        rw [Payload.recoverArgs, List.eq_nil_of_length_eq_zero h0]
        rfl
      have hreply : (hSetCommand ctx (t.lazyEviction ctx)
          (Opcode.name .hset :: key :: o.allEntries.flatMap fun e => [e.1, e.2])).2
            = .ok kOkMsg := by
        refine (congrArg Prod.snd (syntax_run hsyntax)).trans
          ((onKey_fresh (KVContainer.createOrOnType_fresh hnone)).trans ?_)
        rw [if_pos]
        refine ⟨rfl, ?_⟩
        rw [List.drop_succ_cons, List.drop_succ_cons, List.drop_zero, fieldValues_flatMap]
        exact hfields
      exact hreply ▸ ⟨kOkMsg, rfl, by decide⟩
  | set o =>
      have hwords : checkSyntax (Opcode.name .sadd :: key :: o.allKeys) 1 (-1) false = true :=
        hsyntax
      have hreply : (sAddCommand ctx (t.lazyEviction ctx) (Opcode.name .sadd :: key :: o.allKeys)).2
          = .ok (packIntReply (KVContainer.insertAll .new o.allKeys).2) :=
        (congrArg Prod.snd (syntax_run hwords)).trans
          (onKey_fresh (KVContainer.createOrOnType_fresh hnone))
      exact hreply ▸ succeeds_int _

end

/-! ## What is rebuilt -/

/-- The command recovered for the key, run on any empty store, succeeds and gives
the key what it holds. -/
def Rebuilds (h : KVContainer) (key : Bytes) : Prop :=
  ∀ argv, h.recoverCommandFromValue key = some argv → ∀ (ctx : Ctx) (t : Engine), t.holder.Empty →
    Succeeds (t.handleCommand ctx argv).2 ∧
      (t.handleCommand ctx argv).1.holder.view (.ofStdString key) = h.view (.ofStdString key)

theorem recoverOp_single (p : Payload) : p.recoverOp.single = true := by
  cases p <;> rfl

theorem rebuilds_of_recoverable {h : KVContainer} {key : Bytes}
    (hrec : ∀ v, h.view (.ofStdString key) = some v → v.Recoverable) : Rebuilds h key := by
  intro argv hargv ctx t he
  rw [KVContainer.recoverCommandFromValue_eq, Option.map_eq_some_iff] at hargv
  obtain ⟨obj, hobj, rfl⟩ := hargv
  have hview := KVContainer.view_of_find hobj
  have hok := hrec _ hview
  have hargs : obj.payload.recoverArgs ≠ [] := fun hnil => not_recoverable hnil hok
  refine ⟨recovered_reply he ctx key hargs, ?_⟩
  rw [view_empty he ctx _ key _ (recoverOp_single _), hview]
  exact (recovered_effect obj.payload key).mpr hok

theorem recoverable_of_rebuilds {h : KVContainer} {key : Bytes} (hre : Rebuilds h key) {v : Value}
    (hv : h.view (.ofStdString key) = some v) : v.Recoverable := by
  obtain ⟨obj, hobj, rfl⟩ := Option.map_eq_some_iff.mp hv
  have hargv : h.recoverCommandFromValue key
      = some (obj.payload.recoverOp.name :: key :: obj.payload.recoverArgs) := by
    rw [KVContainer.recoverCommandFromValue_eq, hobj]
    rfl
  have hsame := (hre _ hargv calm Engine.new KVContainer.empty_new).2
  rw [view_empty KVContainer.empty_new calm _ key _ (recoverOp_single _), hv] at hsame
  exact (recovered_effect obj.payload key).mp hsame

/-- **A recovered command rebuilds its value exactly when the value keeps to the
rules of the commands**: it is no string that reads as an integer and no empty
collection. -/
theorem rebuilds_iff (h : KVContainer) (key : Bytes) :
    Rebuilds h key ↔ ∀ v, h.view (.ofStdString key) = some v → v.Recoverable :=
  ⟨fun hre _ hv => recoverable_of_rebuilds hre hv, rebuilds_of_recoverable⟩

/-- The string `12`, appended to a key that was not there, and a list whose
element was popped. -/
def digitsAndEmpty : KVContainer :=
  [(KVContainer.Op.append (ascii "s") (ascii "12"), 0),
    (.listPush (ascii "l") false [ascii "x"], 0),
    (.listPop (ascii "l") true, 0)].foldl KVContainer.apply .new

theorem digitsAndEmpty_view :
    digitsAndEmpty.view (.ofStdString (ascii "s")) = some (.string (ascii "12")) ∧
      digitsAndEmpty.view (.ofStdString (ascii "l")) = some (.list []) := by
  constructor <;> rfl

/-- The string becomes an integer, and the list is refused. -/
theorem recovered_command_loses : digitsAndEmpty.Reachable ∧
    digitsAndEmpty.recoverCommandFromValue (ascii "s") = some [ascii "set", ascii "s", ascii "12"] ∧
    (Engine.new.handleCommand calm [ascii "set", ascii "s", ascii "12"]).1.holder.view
      (.ofStdString (ascii "s")) = some (.int 12) ∧
    ¬ Rebuilds digitsAndEmpty (ascii "s") ∧
    digitsAndEmpty.recoverCommandFromValue (ascii "l") = some [ascii "rpush", ascii "l"] ∧
    (Engine.new.handleCommand calm [ascii "rpush", ascii "l"]).2 = .ok (syntaxErrMsg "rpush") ∧
    ¬ Rebuilds digitsAndEmpty (ascii "l") := by
  obtain ⟨hs, hl⟩ := digitsAndEmpty_view
  refine ⟨⟨_, rfl⟩, rfl, rfl, fun hre => ?_, rfl, rfl, fun hre => ?_⟩
  · have hnone : canConvertToInt64 (ascii "12") = none := recoverable_of_rebuilds hre hs
    exact absurd hnone (by decide)
  · exact recoverable_of_rebuilds hre hl rfl

end LiteKV
