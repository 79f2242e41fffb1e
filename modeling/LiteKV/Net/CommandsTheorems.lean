/-
LiteKV.Net.CommandsTheorems — what a command does to the abstract store, and
what it logs.

Most commands read or write one key, `argv[1]`: `Opcode.effect` gives the new
content of that key's cell and whether the command is logged, as a function
of the old content alone. `handler_affects` says that every such handler
computes its effect and touches nothing else; the handlers that create
nothing have the effect `(c, false)`. What remains are the four commands
that are not of this form: `del`, `evict`, `expire` and `expireat`;
`Engine.SetsExpiration` lists what the last two can do.

`effect_silent` is the fact the log rests on: a command that is not logged
has left its key as it was — unless it popped an empty string.
-/
import LiteKV.Net.Commands
import LiteKV.NumTheorems

namespace LiteKV

open Lib Lib.AssocList

/-! ## Opcodes -/

theorem Opcode.mem_all (op : Opcode) : op ∈ Opcode.all := by
  cases op <;> decide

@[simp] theorem Opcode.ofBytes_name (op : Opcode) : Opcode.ofBytes op.name = some op := by
  have hall : ∀ op ∈ Opcode.all, Opcode.ofBytes op.name = some op := by decide +kernel
  exact hall op op.mem_all

theorem Opcode.name_of_ofBytes {b : Bytes} {op : Opcode} (h : Opcode.ofBytes b = some op) :
    op.name = b := by
  have := List.find?_some h
  simpa using this

/-- The commands on one key. -/
def Opcode.single : Opcode → Bool
  | .evict | .del | .expire | .expireat => false
  | _ => true

/-! ## Running a command -/

/-- The words of a command with its opcode in lower case. -/
def lowered (argv : List Bytes) : List Bytes := (arg argv 0).map toLower :: argv.drop 1

theorem Opcode.toLower_name (op : Opcode) : op.name.map toLower = op.name := by
  have hall : ∀ op ∈ Opcode.all, op.name.map toLower = op.name := by decide +kernel
  exact hall op op.mem_all

/-- A logged command is run by the handler of its opcode. -/
theorem handleCommand_logged (s : Engine) {ctx : Ctx} (hp : ctx.pressure = none) (op : Opcode)
    (args : List Bytes) :
    s.handleCommand ctx (op.name :: args) = op.handler ctx s (op.name :: args) := by
  simp only [Engine.handleCommand, arg, List.getD_cons_zero, op.toLower_name, List.drop_succ_cons,
    List.drop_zero, Opcode.ofBytes_name, Engine.lazyEviction, hp]

theorem arg_lowered (argv : List Bytes) : arg (lowered argv) 1 = arg argv 1 := by
  cases argv <;> rfl

/-- The number of words of a command on one key. -/
theorem checkSyntax_operands (argv : List Bytes) (n : Nat) :
    checkSyntax argv 1 n false = true ↔ argv.length = n + 2 := by
  simp [checkSyntax]
  omega

/-- The opcode of a command, if it has one. -/
def opcodeOf (argv : List Bytes) : Option Opcode := Opcode.ofBytes (arg (lowered argv) 0)

theorem opcodeOf_name (op : Opcode) (args : List Bytes) : opcodeOf (op.name :: args) = some op := by
  simp only [opcodeOf, lowered, arg, List.getD_cons_zero, op.toLower_name, Opcode.ofBytes_name]

theorem lowered_eq {argv : List Bytes} {op : Opcode} (h : opcodeOf argv = some op) :
    lowered argv = op.name :: argv.drop 1 := by
  have := Opcode.name_of_ofBytes h
  rw [lowered, this]
  rfl

/-- `HandleCommand` evicts under memory pressure, then runs the handler. -/
theorem handleCommand_lazy (s : Engine) (ctx : Ctx) (argv : List Bytes) :
    s.handleCommand ctx argv = match opcodeOf argv with
      | none => (s, .ok kInvalidOpCodeMsg)
      | some op => op.handler ctx (s.lazyEviction ctx) (lowered argv) := rfl

theorem handleCommand_eq (s : Engine) {ctx : Ctx} (hp : ctx.pressure = none) (argv : List Bytes) :
    s.handleCommand ctx argv = match opcodeOf argv with
      | none => (s, .ok kInvalidOpCodeMsg)
      | some op => op.handler ctx s (lowered argv) := by
  have hl : s.lazyEviction ctx = s := by rw [Engine.lazyEviction, hp]
  rw [handleCommand_lazy, hl]

/-- No memory pressure, at time 0. -/
def calm : Ctx := ⟨0, false, .random, ⟨fun _ => 0, fun _ => [], fun _ => 0⟩, none, fun _ => []⟩

/-! ## Effects -/

/-- An operation that is logged when it succeeds. -/
def Cell.logged (r : Cell × ErrCode) : Cell × Bool := (r.1, r.2 == .ok)

/-- The overflow tests of `IncrIntBy` and `DecrIntBy`. -/
def Cell.incrBy (n : Int64) : Cell → Cell × ErrCode :=
  Cell.addInt n fun val => val.toInt > 2 ^ 63 - 1 - n.toInt

def Cell.decrBy (n : Int64) : Cell → Cell × ErrCode :=
  Cell.addInt (-n) fun val => val.toInt < -2 ^ 63 + n.toInt

/-- An operation on the integer of the third word, when that is not negative. -/
def Cell.byNumber (op : Int64 → Cell → Cell × ErrCode) (word : Bytes) (c : Cell) : Cell × Bool :=
  match canConvertToInt64 word with
  | none => (c, false)
  | some n => if n.toInt < 0 then (c, false) else Cell.logged (op n c)

/-- The new content of the key and whether the command is logged, once the
number of words is right. -/
def Opcode.body (op : Opcode) (argv : List Bytes) (c : Cell) : Cell × Bool :=
  match op with
  | .set => (some (.ofText (arg argv 2)), true)
  | .incr => Cell.logged (Cell.incrBy 1 c)
  | .decr => Cell.logged (Cell.decrBy 1 c)
  | .incrby => Cell.byNumber Cell.incrBy (arg argv 2) c
  | .decrby => Cell.byNumber Cell.decrBy (arg argv 2) c
  | .append => Cell.logged (Cell.append (arg argv 2) c)
  | .lpush => Cell.logged (Cell.push true (argv.drop 2) c)
  | .rpush => Cell.logged (Cell.push false (argv.drop 2) c)
  | .lpop => ((Cell.pop true c).1, (Cell.pop true c).2 == .ok && !(Cell.popped true c).empty)
  | .rpop => ((Cell.pop false c).1, (Cell.pop false c).2 == .ok && !(Cell.popped false c).empty)
  | .lsetindex =>
      match canConvertToInt32 (arg argv 2) with
      | none => (c, false)
      | some idx => Cell.logged (Cell.setIndex idx (arg argv 3) c)
  | .hset => Cell.logged (Cell.updateFields (fieldValues (argv.drop 2)) c)
  | .hdel =>
      ((Cell.deleteFields (argv.drop 2) c).1, (Cell.deleteFields (argv.drop 2) c).2 != .wrongType)
  | .sadd => Cell.logged (Cell.addMembers (argv.drop 2) c)
  | .srem =>
      ((Cell.removeMembers (argv.drop 2) c).1, (Cell.removeMembers (argv.drop 2) c).2 != .wrongType)
  | _ => (c, false)

/-- The number of words a logged command on one key must have. -/
def Opcode.syntaxOk (op : Opcode) (argv : List Bytes) : Bool :=
  match op with
  | .set | .incrby | .decrby | .append => checkSyntax argv 1 1 false
  | .incr | .decr | .lpop | .rpop => checkSyntax argv 1 0 false
  | .lpush | .rpush | .hdel | .sadd | .srem => checkSyntax argv 1 (-1) false
  | .lsetindex => checkSyntax argv 1 2 false
  | .hset => checkSyntax argv 1 (-1) true
  | _ => true

/-- What a command on one key does to it. -/
def Opcode.effect (op : Opcode) (argv : List Bytes) (c : Cell) : Cell × Bool :=
  if op.syntaxOk argv then op.body argv c else (c, false)

/-- The key of a command. -/
def keyOf (argv : List Bytes) : Key := .ofStdString (arg argv 1)

theorem keyOf_clean (argv : List Bytes) : (keyOf argv).Clean := StaticString.ofStdString_clean _

/-- A state changed by an effect on the command's key, and in nothing else. -/
structure Affects (ctx : Ctx) (s : Engine) (argv : List Bytes) (e : Cell → Cell × Bool)
    (s' : Engine) : Prop where
  acts : s.holder.Acts (keyOf argv) (fun c => (e c).1) s'.holder
  rest : s' = { s with
    holder := s'.holder
    log := s.log ++ if ctx.sync && (e (s.holder.view (keyOf argv))).2 then [argv] else [] }

section

variable {ctx : Ctx} {s : Engine} {argv : List Bytes}

theorem Affects.congr {e e' : Cell → Cell × Bool} {s' : Engine} (h : Affects ctx s argv e s')
    (he : e (s.holder.view (keyOf argv)) = e' (s.holder.view (keyOf argv))) :
    Affects ctx s argv e' s' := by
  refine ⟨h.acts.congr (by rw [he]), ?_⟩
  rw [← he]
  exact h.rest

/-- A state in which only visit times have changed. -/
theorem affects_of_keeps {h' : KVContainer} (hk : s.holder.Keeps h') :
    Affects ctx s argv (fun c => (c, false)) { s with holder := h' } := by
  refine ⟨⟨hk.1, ?_⟩, by simp⟩
  rw [hk.2, Function.update_eq_self]

theorem affects_self (hok : s.holder.Ok) : Affects ctx s argv (fun c => (c, false)) s :=
  affects_of_keeps hok.keeps

/-- A handler that checks its number of words. -/
theorem handler_of_body (hok : s.holder.Ok) (op : Opcode) {nKey nOp : Int} {even : Bool}
    {name : String} {body : Engine × Reply}
    (hs : op.syntaxOk argv = checkSyntax argv nKey nOp even)
    (hh : op.handler ctx s argv = checkSyntaxHelper argv nKey nOp even name s body)
    (hbody : checkSyntax argv nKey nOp even = true → Affects ctx s argv (op.body argv) body.1) :
    Affects ctx s argv (op.effect argv) (op.handler ctx s argv).1 := by
  rw [hh, checkSyntaxHelper]
  by_cases hc : checkSyntax argv nKey nOp even = true
  · rw [if_pos hc]
    exact (hbody hc).congr (by rw [Opcode.effect, hs, if_pos hc])
  · rw [if_neg hc]
    exact (affects_self hok).congr (by rw [Opcode.effect, hs, if_neg hc])

/-- A handler that only reads. -/
theorem handler_of_read (hok : s.holder.Ok) {nKey nOp : Int} {even : Bool} {name : String}
    {body : Engine × Reply} (hbody : Affects ctx s argv (fun c => (c, false)) body.1) :
    Affects ctx s argv (fun c => (c, false))
      (checkSyntaxHelper argv nKey nOp even name s body).1 := by
  unfold checkSyntaxHelper
  split
  · exact hbody
  · exact affects_self hok

/-- The body of a handler that calls one operation and may log. -/
theorem onKey_affects {α : Type} {op : KVContainer → Key → KVContainer × α × ErrCode}
    {logs : α → ErrCode → Bool} {reply : α → ErrCode → Bytes} {e : Cell → Cell × Bool}
    (ha : s.holder.Acts (keyOf argv) (fun c => (e c).1) (op s.holder (keyOf argv)).1)
    (hl : logs (op s.holder (keyOf argv)).2.1 (op s.holder (keyOf argv)).2.2
      = (e (s.holder.view (keyOf argv))).2) :
    Affects ctx s argv e (onKey ctx s argv op logs reply).1 := by
  unfold onKey Engine.addIntoAppendable
  change Affects ctx s argv e
    (if logs (op s.holder (keyOf argv)).2.1 (op s.holder (keyOf argv)).2.2 then _ else _)
  rw [hl]
  cases hlog : (e (s.holder.view (keyOf argv))).2 with
  | false => exact ⟨ha, by simp [hlog]⟩
  | true =>
      cases hs : ctx.sync with
      | false => exact ⟨ha, by simp [hlog, hs]⟩
      | true => exact ⟨ha, by simp [hlog, hs]⟩

/-- The body of a handler that is logged exactly when its operation succeeds. -/
theorem onKey_logged {α : Type} {op : KVContainer → Key → KVContainer × α × ErrCode}
    {reply : α → ErrCode → Bytes} {f : Cell → Cell × ErrCode}
    (h : s.holder.Acts (keyOf argv) (fun c => (f c).1) (op s.holder (keyOf argv)).1 ∧
      (op s.holder (keyOf argv)).2.2 = (f (s.holder.view (keyOf argv))).2) :
    Affects ctx s argv (fun c => Cell.logged (f c))
      (onKey ctx s argv op (fun _ code => code == .ok) reply).1 := by
  refine onKey_affects h.1 ?_
  simp only [Cell.logged, h.2]

/-- `IncrDecrCommonHelper2` applies its operation to the number it reads. -/
theorem byNumber_affects (hok : s.holder.Ok)
    {op : KVContainer → Nat → Key → Int64 → KVContainer × Int64 × ErrCode}
    {f : Int64 → Cell → Cell × ErrCode}
    (h : ∀ n,
      s.holder.Acts (keyOf argv) (fun c => (f n c).1) (op s.holder ctx.now (keyOf argv) n).1 ∧
      (op s.holder ctx.now (keyOf argv) n).2.2 = (f n (s.holder.view (keyOf argv))).2) :
    Affects ctx s argv (Cell.byNumber f (arg argv 2)) (incrDecrCommonHelper2 op ctx s argv).1 := by
  unfold incrDecrCommonHelper2 Cell.byNumber
  cases canConvertToInt64 (arg argv 2) with
  | none => exact affects_self hok
  | some n =>
      dsimp only
      split
      · exact affects_self hok
      · exact onKey_logged (h n)

theorem readKey_affects {α : Type} {op : KVContainer → Key → KVContainer × α × ErrCode}
    {reply : α → ErrCode → Bytes} (hk : s.holder.Keeps (op s.holder (keyOf argv)).1) :
    Affects ctx s argv (fun c => (c, false)) (readKey s argv op reply).1 :=
  affects_of_keeps hk

/-- `hset` with the right number of words has a field. -/
theorem fieldValues_ne_nil {argv : List Bytes} (h : checkSyntax argv 1 (-1) true = true) :
    fieldValues (argv.drop 2) ≠ [] := by
  match argv, h with
  | [], h => simp [checkSyntax] at h
  | [_], h => simp [checkSyntax] at h
  | [_, _], h => simp [checkSyntax] at h
  | [_, _, _], h => simp [checkSyntax] at h
  | _ :: _ :: f :: v :: rest, _ => simp [fieldValues]

/-- `SetAddItem` reports success or a wrong type. -/
theorem addMembers_code (members : List Bytes) (c : Cell) :
    ((Cell.addMembers members c).2 != .wrongType && (Cell.addMembers members c).2 != .fail)
      = (Cell.logged (Cell.addMembers members c)).2 := by
  unfold Cell.addMembers Cell.createOnCell Cell.logged
  split
  · rfl
  · split <;> rfl

/-- Every handler on one key computes its effect. -/
theorem handler_affects (hok : s.holder.Ok) (op : Opcode) (hop : op.single = true) :
    Affects ctx s argv (op.effect argv) (op.handler ctx s argv).1 := by
  have hkey := keyOf_clean argv
  have hread : ∀ {nKey nOp : Int} {even : Bool} {name : String} {body : Engine × Reply},
      Affects ctx s argv (fun c => (c, false)) body.1 →
      Affects ctx s argv (fun c => (c, false))
        (checkSyntaxHelper argv nKey nOp even name s body).1 := handler_of_read hok
  cases op with
  | evict => cases hop
  | del => cases hop
  | expire => cases hop
  | expireat => cases hop
  | overview => exact hread (affects_self hok)
  | total => exact hread (affects_self hok)
  | ping => exact hread (affects_self hok)
  | exists_ => exact hread (affects_self hok)
  | type => exact hread (affects_self hok)
  | ttl =>
      refine hread ?_
      dsimp only
      split
      · exact affects_self hok
      · split <;> exact affects_self hok
  | set =>
      refine handler_of_body hok .set rfl rfl fun _ => onKey_affects ?_ rfl
      have hput := fun obj => KVContainer.put_acts hok (keyOf argv) hkey obj
      unfold Opcode.body Value.ofText
      dsimp only
      cases canConvertToInt64 (arg argv 2) with
      | none => exact hput ⟨.string (arg argv 2), ctx.now⟩
      | some val => exact hput ⟨.int val, ctx.now⟩
  | get => exact hread (readKey_affects (KVContainer.get_keeps hok ctx.now _))
  | incr =>
      exact handler_of_body hok .incr rfl rfl fun _ =>
        onKey_logged (KVContainer.addInt_acts hok ctx.now _ hkey _ _)
  | decr =>
      exact handler_of_body hok .decr rfl rfl fun _ =>
        onKey_logged (KVContainer.addInt_acts hok ctx.now _ hkey _ _)
  | incrby =>
      exact handler_of_body hok .incrby rfl rfl fun _ =>
        byNumber_affects hok fun n => KVContainer.addInt_acts hok ctx.now _ hkey _ _
  | decrby =>
      exact handler_of_body hok .decrby rfl rfl fun _ =>
        byNumber_affects hok fun n => KVContainer.addInt_acts hok ctx.now _ hkey _ _
  | strlen => exact hread (readKey_affects (KVContainer.strLen_keeps hok ctx.now _))
  | append =>
      exact handler_of_body hok .append rfl rfl fun _ =>
        onKey_logged (KVContainer.append_acts hok ctx.now _ hkey _)
  | getrange => exact affects_self hok
  | setrange => exact affects_self hok
  | llen => exact hread (readKey_affects (KVContainer.onList_keeps hok ctx.now _ 0 fun _ => rfl))
  | lpop =>
      refine handler_of_body hok .lpop rfl rfl fun _ =>
        onKey_affects (KVContainer.listPop_acts hok ctx.now _ true).1 ?_
      rw [(KVContainer.listPop_acts hok ctx.now _ true).2, KVContainer.listPop_popped]
      rfl
  | lpush =>
      exact handler_of_body hok .lpush rfl rfl fun _ =>
        onKey_logged (KVContainer.listPush_acts hok ctx.now _ hkey true _)
  | rpop =>
      refine handler_of_body hok .rpop rfl rfl fun _ =>
        onKey_affects (KVContainer.listPop_acts hok ctx.now _ false).1 ?_
      rw [(KVContainer.listPop_acts hok ctx.now _ false).2, KVContainer.listPop_popped]
      rfl
  | rpush =>
      exact handler_of_body hok .rpush rfl rfl fun _ =>
        onKey_logged (KVContainer.listPush_acts hok ctx.now _ hkey false _)
  | lrange =>
      refine hread ?_
      split
      · exact affects_of_keeps (KVContainer.listRange_keeps hok ctx.now _ _ _ _)
      · exact affects_self hok
  | linsert => exact affects_self hok
  | lrem => exact affects_self hok
  | lsetindex =>
      refine handler_of_body hok .lsetindex rfl rfl fun _ => ?_
      unfold Opcode.body
      dsimp only
      cases hi : canConvertToInt32 (arg argv 2) with
      | none => exact affects_self hok
      | some idx =>
          have hlt := (canConvertToInt32_eq_some.mp hi).1.2
          exact onKey_logged (KVContainer.listSetItemAtIndex_acts hok ctx.now _ hlt _)
  | lindex =>
      refine hread ?_
      split
      · exact affects_self hok
      · exact readKey_affects (KVContainer.listItemAtIndex_keeps hok ctx.now _ _)
  | hset =>
      refine handler_of_body hok .hset rfl rfl fun hc => ?_
      obtain ⟨ha, hcode⟩ := KVContainer.hashUpdateKV_acts hok ctx.now (keyOf argv) hkey
        (fieldValues (argv.drop 2))
      refine onKey_affects ha ?_
      have hne := fieldValues_ne_nil hc
      have hcount := KVContainer.hashUpdateKV_count s.holder ctx.now (keyOf argv)
        (fieldValues (argv.drop 2))
      simp only [Opcode.body, Cell.logged, ← hcode]
      by_cases hok' : (s.holder.hashUpdateKV ctx.now (keyOf argv)
          (fieldValues (argv.drop 2))).2.2 = .ok
      · have hpos : (fieldValues (argv.drop 2)).length ≠ 0 := by simpa using hne
        rw [hcount hok', hok']
        simpa using hpos
      · rw [beq_eq_false_iff_ne.mpr hok', Bool.false_and]
  | hget =>
      refine hread ?_
      split
      · exact readKey_affects (KVContainer.hashGetValue_keeps hok ctx.now _ _)
      · exact readKey_affects (KVContainer.hashGetValues_keeps hok ctx.now _ _)
  | hdel =>
      refine handler_of_body hok .hdel rfl rfl fun _ =>
        onKey_affects (KVContainer.hashDelField_acts hok ctx.now _ _).1 ?_
      rw [(KVContainer.hashDelField_acts hok ctx.now _ _).2]
      rfl
  | hexists =>
      exact hread (readKey_affects (KVContainer.onHash_keeps hok ctx.now _ false fun _ => rfl))
  | hgetall =>
      exact hread (readKey_affects (KVContainer.onHash_keeps hok ctx.now _ [] fun _ => rfl))
  | hkeys =>
      exact hread (readKey_affects (KVContainer.onHash_keeps hok ctx.now _ [] fun _ => rfl))
  | hvals =>
      exact hread (readKey_affects (KVContainer.onHash_keeps hok ctx.now _ [] fun _ => rfl))
  | hlen =>
      exact hread (readKey_affects (KVContainer.onHash_keeps hok ctx.now _ 0 fun _ => rfl))
  | sadd =>
      refine handler_of_body hok .sadd rfl rfl fun _ => ?_
      obtain ⟨ha, hcode⟩ := KVContainer.setAddItem_acts hok ctx.now (keyOf argv) hkey (argv.drop 2)
      refine onKey_affects ha ?_
      rw [hcode]
      exact addMembers_code _ _
  | sismember =>
      exact hread (readKey_affects (KVContainer.onSet_keeps hok ctx.now _ false fun _ => rfl))
  | smismember => exact hread (readKey_affects (KVContainer.setMIsMember_keeps hok ctx.now _ _))
  | smembers =>
      exact hread (readKey_affects (KVContainer.onSet_keeps hok ctx.now _ [] fun _ => rfl))
  | srem =>
      refine handler_of_body hok .srem rfl rfl fun _ => ?_
      obtain ⟨ha, hcode⟩ := KVContainer.setRemoveMembers_acts hok ctx.now (keyOf argv) (argv.drop 2)
      refine onKey_affects ha ?_
      show ((s.holder.setRemoveMembers ctx.now (keyOf argv) (argv.drop 2)).2.2 != .wrongType) = _
      rw [hcode]
      rfl
  | scard =>
      exact hread (readKey_affects (KVContainer.onSet_keeps hok ctx.now _ 0 fun _ => rfl))
  | spop => exact affects_self hok
  | publish => exact affects_self hok
  | subscribe => exact affects_self hok
  | unsubscribe => exact affects_self hok
  | bgsave => exact affects_self hok

end

/-! ## Commands that are not logged -/

theorem logged_silent {r : Cell × ErrCode} {c : Cell} (hr : r.2 ≠ .ok → r.1 = c)
    (h : (Cell.logged r).2 = false) : (Cell.logged r).1 = c :=
  hr (beq_eq_false_iff_ne.mp h)

theorem byNumber_silent {f : Int64 → Cell → Cell × ErrCode} {word : Bytes} {c : Cell}
    (hf : ∀ n, (f n c).2 ≠ .ok → (f n c).1 = c) (h : (Cell.byNumber f word c).2 = false) :
    (Cell.byNumber f word c).1 = c := by
  unfold Cell.byNumber at h ⊢
  cases hw : canConvertToInt64 word with
  | none => rfl
  | some n =>
      rw [hw] at h
      dsimp only at h ⊢
      split
      · rfl
      · rename_i hneg
        rw [if_neg hneg] at h
        exact logged_silent (hf n) h

/-- The end a pop takes from. -/
def Opcode.popsLeft : Opcode → Option Bool
  | .lpop => some true
  | .rpop => some false
  | _ => none

/-- The command takes an empty string off a list. -/
def PopsEmpty (op : Opcode) (argv : List Bytes) (c : Cell) : Prop :=
  op.syntaxOk argv = true ∧ ∃ left, op.popsLeft = some left ∧ Cell.popped left c = some []

theorem pop_silent {left : Bool} {c : Cell}
    (h : ((Cell.pop left c).2 == .ok && !(Cell.popped left c).empty) = false)
    (hp : Cell.popped left c ≠ some []) : (Cell.pop left c).1 = c := by
  by_cases hc : (Cell.pop left c).2 = .ok
  · have hnone : Cell.popped left c = none := by
      rw [hc] at h
      cases hx : Cell.popped left c with
      | none => rfl
      | some x =>
          rw [hx] at h hp
          simp [DynamicString.empty, DynamicString.toStdString] at h
          exact absurd (by rw [h]) hp
    -- an element is missing only when the list is empty
    unfold Cell.pop Cell.onCell at hc ⊢
    split
    · rfl
    · rename_i v
      split
      · rfl
      · rename_i l hl
        rw [Cell.popped, Option.bind_some, hl] at hnone
        have hv : v = .list l := by
          cases v <;> cases hl
          rfl
        cases left with
        | true =>
            have hnil : l = [] := List.head?_eq_none_iff.mp hnone
            rw [hv, hnil]
            rfl
        | false =>
            have hnil : l = [] := List.getLast?_eq_none_iff.mp hnone
            rw [hv, hnil]
            rfl
  · exact Cell.onCell_eq_of_ne_ok hc

/-- A command that is not logged has left its key alone. -/
theorem effect_silent {op : Opcode} {argv : List Bytes} {c : Cell}
    (h : (op.effect argv c).2 = false) (hp : ¬ PopsEmpty op argv c) :
    (op.effect argv c).1 = c := by
  unfold Opcode.effect at h ⊢
  by_cases hs : op.syntaxOk argv = true
  · rw [if_pos hs] at h ⊢
    have hpop : ∀ left, op.popsLeft = some left → Cell.popped left c ≠ some [] :=
      fun left hl hx => hp ⟨hs, left, hl, hx⟩
    cases op with
    | set => cases h
    | incr => exact logged_silent Cell.addInt_eq_of_ne_ok h
    | decr => exact logged_silent Cell.addInt_eq_of_ne_ok h
    | incrby => exact byNumber_silent (fun n => Cell.addInt_eq_of_ne_ok) h
    | decrby => exact byNumber_silent (fun n => Cell.addInt_eq_of_ne_ok) h
    | append => exact logged_silent Cell.append_eq_of_ne_ok h
    | lpush => exact logged_silent Cell.createOnCell_eq_of_ne_ok h
    | rpush => exact logged_silent Cell.createOnCell_eq_of_ne_ok h
    | lpop => exact pop_silent h (hpop true rfl)
    | rpop => exact pop_silent h (hpop false rfl)
    | lsetindex =>
        unfold Opcode.body at h ⊢
        dsimp only at h ⊢
        split
        · rfl
        · rename_i hi
          rw [hi] at h
          exact logged_silent Cell.setIndex_eq_of_ne_ok h
    | hset => exact logged_silent Cell.createOnCell_eq_of_ne_ok h
    | hdel =>
        refine Cell.onCell_eq_of_ne_ok fun hcode => ?_
        have hne : (Cell.deleteFields (argv.drop 2) c).2 = .ok := hcode
        simp only [Opcode.body, hne] at h
        cases h
    | sadd => exact logged_silent Cell.createOnCell_eq_of_ne_ok h
    | srem =>
        refine Cell.onCell_eq_of_ne_ok fun hcode => ?_
        have hne : (Cell.removeMembers (argv.drop 2) c).2 = .ok := hcode
        simp only [Opcode.body, hne] at h
        cases h
    | _ => rfl
  · rw [if_neg hs]

/-! ## What `expire` can do -/

/-- The five ways in which `expire` with an interval changes the process. -/
inductive Engine.SetsExpiration (s : Engine) (ctx : Ctx) (key : Bytes) (interval : Int64) :
    Engine → Prop where
  | create (hf : AssocList.find? key s.expires = none) (hpos : 0 < interval.toInt) :
      SetsExpiration s ctx key interval { s with
        tev := (s.tev.createTimeEvent ctx.now (interval.toInt.toNat * 1000 % 2 ^ 64)
          (.byValue key) 1).1
        expires := (key, (s.tev.createTimeEvent ctx.now (interval.toInt.toNat * 1000 % 2 ^ 64)
          (.byValue key) 1).2) :: s.expires }
  | delete (hf : AssocList.find? key s.expires = none) (hzero : interval.toInt = 0) :
      SetsExpiration s ctx key interval { s with holder := (s.holder.delete (.ofStdString key)).1 }
  | nothing (hf : AssocList.find? key s.expires = none) (hneg : interval.toInt < 0) :
      SetsExpiration s ctx key interval s
  | update {id : Nat} {tev : TimeEventHolder} (hf : AssocList.find? key s.expires = some id)
      (hge : 0 ≤ interval.toInt)
      (ht : s.tev.updateTimeEvent ctx.now id (interval.toInt.toNat * 1000 % 2 ^ 64) 1
        = (tev, true)) :
      SetsExpiration s ctx key interval { s with tev := tev }
  | remove {id : Nat} {tev : TimeEventHolder} (hf : AssocList.find? key s.expires = some id)
      (hneg : interval.toInt < 0) (ht : s.tev.removeTimeEvent id = (tev, true)) :
      SetsExpiration s ctx key interval { s with tev := tev, expires := erase key s.expires }

theorem setsExpiration {s s' : Engine} {ctx : Ctx} {key : Bytes} {interval : Int64}
    (h : s.setExpiration ctx key interval = some s') : s.SetsExpiration ctx key interval s' := by
  unfold Engine.setExpiration at h
  cases hf : AssocList.find? key s.expires with
  | none =>
      rw [hf] at h
      dsimp only at h
      by_cases hpos : interval.toInt > 0
      · rw [if_pos hpos] at h
        cases h
        exact .create hf hpos
      · rw [if_neg hpos] at h
        by_cases hzero : interval.toInt = 0
        · rw [if_pos hzero] at h
          cases h
          exact .delete hf hzero
        · rw [if_neg hzero] at h
          cases h
          exact .nothing hf (by omega)
  | some id =>
      rw [hf] at h
      dsimp only at h
      by_cases hge : interval.toInt ≥ 0
      · rw [if_pos hge] at h
        match ht : s.tev.updateTimeEvent ctx.now id (interval.toInt.toNat * 1000 % 2 ^ 64) 1 with
        | (tev, true) =>
            rw [ht] at h
            cases h
            exact .update hf hge ht
        | (tev, false) =>
            rw [ht] at h
            cases h
      · rw [if_neg hge] at h
        match ht : s.tev.removeTimeEvent id with
        | (tev, true) =>
            rw [ht] at h
            cases h
            exact .remove hf (by omega) ht
        | (tev, false) =>
            rw [ht] at h
            cases h

/-- The words of an `expire` command that sets an expiration on a key of the
store. -/
structure Engine.Expires (s : Engine) (ctx : Ctx) (argv : List Bytes) (interval : Int64)
    (s' : Engine) : Prop where
  length : argv.length = 3
  exists_ : s.holder.keyExists (keyOf argv) = true
  number : canConvertToInt64 (arg argv 2) = some interval
  set : s.setExpiration ctx (arg argv 1) interval = some s'

/-- An `expire` command is refused, or answers 1. -/
theorem expireCommand_cases (s : Engine) (ctx : Ctx) (argv : List Bytes) :
    ((expireCommand ctx s argv).1 = s ∧ (expireCommand ctx s argv).2 ≠ .ok kInt1Msg ∧
        ∀ interval s', ¬ s.Expires ctx argv interval s') ∨
      ∃ interval s', s.Expires ctx argv interval s' ∧
        expireCommand ctx s argv = (s'.logExpiration ctx (arg argv 1) interval, .ok kInt1Msg) := by
  have hsyn : checkSyntax argv 1 1 false = true ↔ argv.length = 3 := checkSyntax_operands argv 1
  have hzero : (Except.ok kInt0Msg : Reply) ≠ .ok kInt1Msg := by decide
  have hinvalid : (Except.ok kInvalidIntegerMsg : Reply) ≠ .ok kInt1Msg := by decide
  have hwords : (Except.ok (syntaxErrMsg "expire") : Reply) ≠ .ok kInt1Msg := by decide
  unfold expireCommand checkSyntaxHelper
  by_cases hlen : argv.length = 3
  · rw [if_pos (hsyn.mpr hlen)]
    dsimp only
    cases hkey : s.holder.keyExists (.ofStdString (arg argv 1)) with
    | false =>
        simp only [Bool.not_false, if_true]
        refine Or.inl ⟨trivial, hzero, fun interval s' h => ?_⟩
        have hex := h.exists_
        rw [keyOf, hkey] at hex
        cases hex
    | true =>
        simp only [Bool.not_true, Bool.false_eq_true, if_false]
        cases hnum : canConvertToInt64 (arg argv 2) with
        | none =>
            refine Or.inl ⟨rfl, hinvalid, fun interval s' h => ?_⟩
            have hn := h.number
            rw [hnum] at hn
            cases hn
        | some interval =>
            dsimp only
            cases hset : s.setExpiration ctx (arg argv 1) interval with
            | none =>
                refine Or.inl ⟨rfl, hzero, fun i s' h => ?_⟩
                obtain rfl : interval = i := Option.some.inj (hnum.symm.trans h.number)
                have hs := h.set
                rw [hset] at hs
                cases hs
            | some s' => exact Or.inr ⟨interval, s', ⟨hlen, hkey, hnum, hset⟩, rfl⟩
  · rw [if_neg (mt hsyn.mp hlen)]
    exact Or.inl ⟨rfl, hwords, fun interval s' h => hlen h.length⟩

end LiteKV
