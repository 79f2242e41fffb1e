/-
LiteKV.Net.EntryTheorems — replaying the entries of a log, seen from one key.

`cellAfter` is what a command on one key makes of the key's content;
`cellAfter_entry` gives it for every entry in terms of the abstract store.
An entry that is replayed changes the store at its own key by `cellAfter`
(`replay_single`), at all keys it names (`replay_del`), or not at all, and
an `expireat` that has passed deletes its key unless the key has an
expiration already (`replay_expireat_entry`).
-/
import LiteKV.Net.LogTheorems
import LiteKV.Net.ReplayTheorems

namespace LiteKV

open Lib Lib.AssocList

/-! ## Cells -/

/-- What a command on one key makes of the content of the key. -/
def cellAfter (cell : Cell) (c : List Bytes) : Cell :=
  match Opcode.ofBytes (arg c 0) with
  | some op => (op.effect c cell).1
  | none => cell

/-- The command is one that would be logged again. -/
def succeeds (cell : Cell) (c : List Bytes) : Bool :=
  match Opcode.ofBytes (arg c 0) with
  | some op => (op.effect c cell).2
  | none => false

/-- The content of a key after commands on it, from nothing. -/
def valueOf (cmds : List (List Bytes)) : Cell := cmds.foldl cellAfter none

theorem cellAfter_name (cell : Cell) (op : Opcode) (args : List Bytes) :
    cellAfter cell (op.name :: args) = (op.effect (op.name :: args) cell).1 := by
  unfold cellAfter
  rw [show arg (op.name :: args) 0 = op.name from rfl, Opcode.ofBytes_name]

theorem succeeds_name (cell : Cell) (op : Opcode) (args : List Bytes) :
    succeeds cell (op.name :: args) = (op.effect (op.name :: args) cell).2 := by
  unfold succeeds
  rw [show arg (op.name :: args) 0 = op.name from rfl, Opcode.ofBytes_name]

/-- The number of an entry is read back. -/
theorem Cell.byNumber_intToString (f : Int64 → Cell → Cell × ErrCode) {n : Int64}
    (hn : 0 ≤ n.toInt) (cell : Cell) :
    Cell.byNumber f (intToString n.toInt) cell = Cell.logged (f n cell) := by
  rw [Cell.byNumber, canConvertToInt64_eq_some.mpr rfl]
  dsimp only
  rw [if_neg (by omega)]

section

variable (cell : Cell) (key : Bytes)

theorem checkSyntax_elements (op : Opcode) (words : List Bytes) :
    checkSyntax (op.name :: key :: words) 1 (-1) false = !words.isEmpty := by
  cases words with
  | nil => rfl
  | cons w ws => simp [checkSyntax]

theorem checkSyntax_pairs (fvs : List (Bytes × Bytes)) :
    checkSyntax (Opcode.name .hset :: key :: fvs.flatMap fun e => [e.1, e.2]) 1 (-1) true
      = !fvs.isEmpty := by
  have hlen : (fvs.flatMap fun e => [e.1, e.2]).length = 2 * fvs.length := by
    induction fvs with
    | nil => rfl
    | cons e fvs ih =>
      rw [List.flatMap_cons, List.length_append, ih]
      simp only [List.length_cons, List.length_nil]
      omega
  have heven : (2 * fvs.length + 1 + 1) % 2 = 0 := by omega
  simp only [checkSyntax, List.length_cons, hlen, heven]
  cases fvs with
  | nil => rfl
  | cons e fvs =>
      have hpos : 1 ≤ 2 * (fvs.length + 1) := by omega
      simp [hpos]

/-- An operation on elements is refused when there are none. -/
theorem effect_elements {op : Opcode} {words : List Bytes}
    (hs : op.syntaxOk (op.name :: key :: words) = !words.isEmpty) :
    (op.effect (op.name :: key :: words) cell).1
      = if words = [] then cell else (op.body (op.name :: key :: words) cell).1 := by
  unfold Opcode.effect
  rw [hs]
  cases words with
  | nil => rfl
  | cons w ws => rfl

end

/-- What an entry makes of the content of its key. -/
theorem cellAfter_entry (cell : Cell) (e : LogEntry) : cellAfter cell e.argv = match e with
    | .del _ => cell
    | .expireat _ _ => cell
    | .set _ value => some (.ofText value)
    | .incr _ => (Cell.incrBy 1 cell).1
    | .decr _ => (Cell.decrBy 1 cell).1
    | .incrby _ n _ => (Cell.incrBy n cell).1
    | .decrby _ n _ => (Cell.decrBy n cell).1
    | .append _ value => (Cell.append value cell).1
    | .lpush _ values => if values = [] then cell else (Cell.push true values cell).1
    | .rpush _ values => if values = [] then cell else (Cell.push false values cell).1
    | .lpop _ => (Cell.pop true cell).1
    | .rpop _ => (Cell.pop false cell).1
    | .lsetindex _ idx _ value => (Cell.setIndex idx value cell).1
    | .hset _ fvs => if fvs = [] then cell else (Cell.updateFields fvs cell).1
    | .hdel _ fields => if fields = [] then cell else (Cell.deleteFields fields cell).1
    | .sadd _ members => if members = [] then cell else (Cell.addMembers members cell).1
    | .srem _ members => if members = [] then cell else (Cell.removeMembers members cell).1 := by
  refine (cellAfter_name cell e.opcode e.words).trans ?_
  cases e with
  | incrby key n hn => exact congrArg Prod.fst (Cell.byNumber_intToString Cell.incrBy hn cell)
  | decrby key n hn => exact congrArg Prod.fst (Cell.byNumber_intToString Cell.decrBy hn cell)
  | lpush key values => exact effect_elements cell key (checkSyntax_elements key .lpush values)
  | rpush key values => exact effect_elements cell key (checkSyntax_elements key .rpush values)
  | lsetindex key idx fits value =>
      have hidx :
          canConvertToInt32 (arg (LogEntry.lsetindex key idx fits value).argv 2) = some idx :=
        canConvertToInt32_eq_some.mpr ⟨fits, rfl⟩
      show (Opcode.body .lsetindex (LogEntry.lsetindex key idx fits value).argv cell).1 = _
      rw [Opcode.body, hidx]
      rfl
  | hset key fvs =>
      have hs := checkSyntax_pairs key fvs
      have hbody : (Opcode.body .hset (LogEntry.hset key fvs).argv cell).1
          = (Cell.updateFields fvs cell).1 := by
        show (Cell.updateFields (fieldValues (fvs.flatMap fun e => [e.1, e.2])) cell).1 = _
        rw [fieldValues_flatMap]
      show (if checkSyntax (LogEntry.hset key fvs).argv 1 (-1) true then _ else _ : Cell × Bool).1
        = if fvs = [] then cell else (Cell.updateFields fvs cell).1
      rw [← hbody, show checkSyntax (LogEntry.hset key fvs).argv 1 (-1) true = _ from hs]
      cases fvs with
      | nil => rfl
      | cons e fvs => rfl
  | hdel key fields => exact effect_elements cell key (checkSyntax_elements key .hdel fields)
  | sadd key members => exact effect_elements cell key (checkSyntax_elements key .sadd members)
  | srem key members => exact effect_elements cell key (checkSyntax_elements key .srem members)
  | _ => rfl

/-! ## Replay -/

/-- The interval to a time, which may have passed. -/
theorem expireInterval_ofNat {ctx : Ctx} {sec : Nat} (hsec : ctx.nowSec < 2 ^ 63)
    (hlt : sec < 2 ^ 63) :
    (expireInterval ctx (Int64.ofNat sec)).toInt = max 0 ((sec : Int) - ctx.nowSec) := by
  have hd : (Int64.ofNat sec - Int64.ofNat ctx.nowSec).toInt = (sec : Int) - ctx.nowSec := by
    rw [Int64.toInt_sub, Int64.toInt_ofNat_of_lt hlt, Int64.toInt_ofNat_of_lt hsec,
      Int.bmod_eq_of_le (by omega) (by omega)]
  unfold expireInterval
  dsimp only
  rw [hd]
  split
  · rw [Int64.toInt_zero]
    omega
  · rw [hd]
    omega

section

variable {rctx : Ctx} (hr : Replays rctx) {t : Engine} (ht : t.Ok)

include hr ht

theorem replay_single {op : Opcode} (hop : op.single = true) (args : List Bytes) :
    (t.handleCommand rctx (op.name :: args)).1.Ok ∧
      (t.handleCommand rctx (op.name :: args)).1.holder.view
        = Function.update t.holder.view (keyOf (op.name :: args))
            (cellAfter (t.holder.view (keyOf (op.name :: args))) (op.name :: args)) ∧
      (t.handleCommand rctx (op.name :: args)).1.hasExpiration = t.hasExpiration := by
  rw [handleCommand_logged t hr.pressure, cellAfter_name]
  have ha : Affects rctx t (op.name :: args) _ _ := handler_affects ht.1 op hop
  obtain ⟨hok, hexp⟩ := affects_ok ha ht
  exact ⟨hok, ha.acts.2, hexp⟩

theorem replay_del (names : List Bytes) :
    (t.handleCommand rctx (LogEntry.del names).argv).1.Ok ∧
      (t.handleCommand rctx (LogEntry.del names).argv).1.holder.view = (fun k =>
        if k ∈ names.map StaticString.ofStdString then none else t.holder.view k) ∧
      (t.handleCommand rctx (LogEntry.del names).argv).1.hasExpiration = t.hasExpiration := by
  obtain ⟨hok, hview⟩ := KVContainer.deleteAll_spec ht.1 names
  have hm : Mirrors { t with holder := (t.holder.deleteAll names).1 }
      (t.handleCommand rctx (LogEntry.del names).argv).1 :=
    mirrors_del hr ⟨ht, ht, rfl, rfl⟩ ⟨hok, ht.2⟩ rfl hview
  exact ⟨hm.replayOk, hm.view.trans hview, hm.expirations⟩

omit ht in
/-- A time that `CanConvertToInt64` refuses. -/
theorem replay_expireat_unread {word : Bytes} (hw : canConvertToInt64 word = none) (key : Bytes) :
    (t.handleCommand rctx [Opcode.name .expireat, key, word]).1 = t := by
  have hword : canConvertToInt64 (arg [Opcode.name .expireat, key, word] 2) = none := hw
  rw [handleCommand_logged t hr.pressure, Opcode.handler, expireAtCommand, checkSyntaxHelper]
  split
  · simp only [hword]
  · rfl

omit ht in
/-- There is nothing to expire. -/
theorem replay_expireat_absent {key : Bytes} (hkey : t.holder.view (.ofStdString key) = none)
    (word : Bytes) : (t.handleCommand rctx [Opcode.name .expireat, key, word]).1 = t := by
  cases hw : canConvertToInt64 word with
  | none => exact replay_expireat_unread hr hw key
  | some unixSec =>
      have hexists : t.holder.keyExists (.ofStdString key) = false := by
        rw [KVContainer.keyExists_eq, hkey]
        rfl
      rw [handleCommand_logged t hr.pressure, Opcode.handler, expireAtCommand_runs hw,
        expireCommand, checkSyntaxHelper]
      split
      · simp only [arg, List.getD_cons_succ, List.getD_cons_zero, hexists, Bool.not_false, if_true]
      · rfl

/-- Replaying an `expireat`, whatever its time is. -/
theorem replay_expireat_entry (hsec : rctx.nowSec < 2 ^ 63) (key : Bytes) (sec : UInt64) :
    (t.handleCommand rctx (LogEntry.expireat key sec).argv).1.Ok ∧
      (t.handleCommand rctx (LogEntry.expireat key sec).argv).1.holder.view
        = (if sec.toNat ≤ rctx.nowSec ∧ t.hasExpiration key = false then
            Function.update t.holder.view (.ofStdString key) none else t.holder.view) ∧
      ∀ k, (t.handleCommand rctx (LogEntry.expireat key sec).argv).1.hasExpiration k = true →
        t.hasExpiration k = true ∨
          (k = key ∧ rctx.nowSec < sec.toNat ∧
            (canConvertToInt64 (natToString sec.toNat)).isSome) := by
  cases hkey : t.holder.view (.ofStdString key) with
  | none =>
      rw [show (t.handleCommand rctx (LogEntry.expireat key sec).argv).1 = t from
        replay_expireat_absent hr hkey _]
      refine ⟨ht, ?_, fun k hk => .inl hk⟩
      rw [← hkey, Function.update_eq_self, ite_self]
  | some v =>
      by_cases hlt : sec.toNat < 2 ^ 63
      · have hint : (Int64.ofNat sec.toNat).toInt = sec.toNat := Int64.toInt_ofNat_of_lt hlt
        have hconv : canConvertToInt64 (natToString sec.toNat) = some (Int64.ofNat sec.toNat) := by
          rw [canConvertToInt64_eq_some, hint, intToString_natCast]
        obtain ⟨hok, hview, hexp⟩ := replay_expireat_word hr hconv ht (by rw [hkey]; rfl)
        have hival := expireInterval_ofNat hsec hlt
        refine ⟨hok, hview.trans ?_, ?_⟩
        · unfold storeAfterExpire
          rw [hival]
          by_cases hpast : sec.toNat ≤ rctx.nowSec
          · have hz : max 0 ((sec.toNat : Int) - rctx.nowSec) = 0 := by omega
            simp only [hz, hpast, and_true, true_and]
          · have hnz : max 0 ((sec.toNat : Int) - rctx.nowSec) ≠ 0 := by omega
            simp only [hnz, hpast, and_false, false_and, if_false]
        · intro k hk
          rw [show (t.handleCommand rctx (LogEntry.expireat key sec).argv).1.hasExpiration = _ from
            hexp, expirationsAfter, hival] at hk
          split at hk
          · rename_i hpos
            by_cases hkk : k = key
            · exact .inr ⟨hkk, by omega, by rw [hconv]; rfl⟩
            · rw [Function.update_of_ne hkk] at hk
              exact .inl hk
          · rw [if_pos (by omega)] at hk
            exact .inl hk
      · have hnone : canConvertToInt64 (natToString sec.toNat) = none := by
          cases hc : canConvertToInt64 (natToString sec.toNat) with
          | none => rfl
          | some v =>
              rw [canConvertToInt64_eq_some, ← intToString_natCast] at hc
              have := intToString_injective hc
              have := Int64.toInt_lt v
              omega
        rw [show (t.handleCommand rctx (LogEntry.expireat key sec).argv).1 = t from
          replay_expireat_unread hr hnone key, if_neg (by omega)]
        exact ⟨ht, rfl, fun k hk => .inl hk⟩

end

end LiteKV
