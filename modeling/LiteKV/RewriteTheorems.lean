/-
LiteKV.RewriteTheorems — what a rewritten file means.

Two replays are compared at one key. Replaying the file makes of the key
what its `survivors` make of it from nothing (`replay_tracks`), as long as
the rewriter and the replay agree on where the key was emptied: not when a
`del` names the key behind another one, and not when an `expireat` that has
passed follows one that has not, because then the replay only moves the
key's timer. `KeyHistory` follows that.

The second pass runs the same survivors on its auxiliary containers, and
`Aux.Shows` says that they show what the store holds. This fails where the
store refuses to count and the rewriter does not, so `Counts` asks for the
store to accept. What is then written for the key gives the same value
back exactly when the last survivor was of the kind of the value, the value
is no empty collection, and no string of digits (`Value.Restorable`).
-/
import LiteKV.RedundancyTheorems
import LiteKV.Net.EntryTheorems

namespace LiteKV

open Lib Lib.AssocList Lib.Run

/-! ## Replaying the file -/

theorem survivors_append_singleton (now : Nat) (c : List Bytes) : ∀ (cmds : List (List Bytes)),
    survivors now (cmds ++ [c]) = (if clears now c then [] else survivors now cmds) ++
      if remains now c then [c] else []
  | [] => by
      by_cases h : remains now c = true <;> simp [survivors, h]
  | d :: cmds => by
      have ih := survivors_append_singleton now c cmds
      rw [List.cons_append, survivors, survivors, ih, List.any_append, List.any_cons, List.any_nil,
        Bool.or_false]
      by_cases hc : clears now c = true
      · simp [hc]
      · rw [Bool.not_eq_true] at hc
        rw [hc, Bool.or_false]
        split <;> simp

theorem commandsOn_append_singleton (key : Bytes) (cmds : List (List Bytes)) (c : List Bytes) :
    commandsOn key (cmds ++ [c]) = commandsOn key cmds ++ if arg c 1 = key then [c] else [] := by
  by_cases h : arg c 1 = key <;> simp [commandsOn, h]

/-- What the replay knows about a key and the rewriter does not. -/
structure KeyHistory where
  /-- The key may have a timer: an `expireat` was still to come. -/
  armed : Bool
  /-- The key was emptied for one of the two only. -/
  tangled : Bool
  deriving DecidableEq

/-- One more command of the file. -/
def KeyHistory.after (now : Nat) (key : Bytes) (h : KeyHistory) (c : List Bytes) : KeyHistory :=
  match Opcode.ofBytes (arg c 0) with
  | some .del =>
      if arg c 1 = key then { h with tangled := false }
      else if StaticString.ofStdString key ∈ (c.drop 1).map StaticString.ofStdString then
        { h with tangled := true }
      else h
  | some .set => if arg c 1 = key then { h with tangled := false } else h
  | some .expireat =>
      if arg c 1 = key then
        if expired now c then { h with tangled := h.armed }
        else { h with armed := h.armed || (canConvertToInt64 (arg c 2)).isSome }
      else h
  | _ => h

def historyOf (now : Nat) (key : Bytes) (file : List (List Bytes)) : KeyHistory :=
  file.foldl (KeyHistory.after now key) ⟨false, false⟩

theorem historyOf_append_singleton (now : Nat) (key : Bytes) (file : List (List Bytes))
    (c : List Bytes) :
    historyOf now key (file ++ [c]) = (historyOf now key file).after now key c := by
  rw [historyOf, List.foldl_append]
  rfl

theorem expired_entry (now : Nat) (key : Bytes) (sec : UInt64) :
    expired now (LogEntry.expireat key sec).argv = decide (sec.toNat ≤ now) := by
  unfold expired
  rw [show arg (LogEntry.expireat key sec).argv 2 = natToString sec.toNat from rfl,
    canConvertToUInt64_natToString sec.toNat_lt]
  rfl

/-! What the entries that start a value afresh do to a history. -/

theorem KeyHistory.after_set (hist : KeyHistory) (now : Nat) (key key' value : Bytes) :
    hist.after now key (LogEntry.set key' value).argv
      = if key' = key then { hist with tangled := false } else hist := by
  unfold KeyHistory.after
  rw [LogEntry.arg_zero, Opcode.ofBytes_name]
  rfl

theorem KeyHistory.after_del (hist : KeyHistory) (now : Nat) (key first : Bytes)
    (names : List Bytes) : hist.after now key (LogEntry.del (first :: names)).argv
      = if first = key then { hist with tangled := false }
        else if StaticString.ofStdString key ∈ (first :: names).map StaticString.ofStdString then
          { hist with tangled := true }
        else hist := by
  unfold KeyHistory.after
  rw [LogEntry.arg_zero, Opcode.ofBytes_name]
  rfl

theorem KeyHistory.after_expireat (hist : KeyHistory) (now : Nat) (key key' : Bytes)
    (sec : UInt64) : hist.after now key (LogEntry.expireat key' sec).argv
      = if key' = key then
          if decide (sec.toNat ≤ now) = true then { hist with tangled := hist.armed }
          else { hist with
            armed := hist.armed || (canConvertToInt64 (natToString sec.toNat)).isSome }
        else hist := by
  unfold KeyHistory.after
  rw [LogEntry.arg_zero, Opcode.ofBytes_name, expired_entry]
  rfl

/-- An `expireat` clears its key exactly when it does not stay itself. -/
theorem expireat_survives (now : Nat) (key : Bytes) (sec : UInt64) :
    clears now (LogEntry.expireat key sec).argv = decide (sec.toNat ≤ now) ∧
      remains now (LogEntry.expireat key sec).argv = !decide (sec.toNat ≤ now) := by
  unfold clears remains
  rw [LogEntry.arg_zero, Opcode.ofBytes_name, expired_entry]
  exact ⟨rfl, rfl⟩

/-- A process that has replayed `file`, seen from a key. -/
structure Tracks (now : Nat) (key : Bytes) (file : List (List Bytes)) (t : Engine) : Prop where
  ok : t.Ok
  armed : t.hasExpiration key = true → (historyOf now key file).armed = true
  cell : (historyOf now key file).tangled = false →
    t.holder.view (.ofStdString key) = valueOf (survivors now (commandsOn key file))

theorem tracks_new (now : Nat) (key : Bytes) : Tracks now key [] .new :=
  ⟨Engine.ok_new, fun h => absurd h Bool.false_ne_true,
    fun _ => congrFun KVContainer.view_new _⟩

theorem valueOf_append_singleton (cmds : List (List Bytes)) (c : List Bytes) :
    valueOf (cmds ++ [c]) = cellAfter (valueOf cmds) c := by
  rw [valueOf, List.foldl_append]
  rfl

section

variable {rctx : Ctx} (hr : Replays rctx) (hsec : rctx.nowSec < 2 ^ 63) {key : Bytes}
  {file : List (List Bytes)} {t : Engine} (h : Tracks rctx.nowSec key file t)

include h

/-- A command that does not concern the key. -/
theorem Tracks.other {c : List Bytes} {t' : Engine} (hok : t'.Ok) (hkey : arg c 1 ≠ key)
    (hhist : (historyOf rctx.nowSec key file).after rctx.nowSec key c
      = historyOf rctx.nowSec key file)
    (hview : t'.holder.view (.ofStdString key) = t.holder.view (.ofStdString key))
    (hexp : t'.hasExpiration key = true → t.hasExpiration key = true) :
    Tracks rctx.nowSec key (file ++ [c]) t' := by
  refine ⟨hok, ?_, ?_⟩
  · rw [historyOf_append_singleton, hhist]
    exact fun he => h.armed (hexp he)
  · rw [historyOf_append_singleton, hhist, commandsOn_append_singleton, if_neg hkey,
      List.append_nil, hview]
    exact h.cell

omit h in
/-- A command on the key. -/
theorem Tracks.own {c : List Bytes} {t' : Engine} (hok : t'.Ok) (hkey : arg c 1 = key)
    (harmed : t'.hasExpiration key = true →
      ((historyOf rctx.nowSec key file).after rctx.nowSec key c).armed = true)
    (hcell : ((historyOf rctx.nowSec key file).after rctx.nowSec key c).tangled = false →
      t'.holder.view (.ofStdString key)
        = valueOf ((if clears rctx.nowSec c then []
            else survivors rctx.nowSec (commandsOn key file)) ++
              if remains rctx.nowSec c then [c] else [])) :
    Tracks rctx.nowSec key (file ++ [c]) t' := by
  refine ⟨hok, ?_, ?_⟩
  · rw [historyOf_append_singleton]
    exact harmed
  · rw [historyOf_append_singleton, commandsOn_append_singleton, if_pos hkey,
      survivors_append_singleton]
    exact hcell

include hr

/-- A command on one key other than `set`. -/
theorem Tracks.single {op : Opcode} (hop : op.single = true) (hset : op ≠ .set)
    {args : List Bytes}
    (hinj : keyOf (op.name :: args) = .ofStdString key → arg (op.name :: args) 1 = key) :
    Tracks rctx.nowSec key (file ++ [op.name :: args])
      (t.handleCommand rctx (op.name :: args)).1 := by
  obtain ⟨hok, hview, hexp⟩ := replay_single hr h.ok hop args
  have hop0 : Opcode.ofBytes (arg (op.name :: args) 0) = some op := op.ofBytes_name
  have hhist : (historyOf rctx.nowSec key file).after rctx.nowSec key (op.name :: args)
      = historyOf rctx.nowSec key file := by
    unfold KeyHistory.after
    rw [hop0]
    cases op with
    | set => exact absurd rfl hset
    | del | expireat => cases hop
    | _ => rfl
  by_cases hkey : arg (op.name :: args) 1 = key
  · have hk : keyOf (op.name :: args) = .ofStdString key := congrArg StaticString.ofStdString hkey
    have hkeeps : clears rctx.nowSec (op.name :: args) = false ∧
        remains rctx.nowSec (op.name :: args) = true := by
      unfold clears remains
      rw [hop0]
      cases op with
      | set => exact absurd rfl hset
      | del | expireat => cases hop
      | _ => exact ⟨rfl, rfl⟩
    refine .own hok hkey ?_ ?_
    · rw [hhist, hexp]
      exact h.armed
    · rw [hhist, hkeeps.1, hkeeps.2, hview, hk, Function.update_self]
      intro hun
      rw [h.cell hun, ← valueOf_append_singleton]
      rfl
  · refine h.other hok hkey hhist ?_ (by rw [hexp]; exact id)
    rw [hview, Function.update_of_ne fun heq => hkey (hinj heq.symm)]

/-- A `set` decides alone what its key holds. -/
theorem Tracks.set {key' value : Bytes}
    (hinj : StaticString.ofStdString key' = .ofStdString key → key' = key) :
    Tracks rctx.nowSec key (file ++ [(LogEntry.set key' value).argv])
      (t.handleCommand rctx (LogEntry.set key' value).argv).1 := by
  have hsingle : Opcode.single .set = true := rfl
  obtain ⟨hok, hview, hexp⟩ : (t.handleCommand rctx (LogEntry.set key' value).argv).1.Ok ∧ _ ∧
      (t.handleCommand rctx (LogEntry.set key' value).argv).1.hasExpiration = t.hasExpiration :=
    replay_single hr h.ok hsingle [key', value]
  have hafter := (historyOf rctx.nowSec key file).after_set rctx.nowSec key key' value
  by_cases hkey : key' = key
  · subst hkey
    rw [if_pos rfl] at hafter
    refine .own hok rfl ?_ ?_
    · rw [hafter, hexp]
      exact h.armed
    · intro _
      exact (congrFun hview _).trans (Function.update_self _ _ _)
  · rw [if_neg hkey] at hafter
    refine h.other hok hkey hafter ?_ (by rw [hexp]; exact id)
    exact (congrFun hview _).trans (Function.update_of_ne (fun heq => hkey (hinj heq.symm)) _ _)

/-- A `del` whose first key is another empties the key for the replay only. -/
theorem Tracks.del {first : Bytes} {names : List Bytes} :
    Tracks rctx.nowSec key (file ++ [(LogEntry.del (first :: names)).argv])
      (t.handleCommand rctx (LogEntry.del (first :: names)).argv).1 := by
  obtain ⟨hok, hview, hexp⟩ := replay_del hr h.ok (first :: names)
  have hcell := congrFun hview (.ofStdString key)
  have hafter := (historyOf rctx.nowSec key file).after_del rctx.nowSec key first names
  by_cases hkey : first = key
  · subst hkey
    rw [if_pos rfl] at hafter
    refine .own hok rfl ?_ ?_
    · rw [hafter, hexp]
      exact h.armed
    · intro _
      exact hcell.trans (if_pos (List.mem_map_of_mem List.mem_cons_self))
  · rw [if_neg hkey] at hafter
    by_cases hnamed : StaticString.ofStdString key ∈
        (first :: names).map StaticString.ofStdString
    · rw [if_pos hnamed] at hafter
      refine ⟨hok, ?_, ?_⟩
      · rw [historyOf_append_singleton, hafter, hexp]
        exact h.armed
      · rw [historyOf_append_singleton, hafter]
        intro hun
        cases hun
    · rw [if_neg hnamed] at hafter
      exact h.other hok hkey hafter (hcell.trans (if_neg hnamed)) (by rw [hexp]; exact id)

include hsec

/-- An `expireat` that has passed deletes its key, unless that has a timer. -/
theorem Tracks.expireat {key' : Bytes} {sec : UInt64}
    (hinj : StaticString.ofStdString key' = .ofStdString key → key' = key) :
    Tracks rctx.nowSec key (file ++ [(LogEntry.expireat key' sec).argv])
      (t.handleCommand rctx (LogEntry.expireat key' sec).argv).1 := by
  obtain ⟨hok, hview, hexp⟩ := replay_expireat_entry hr h.ok hsec key' sec
  have hafter := (historyOf rctx.nowSec key file).after_expireat rctx.nowSec key key' sec
  obtain ⟨hclears, hremains⟩ := expireat_survives rctx.nowSec key' sec
  by_cases hkey : key' = key
  · subst hkey
    rw [if_pos rfl] at hafter
    by_cases hpast : sec.toNat ≤ rctx.nowSec
    · rw [decide_eq_true hpast] at hafter hclears hremains
      rw [if_pos rfl] at hafter
      refine .own hok rfl ?_ ?_
      · rw [hafter]
        intro he
        rcases hexp key' he with he | ⟨-, hlt, -⟩
        · exact h.armed he
        · omega
      · rw [hafter, hclears, hremains, hview]
        intro hun
        have hno : t.hasExpiration key' = false := by
          by_contra hyes
          have harmed := h.armed (by simpa using hyes)
          rw [show (historyOf rctx.nowSec key' file).armed = false from hun] at harmed
          cases harmed
        rw [if_pos ⟨hpast, hno⟩, Function.update_self]
        rfl
    · rw [decide_eq_false hpast] at hafter hclears hremains
      rw [if_neg Bool.false_ne_true] at hafter
      refine .own hok rfl ?_ ?_
      · rw [hafter, Bool.or_eq_true]
        intro he
        rcases hexp key' he with he | ⟨-, -, hconv⟩
        · exact .inl (h.armed he)
        · exact .inr hconv
      · rw [hafter, hclears, hremains, hview, if_neg fun hb => hpast hb.1]
        intro hun
        rw [if_neg Bool.false_ne_true, Bool.not_false, if_pos rfl, valueOf_append_singleton,
          cellAfter_entry]
        exact h.cell hun
  · rw [if_neg hkey] at hafter
    refine h.other hok hkey hafter ?_ ?_
    · rw [hview]
      split
      · exact Function.update_of_ne (fun heq => hkey (hinj heq.symm)) _ _
      · rfl
    · intro he
      rcases hexp key he with he | ⟨heq, -, -⟩
      · exact he
      · exact absurd heq.symm hkey

/-- Every entry with a key keeps track. -/
theorem Tracks.entry {e : LogEntry} (hlen : 2 ≤ e.argv.length)
    (hinj : keyOf e.argv = .ofStdString key → arg e.argv 1 = key) :
    Tracks rctx.nowSec key (file ++ [e.argv]) (t.handleCommand rctx e.argv).1 := by
  cases e with
  | del names =>
      cases names with
      | nil => simp [LogEntry.argv, LogEntry.words] at hlen
      | cons first names => exact h.del hr
  | set key' value => exact h.set hr hinj
  | expireat key' sec => exact h.expireat hr hsec hinj
  | _ =>
      refine h.single hr rfl ?_ hinj
      intro hset
      cases hset

end

/-- Replaying a file keeps track of a key whose word is not confused with
another. -/
theorem replay_tracks {rctx : Ctx} (hr : Replays rctx) (hsec : rctx.nowSec < 2 ^ 63) {key : Bytes}
    (cmds : List (List Bytes)) : ∀ (file : List (List Bytes)) (t : Engine),
      Tracks rctx.nowSec key file t → (∀ c ∈ cmds, Loggable c ∧ 2 ≤ c.length ∧
        (keyOf c = .ofStdString key → arg c 1 = key)) →
      Tracks rctx.nowSec key (file ++ cmds) (t.replay rctx cmds) := by
  induction cmds with
  | nil =>
    intro file t h _
    rw [List.append_nil]
    exact h
  | cons c cmds ih =>
    intro file t h hcmds
    obtain ⟨⟨e, rfl⟩, hlen, hinj⟩ := hcmds c List.mem_cons_self
    have hrest := ih (file ++ [e.argv]) _ (h.entry hr hsec hlen hinj)
      fun c hc => hcmds c (List.mem_cons_of_mem _ hc)
    rw [List.append_assoc] at hrest
    exact hrest

/-! ## The auxiliary containers -/

/-- The key holds an integer or a string. -/
def Cell.isText : Cell → Bool
  | some (.int _) => true
  | some (.string _) => true
  | _ => false

/-- The rewriter and the store do the same with a command: the store does not
refuse to count on a number or a string, and no index is negative. -/
def agrees (cell : Cell) (c : List Bytes) : Bool :=
  match Opcode.ofBytes (arg c 0) with
  | some .incr => !cell.isText || succeeds cell c
  | some .decr => !cell.isText || succeeds cell c
  | some .incrby => !cell.isText || succeeds cell c
  | some .decrby => !cell.isText || succeeds cell c
  | some .lsetindex =>
      match canConvertToInt32 (arg c 2) with
      | some idx => decide (0 ≤ idx)
      | none => true
  | _ => true

namespace Aux

/-- The container for the kind of a value shows the value. -/
def ShowsValue (aux : Aux) : Value → Prop
  | .int n => aux.string = intToString n.toInt
  | .string s => aux.string = s
  | .list l => aux.list = l
  | .hash m => ∀ field, AssocList.find? field aux.hash = m field
  | .set m => ∀ member, decide (member ∈ aux.uset) = m member

/-- Nothing was put into any container. -/
structure Blank (aux : Aux) : Prop where
  list : aux.list = []
  hash : aux.hash = []
  uset : aux.uset = []
  string : aux.string = []
  int64 : aux.int64 = 0
  opType : aux.opType = none ∨ aux.opType = some .list ∨ aux.opType = some .hash ∨
    aux.opType = some .set

def Shows (aux : Aux) : Cell → Prop
  | none => aux.Blank
  | some v => aux.ShowsValue v

theorem blank_new : new.Blank := ⟨rfl, rfl, rfl, rfl, rfl, .inl rfl⟩

section

variable {aux : Aux} {cell : Cell}

/-- A list command does not touch what shows another kind. -/
theorem ShowsValue.list {v : Value} (h : aux.ShowsValue v) (hv : v.asList = none)
    (l : List Bytes) : ShowsValue { aux with opType := some .list, list := l } v := by
  cases v with
  | list l => cases hv
  | _ => exact h

theorem ShowsValue.hash {v : Value} (h : aux.ShowsValue v) (hv : v.asHash = none)
    (m : List (Bytes × Bytes)) : ShowsValue { aux with opType := some .hash, hash := m } v := by
  cases v with
  | hash m => cases hv
  | _ => exact h

theorem ShowsValue.uset {v : Value} (h : aux.ShowsValue v) (hv : v.asSet = none)
    (m : List Bytes) : ShowsValue { aux with opType := some .set, uset := m } v := by
  cases v with
  | set m => cases hv
  | _ => exact h

theorem ShowsValue.text {v : Value} (h : aux.ShowsValue v) (hv : Cell.isText (some v) = false)
    (t : OpType) (s : Bytes) (n : Int64) :
    ShowsValue { aux with opType := some t, string := s, int64 := n } v := by
  cases v with
  | int n => cases hv
  | string s => cases hv
  | _ => exact h

/-! ### Lists -/

theorem shows_push (h : aux.Shows cell) (left : Bool) (values : List Bytes) :
    Shows { aux with opType := some .list, list := Cell.pushed left values aux.list }
      (if values = [] then cell else (Cell.push left values cell).1) := by
  by_cases hnil : values = []
  · subst hnil
    have hsame : Cell.pushed left [] aux.list = aux.list := by cases left <;> simp [Cell.pushed]
    rw [if_pos rfl, hsame]
    cases cell with
    | none => exact ⟨h.list, h.hash, h.uset, h.string, h.int64, .inr (.inl rfl)⟩
    | some v => cases v <;> exact h
  · rw [if_neg hnil]
    cases cell with
    | none => exact congrArg (Cell.pushed left values) (Blank.list h)
    | some v =>
        cases hv : v.asList with
        | none =>
            rw [show (Cell.push left values (some v)).1 = some v by
              simp [Cell.push, Cell.createOnCell, hv]]
            exact ShowsValue.list h hv _
        | some l =>
            cases v with
            | list l => exact congrArg (Cell.pushed left values) (show aux.list = l from h)
            | _ => cases hv

theorem shows_pop (h : aux.Shows cell) (hne : aux.list ≠ []) (left : Bool) :
    Shows { aux with opType := some .list, list := (ListObject.afterPop aux.list left).1 }
      (Cell.pop left cell).1 := by
  cases cell with
  | none => exact absurd (Blank.list h) hne
  | some v =>
      cases hv : v.asList with
      | none =>
          rw [show (Cell.pop left (some v)).1 = some v by simp [Cell.pop, Cell.onCell, hv]]
          exact ShowsValue.list h hv _
      | some l =>
          cases v with
          | list l =>
              exact congrArg (fun l => (ListObject.afterPop l left).1) (show aux.list = l from h)
          | _ => cases hv

theorem shows_setIndex (h : aux.Shows cell) {idx : Int} (hidx : 0 ≤ idx)
    (hlt : idx.toNat < aux.list.length) (value : Bytes) :
    Shows { aux with opType := some .list, list := aux.list.set idx.toNat value }
      (Cell.setIndex idx value cell).1 := by
  cases cell with
  | none =>
      rw [Blank.list h] at hlt
      exact absurd hlt (Nat.not_lt_zero _)
  | some v =>
      cases hv : v.asList with
      | none =>
          rw [show (Cell.setIndex idx value (some v)).1 = some v by simp [Cell.setIndex, hv]]
          exact ShowsValue.list h hv _
      | some l =>
          cases v with
          | list l =>
              obtain rfl : aux.list = l := h
              have hnorm : KVContainer.normIndex idx aux.list.length = idx := by
                rw [KVContainer.normIndex, if_neg (by omega)]
              simp only [Cell.setIndex, Value.asList, hnorm]
              rw [if_neg (by omega), if_pos hlt]
              exact rfl
          | _ => cases hv

/-! ### Numbers and strings -/

theorem shows_append (h : aux.Shows cell) (value : Bytes) :
    Shows { aux with opType := some .string, string := aux.string ++ value }
      (Cell.append value cell).1 := by
  cases cell with
  | none =>
      show aux.string ++ value = value
      rw [Blank.string h, List.nil_append]
  | some v =>
      cases v with
      | int n => exact congrArg (· ++ value) (show aux.string = intToString n.toInt from h)
      | string s => exact congrArg (· ++ value) (show aux.string = s from h)
      | _ => exact h

theorem shows_counted (h : aux.Shows cell) {change : Int64} {bad : Int64 → Bool}
    (hok : cell.isText = true → (Cell.addInt change bad cell).2 = .ok) :
    (aux.counted change).Shows (Cell.addInt change bad cell).1 := by
  cases cell with
  | none =>
      have hempty : canConvertToInt64 [] = none := rfl
      show (aux.counted change).string = intToString change.toInt
      simp [counted, Blank.string h, Blank.int64 h, hempty]
  | some v =>
      cases v with
      | int n =>
          have hn : canConvertToInt64 aux.string = some n :=
            canConvertToInt64_eq_some.mpr (show aux.string = intToString n.toInt from h)
          have hbad : bad n = false := by
            by_contra hbad
            rw [Bool.not_eq_false] at hbad
            have hcode := hok rfl
            simp [Cell.addInt, Value.asInt, hbad] at hcode
          simp only [Cell.addInt, Value.asInt, hbad]
          show (aux.counted change).string = intToString (n + change).toInt
          simp [counted, hn]
      | string s => cases hok rfl
      | list l => exact h
      | hash m => exact h
      | set m => exact h

/-! ### Dictionaries and sets -/

/-- The loop of `hset` as updates of a map. -/
theorem foldl_setPairs (fvs : List (Bytes × Bytes)) : ∀ (hash : List (Bytes × Bytes))
    (m : Bytes → Option Bytes), (keys hash).Nodup → (∀ k, AssocList.find? k hash = m k) →
      (keys (fvs.foldl (fun m e => e :: erase e.1 m) hash)).Nodup ∧
        ∀ k, AssocList.find? k (fvs.foldl (fun m e => e :: erase e.1 m) hash)
          = Cell.updated fvs m k := by
  induction fvs with
  | nil => intro hash m hn hm; exact ⟨hn, hm⟩
  | cons e fvs ih =>
    intro hash m hn hm
    refine ih (e :: erase e.1 hash) (Function.update m e.1 (some e.2)) ?_ ?_
    · rw [keys_cons, List.nodup_cons]
      refine ⟨find?_eq_none.mp ?_, nodup_erase hn⟩
      rw [find?_erase hn, if_pos rfl]
    · intro k
      rw [find?_cons, find?_erase hn, Function.update_apply]
      by_cases hk : e.1 = k
      · simp [hk]
      · simp [hk, Ne.symm hk, hm k]

/-- The loop of `hdel`. -/
theorem foldl_erase_fields (fields : List Bytes) : ∀ (hash : List (Bytes × Bytes))
    (m : Bytes → Option Bytes), (keys hash).Nodup → (∀ k, AssocList.find? k hash = m k) →
      (keys (fields.foldl (fun m field => erase field m) hash)).Nodup ∧
        ∀ k, AssocList.find? k (fields.foldl (fun m field => erase field m) hash)
          = Cell.without fields m k := by
  induction fields with
  | nil => intro hash m hn hm; exact ⟨hn, by simpa [Cell.without] using hm⟩
  | cons field fields ih =>
    intro hash m hn hm
    obtain ⟨hn', hm'⟩ := ih (erase field hash) (Cell.without [field] m) (nodup_erase hn) (by
      intro k
      rw [find?_erase hn, hm k]
      simp [Cell.without])
    refine ⟨hn', fun k => (hm' k).trans ?_⟩
    by_cases h1 : k ∈ fields
    · simp [Cell.without, h1]
    · simp [Cell.without, h1]

/-- The loop of `sadd`. -/
theorem foldl_insert_members (members : List Bytes) : ∀ (uset : List Bytes), uset.Nodup →
    (members.foldl (fun m member => m.insert member) uset).Nodup ∧
      ∀ x, x ∈ members.foldl (fun m member => m.insert member) uset ↔ x ∈ members ∨ x ∈ uset := by
  induction members with
  | nil => intro uset hn; exact ⟨hn, by simp⟩
  | cons member members ih =>
    intro uset hn
    obtain ⟨hn', hm'⟩ := ih (uset.insert member) hn.insert
    refine ⟨hn', fun x => (hm' x).trans ?_⟩
    rw [List.mem_insert_iff, List.mem_cons]
    tauto

/-- The loop of `srem`. -/
theorem foldl_erase_members (members : List Bytes) : ∀ (uset : List Bytes), uset.Nodup →
    (members.foldl (fun m member => m.erase member) uset).Nodup ∧
      ∀ x, x ∈ members.foldl (fun m member => m.erase member) uset ↔ x ∉ members ∧ x ∈ uset := by
  induction members with
  | nil => intro uset hn; exact ⟨hn, by simp⟩
  | cons member members ih =>
    intro uset hn
    obtain ⟨hn', hm'⟩ := ih (uset.erase member) (hn.erase member)
    refine ⟨hn', fun x => (hm' x).trans ?_⟩
    rw [hn.mem_erase_iff, List.mem_cons]
    tauto

/-- The two containers without order hold every key once. -/
structure Ok (aux : Aux) : Prop where
  hash : (keys aux.hash).Nodup
  uset : aux.uset.Nodup

theorem ok_new : new.Ok := ⟨List.nodup_nil, List.nodup_nil⟩

theorem shows_hset (hok : aux.Ok) (h : aux.Shows cell) (fvs : List (Bytes × Bytes)) :
    Shows { aux with
        opType := some .hash, hash := fvs.foldl (fun m e => e :: erase e.1 m) aux.hash }
      (if fvs = [] then cell else (Cell.updateFields fvs cell).1) := by
  by_cases hnil : fvs = []
  · subst hnil
    rw [if_pos rfl]
    cases cell with
    | none => exact ⟨h.list, h.hash, h.uset, h.string, h.int64, .inr (.inr (.inl rfl))⟩
    | some v => cases v <;> exact h
  · rw [if_neg hnil]
    cases cell with
    | none =>
        refine (foldl_setPairs fvs aux.hash (fun _ => none) hok.hash fun k => ?_).2
        rw [Blank.hash h, find?_nil]
    | some v =>
        cases hv : v.asHash with
        | none =>
            rw [show (Cell.updateFields fvs (some v)).1 = some v by
              simp [Cell.updateFields, Cell.createOnCell, hv]]
            exact ShowsValue.hash h hv _
        | some m =>
            cases v with
            | hash m => exact (foldl_setPairs fvs aux.hash m hok.hash h).2
            | _ => cases hv

theorem shows_hdel (hok : aux.Ok) (h : aux.Shows cell) (fields : List Bytes) :
    Shows { aux with
        opType := some .hash, hash := fields.foldl (fun m field => erase field m) aux.hash }
      (if fields = [] then cell else (Cell.deleteFields fields cell).1) := by
  cases cell with
  | none =>
      have hnil : fields.foldl (fun m field => erase field m) aux.hash = [] := by
        rw [Blank.hash h]
        clear h
        induction fields with
        | nil => rfl
        | cons field fields ih => exact ih
      rw [show (Cell.deleteFields fields none).1 = none from rfl, ite_self, hnil]
      exact ⟨h.list, rfl, h.uset, h.string, h.int64, .inr (.inr (.inl rfl))⟩
  | some v =>
      by_cases hempty : fields = []
      · subst hempty
        rw [if_pos rfl]
        cases v <;> exact h
      · rw [if_neg hempty]
        cases hv : v.asHash with
        | none =>
            rw [show (Cell.deleteFields fields (some v)).1 = some v by
              simp [Cell.deleteFields, Cell.onCell, hv]]
            exact ShowsValue.hash h hv _
        | some m =>
            cases v with
            | hash m => exact (foldl_erase_fields fields aux.hash m hok.hash h).2
            | _ => cases hv

theorem shows_sadd (hok : aux.Ok) (h : aux.Shows cell) (members : List Bytes) :
    Shows { aux with
        opType := some .set, uset := members.foldl (fun m member => m.insert member) aux.uset }
      (if members = [] then cell else (Cell.addMembers members cell).1) := by
  have hmem := (foldl_insert_members members aux.uset hok.uset).2
  by_cases hnil : members = []
  · subst hnil
    rw [if_pos rfl]
    cases cell with
    | none => exact ⟨h.list, h.hash, h.uset, h.string, h.int64, .inr (.inr (.inr rfl))⟩
    | some v => cases v <;> exact h
  · rw [if_neg hnil]
    cases cell with
    | none =>
        intro x
        have hx : x ∈ members.foldl (fun m member => m.insert member) aux.uset ↔ x ∈ members := by
          rw [hmem, Blank.uset h]
          simp
        exact (decide_eq_decide.mpr hx).trans (Bool.or_false _).symm
    | some v =>
        cases hv : v.asSet with
        | none =>
            rw [show (Cell.addMembers members (some v)).1 = some v by
              simp [Cell.addMembers, Cell.createOnCell, hv]]
            exact ShowsValue.uset h hv _
        | some m =>
            cases v with
            | set m =>
                intro x
                rw [decide_eq_decide.mpr (hmem x), Bool.decide_or, (h : ∀ x, _ = m x) x]
            | _ => cases hv

theorem shows_srem (hok : aux.Ok) (h : aux.Shows cell) (members : List Bytes) :
    Shows { aux with
        opType := some .set, uset := members.foldl (fun m member => m.erase member) aux.uset }
      (if members = [] then cell else (Cell.removeMembers members cell).1) := by
  have hmem := (foldl_erase_members members aux.uset hok.uset).2
  cases cell with
  | none =>
      have hnil : members.foldl (fun m member => m.erase member) aux.uset = [] := by
        rw [Blank.uset h]
        clear h hmem
        induction members with
        | nil => rfl
        | cons member members ih => exact ih
      rw [show (Cell.removeMembers members none).1 = none from rfl, ite_self, hnil]
      exact ⟨h.list, h.hash, rfl, h.string, h.int64, .inr (.inr (.inr rfl))⟩
  | some v =>
      by_cases hempty : members = []
      · subst hempty
        rw [if_pos rfl]
        cases v <;> exact h
      · rw [if_neg hempty]
        cases hv : v.asSet with
        | none =>
            rw [show (Cell.removeMembers members (some v)).1 = some v by
              simp [Cell.removeMembers, Cell.onCell, hv]]
            exact ShowsValue.uset h hv _
        | some m =>
            cases v with
            | set m =>
                intro x
                rw [decide_eq_decide.mpr (hmem x), Bool.decide_and, (h : ∀ x, _ = m x) x]
            | _ => cases hv

end

end Aux

/-! ## The second pass against the store -/

namespace Aux

/-- The containers show the content of the key, and nothing was appended. -/
structure Simulates (aux : Aux) (cell : Cell) : Prop where
  ok : aux.Ok
  shows : aux.Shows cell
  appended : aux.appended = []

theorem simulates_new : new.Simulates none := ⟨ok_new, blank_new, rfl⟩

section

variable {aux : Aux} {cell : Cell}

/-- A command that counts, on a store that lets it. -/
theorem Simulates.counted (h : aux.Simulates cell) {change : Int64} {bad : Int64 → Bool}
    (hok : cell.isText = true → (Cell.addInt change bad cell).2 = .ok) :
    (aux.counted change).Simulates (Cell.addInt change bad cell).1 :=
  ⟨⟨h.ok.hash, h.ok.uset⟩, shows_counted h.shows hok, h.appended⟩

/-- The condition on counting commands, for an operation that is logged when it
succeeds. -/
theorem code_of_agrees {r : Cell × ErrCode} {b : Bool} (hs : b = (Cell.logged r).2)
    (h : (!cell.isText || b) = true) (ht : cell.isText = true) : r.2 = .ok := by
  rw [ht, Bool.not_true, Bool.false_or, hs] at h
  exact eq_of_beq h

/-! One entry that is not a `set` alone, by its opcode. -/

variable {aux' : Aux} {alone : Bool} {key : Bytes}

theorem simulates_set {value : Bytes} (h : aux.Simulates cell)
    (hstep : aux.step false (LogEntry.set key value).argv = .ok aux') :
    aux'.Simulates (cellAfter cell (LogEntry.set key value).argv) := by
  rw [step_set] at hstep
  cases hstep
  rw [cellAfter_entry]
  refine ⟨⟨h.ok.hash, h.ok.uset⟩, ?_, h.appended⟩
  show ShowsValue _ (Value.ofText value)
  unfold Value.ofText
  cases hv : canConvertToInt64 value with
  | none => exact rfl
  | some n => exact canConvertToInt64_eq_some.mp hv

theorem simulates_incr (h : aux.Simulates cell)
    (hagree : agrees cell (LogEntry.incr key).argv = true)
    (hstep : aux.step alone (LogEntry.incr key).argv = .ok aux') :
    aux'.Simulates (cellAfter cell (LogEntry.incr key).argv) := by
  rw [step_incr] at hstep
  cases hstep
  rw [agrees, LogEntry.arg_zero, Opcode.ofBytes_name] at hagree
  rw [cellAfter_entry]
  exact h.counted fun ht => code_of_agrees (succeeds_name cell .incr [key]) hagree ht

theorem simulates_decr (h : aux.Simulates cell)
    (hagree : agrees cell (LogEntry.decr key).argv = true)
    (hstep : aux.step alone (LogEntry.decr key).argv = .ok aux') :
    aux'.Simulates (cellAfter cell (LogEntry.decr key).argv) := by
  rw [step_decr] at hstep
  cases hstep
  rw [agrees, LogEntry.arg_zero, Opcode.ofBytes_name] at hagree
  rw [cellAfter_entry]
  exact h.counted fun ht => code_of_agrees (succeeds_name cell .decr [key]) hagree ht

theorem simulates_incrby {n : Int64} {hn : 0 ≤ n.toInt} (h : aux.Simulates cell)
    (hagree : agrees cell (LogEntry.incrby key n hn).argv = true)
    (hstep : aux.step alone (LogEntry.incrby key n hn).argv = .ok aux') :
    aux'.Simulates (cellAfter cell (LogEntry.incrby key n hn).argv) := by
  rw [step_incrby] at hstep
  cases hstep
  rw [agrees, LogEntry.arg_zero, Opcode.ofBytes_name] at hagree
  rw [cellAfter_entry]
  have hcode := congrArg Prod.snd (Cell.byNumber_intToString Cell.incrBy hn cell)
  exact h.counted fun ht => code_of_agrees
    ((succeeds_name cell .incrby [key, intToString n.toInt]).trans hcode) hagree ht

theorem simulates_decrby {n : Int64} {hn : 0 ≤ n.toInt} (h : aux.Simulates cell)
    (hagree : agrees cell (LogEntry.decrby key n hn).argv = true)
    (hstep : aux.step alone (LogEntry.decrby key n hn).argv = .ok aux') :
    aux'.Simulates (cellAfter cell (LogEntry.decrby key n hn).argv) := by
  rw [step_decrby] at hstep
  cases hstep
  rw [agrees, LogEntry.arg_zero, Opcode.ofBytes_name] at hagree
  rw [cellAfter_entry]
  have hcode := congrArg Prod.snd (Cell.byNumber_intToString Cell.decrBy hn cell)
  exact h.counted fun ht => code_of_agrees
    ((succeeds_name cell .decrby [key, intToString n.toInt]).trans hcode) hagree ht

theorem simulates_append {value : Bytes} (h : aux.Simulates cell)
    (hstep : aux.step alone (LogEntry.append key value).argv = .ok aux') :
    aux'.Simulates (cellAfter cell (LogEntry.append key value).argv) := by
  rw [step_append] at hstep
  cases hstep
  rw [cellAfter_entry]
  exact ⟨⟨h.ok.hash, h.ok.uset⟩, shows_append h.shows value, h.appended⟩

theorem simulates_lpush {values : List Bytes} (h : aux.Simulates cell)
    (hstep : aux.step alone (LogEntry.lpush key values).argv = .ok aux') :
    aux'.Simulates (cellAfter cell (LogEntry.lpush key values).argv) := by
  rw [step_lpush] at hstep
  cases hstep
  rw [cellAfter_entry]
  exact ⟨⟨h.ok.hash, h.ok.uset⟩, shows_push h.shows true values, h.appended⟩

theorem simulates_rpush {values : List Bytes} (h : aux.Simulates cell)
    (hstep : aux.step alone (LogEntry.rpush key values).argv = .ok aux') :
    aux'.Simulates (cellAfter cell (LogEntry.rpush key values).argv) := by
  rw [step_rpush] at hstep
  cases hstep
  rw [cellAfter_entry]
  exact ⟨⟨h.ok.hash, h.ok.uset⟩, shows_push h.shows false values, h.appended⟩

theorem simulates_lpop (h : aux.Simulates cell)
    (hstep : aux.step alone (LogEntry.lpop key).argv = .ok aux') :
    aux'.Simulates (cellAfter cell (LogEntry.lpop key).argv) := by
  rw [step_lpop] at hstep
  rw [cellAfter_entry]
  split at hstep
  · cases hstep
  · rename_i hne
    cases hstep
    exact ⟨⟨h.ok.hash, h.ok.uset⟩, shows_pop h.shows (by simpa using hne) true, h.appended⟩

theorem simulates_rpop (h : aux.Simulates cell)
    (hstep : aux.step alone (LogEntry.rpop key).argv = .ok aux') :
    aux'.Simulates (cellAfter cell (LogEntry.rpop key).argv) := by
  rw [step_rpop] at hstep
  rw [cellAfter_entry]
  split at hstep
  · cases hstep
  · rename_i hne
    cases hstep
    exact ⟨⟨h.ok.hash, h.ok.uset⟩, shows_pop h.shows (by simpa using hne) false, h.appended⟩

/-- The rewriter reads the index as a `size_t`. -/
theorem simulates_lsetindex {idx : Int} {fits : -2 ^ 31 ≤ idx ∧ idx < 2 ^ 31} {value : Bytes}
    (h : aux.Simulates cell)
    (hagree : agrees cell (LogEntry.lsetindex key idx fits value).argv = true)
    (hstep : aux.step alone (LogEntry.lsetindex key idx fits value).argv = .ok aux') :
    aux'.Simulates (cellAfter cell (LogEntry.lsetindex key idx fits value).argv) := by
  have hidx : canConvertToInt32 (arg (LogEntry.lsetindex key idx fits value).argv 2) = some idx :=
    canConvertToInt32_eq_some.mpr ⟨fits, rfl⟩
  rw [agrees, LogEntry.arg_zero, Opcode.ofBytes_name] at hagree
  dsimp only [LogEntry.opcode] at hagree
  rw [hidx] at hagree
  have hge : 0 ≤ idx := of_decide_eq_true hagree
  have hmod : (idx % 2 ^ 64).toNat = idx.toNat := by
    rw [Int.emod_eq_of_lt hge (by omega)]
  rw [step_lsetindex, hmod] at hstep
  rw [cellAfter_entry]
  split at hstep
  · rename_i hlt
    cases hstep
    exact ⟨⟨h.ok.hash, h.ok.uset⟩, shows_setIndex h.shows hge hlt value, h.appended⟩
  · cases hstep

theorem simulates_hset {fvs : List (Bytes × Bytes)} (h : aux.Simulates cell)
    (hstep : aux.step alone (LogEntry.hset key fvs).argv = .ok aux') :
    aux'.Simulates (cellAfter cell (LogEntry.hset key fvs).argv) := by
  rw [step_hset] at hstep
  cases hstep
  rw [cellAfter_entry]
  exact ⟨⟨(foldl_setPairs fvs _ _ h.ok.hash fun _ => rfl).1, h.ok.uset⟩,
    shows_hset h.ok h.shows fvs, h.appended⟩

theorem simulates_hdel {fields : List Bytes} (h : aux.Simulates cell)
    (hstep : aux.step alone (LogEntry.hdel key fields).argv = .ok aux') :
    aux'.Simulates (cellAfter cell (LogEntry.hdel key fields).argv) := by
  rw [step_hdel] at hstep
  cases hstep
  rw [cellAfter_entry]
  exact ⟨⟨(foldl_erase_fields fields _ _ h.ok.hash fun _ => rfl).1, h.ok.uset⟩,
    shows_hdel h.ok h.shows fields, h.appended⟩

theorem simulates_sadd {members : List Bytes} (h : aux.Simulates cell)
    (hstep : aux.step alone (LogEntry.sadd key members).argv = .ok aux') :
    aux'.Simulates (cellAfter cell (LogEntry.sadd key members).argv) := by
  rw [step_sadd] at hstep
  cases hstep
  rw [cellAfter_entry]
  exact ⟨⟨h.ok.hash, (foldl_insert_members members _ h.ok.uset).1⟩,
    shows_sadd h.ok h.shows members, h.appended⟩

theorem simulates_srem {members : List Bytes} (h : aux.Simulates cell)
    (hstep : aux.step alone (LogEntry.srem key members).argv = .ok aux') :
    aux'.Simulates (cellAfter cell (LogEntry.srem key members).argv) := by
  rw [step_srem] at hstep
  cases hstep
  rw [cellAfter_entry]
  exact ⟨⟨h.ok.hash, (foldl_erase_members members _ h.ok.uset).1⟩,
    shows_srem h.ok h.shows members, h.appended⟩

/-- One entry that is not a `set` alone. -/
theorem step_simulates (h : aux.Simulates cell) {e : LogEntry}
    (hagree : agrees cell e.argv = true) (halone : alone = true → OpType.of e.argv ≠ some .other)
    (hstep : aux.step alone e.argv = .ok aux') : aux'.Simulates (cellAfter cell e.argv) := by
  cases e with
  | del keys => cases hstep
  | expireat key sec => cases hstep
  | set key value =>
      cases alone with
      | true => exact absurd (OpType.of_entry _) (halone rfl)
      | false => exact simulates_set h hstep
  | incr key => exact simulates_incr h hagree hstep
  | decr key => exact simulates_decr h hagree hstep
  | incrby key n hn => exact simulates_incrby h hagree hstep
  | decrby key n hn => exact simulates_decrby h hagree hstep
  | append key value => exact simulates_append h hstep
  | lpush key values => exact simulates_lpush h hstep
  | rpush key values => exact simulates_rpush h hstep
  | lpop key => exact simulates_lpop h hstep
  | rpop key => exact simulates_rpop h hstep
  | lsetindex key idx fits value => exact simulates_lsetindex h hagree hstep
  | hset key fvs => exact simulates_hset h hstep
  | hdel key fields => exact simulates_hdel h hstep
  | sadd key members => exact simulates_sadd h hstep
  | srem key members => exact simulates_srem h hstep

end

/-- The end of the second pass over a queue. -/
def Finished (aux : Aux) (sequential : List (List Bytes)) (cell : Cell) : Prop :=
  aux.opType = sequential.getLast?.bind OpType.of ∧
    ((aux.opType ≠ some .other ∧ aux.Simulates cell) ∨
      (aux.opType = some .other ∧ ∃ key value, (LogEntry.set key value).argv ∈ sequential ∧
        aux.appended = [(LogEntry.set key value).argv] ∧ cell = some (.ofText value)))

theorem step_opType {aux aux' : Aux} {alone : Bool} {e : LogEntry}
    (hstep : aux.step alone e.argv = .ok aux') :
    aux'.opType = OpType.of e.argv ∧ aux'.opType.isSome := by
  rcases aux.step_result alone e with ⟨-, aux₁, h₁, -, ht⟩ | ⟨-, f, h₁⟩
  · rw [hstep] at h₁
    cases h₁
    exact ht
  · rw [hstep] at h₁
    cases h₁

/-- The last command of the queue. -/
theorem step_finished {aux aux' : Aux} {cell : Cell} (h : aux.Simulates cell) {e : LogEntry}
    (hagree : agrees cell e.argv = true) (hstep : aux.step true e.argv = .ok aux') :
    aux'.Finished [e.argv] (cellAfter cell e.argv) := by
  obtain ⟨htype, -⟩ := step_opType hstep
  refine ⟨htype, ?_⟩
  by_cases hother : OpType.of e.argv = some .other
  · refine .inr ⟨htype.trans hother, ?_⟩
    rw [cellAfter_entry]
    have hof := (OpType.of_entry e).symm.trans hother
    cases e with
    | set key value =>
        rw [step_set, if_pos rfl] at hstep
        cases hstep
        exact ⟨key, value, List.mem_singleton_self _, by rw [h.appended]; rfl, rfl⟩
    | _ => cases hof
  · exact .inl ⟨fun ht => hother (htype.symm.trans ht),
      step_simulates h hagree (fun _ => hother) hstep⟩

/-- The second pass keeps up with the store. -/
theorem simulate_finished : ∀ (sequential : List (List Bytes)) (aux aux' : Aux) (cell : Cell),
    sequential ≠ [] → (∀ c ∈ sequential, Loggable c) → aux.Simulates cell →
    Guarded cellAfter (fun cell c => agrees cell c = true) cell sequential →
    aux.simulate sequential = .ok aux' → aux'.Finished sequential (sequential.foldl cellAfter cell)
  | [], _, _, _, hne, _, _, _, _ => absurd rfl hne
  | [c], aux, aux', cell, _, hl, hs, hg, h => by
      obtain ⟨e, rfl⟩ := hl c List.mem_cons_self
      cases hstep : aux.step true e.argv with
      | error f =>
          rw [simulate, List.isEmpty_nil, hstep] at h
          cases h
      | ok aux₁ =>
          rw [simulate, List.isEmpty_nil, hstep] at h
          cases h
          exact step_finished hs hg.1 hstep
  | c :: d :: rest, aux, aux', cell, _, hl, hs, hg, h => by
      obtain ⟨e, rfl⟩ := hl c List.mem_cons_self
      cases hstep : aux.step false e.argv with
      | error f =>
          rw [simulate, List.isEmpty_cons, hstep] at h
          cases h
      | ok aux₁ =>
          rw [simulate, List.isEmpty_cons, hstep, ok_bind] at h
          have hs₁ := step_simulates hs hg.1 (fun hf => by cases hf) hstep
          obtain ⟨htype, hend⟩ :=
            simulate_finished (d :: rest) aux₁ aux' _ (List.cons_ne_nil d rest)
            (fun c hc => hl c (List.mem_cons_of_mem _ hc)) hs₁ hg.2 h
          refine ⟨by rw [htype, List.getLast?_cons_cons], ?_⟩
          rcases hend with hend | ⟨ht, key, value, hmem, happ, hcell⟩
          · exact .inl hend
          · exact .inr ⟨ht, key, value, List.mem_cons_of_mem _ hmem, happ, hcell⟩

end Aux

/-! ## What is written for a key -/

/-- The command written for a key whose last command left `op_type` gives this
value back. -/
def Value.Restorable (opType : Option OpType) : Value → Prop
  | .int _ => opType = some .string ∨ opType = some .integer ∨ opType = some .other
  | .string s => (opType = some .string ∨ opType = some .integer ∨ opType = some .other) ∧
      canConvertToInt64 s = none
  | .list l => opType = some .list ∧ l ≠ []
  | .hash m => opType = some .hash ∧ ∃ field, m field ≠ none
  | .set m => opType = some .set ∧ ∃ member, m member = true

theorem ofText_intToString (n : Int64) : Value.ofText (intToString n.toInt) = .int n := by
  rw [Value.ofText, canConvertToInt64_eq_some.mpr rfl]

theorem ofText_isText (value : Bytes) : Cell.isText (some (Value.ofText value)) = true := by
  unfold Value.ofText
  split <;> rfl

theorem ofText_restorable (value : Bytes) : (Value.ofText value).Restorable (some .other) := by
  unfold Value.ofText
  cases hv : canConvertToInt64 value with
  | none => exact ⟨.inr (.inr rfl), hv⟩
  | some n => exact .inr (.inr rfl)

section

variable {aux : Aux} {cell : Cell} (hs : aux.Simulates cell) (key : Bytes)

include hs

theorem restored_list (ht : aux.opType = some .list) :
    cellAfter none (LogEntry.rpush key aux.list).argv = cell ↔
      ∀ v, cell = some v → v.Restorable aux.opType := by
  rw [cellAfter_entry, ht]
  have hshows := hs.shows
  cases cell with
  | none =>
      have hnil : aux.list = [] := Aux.Blank.list hshows
      simp [hnil]
  | some v =>
      cases v with
      | list l =>
          obtain rfl : aux.list = l := hshows
          by_cases hnil : aux.list = []
          · simp [hnil, Value.Restorable]
          · simp [hnil, Value.Restorable, Cell.push, Cell.createOnCell, Cell.pushed]
      | _ =>
          by_cases hnil : aux.list = []
          · simp [hnil, Value.Restorable]
          · simp [hnil, Value.Restorable, Cell.push, Cell.createOnCell]

theorem restored_hash (ht : aux.opType = some .hash) {entries : List (Bytes × Bytes)}
    (hp : entries.Perm aux.hash) :
    cellAfter none (LogEntry.hset key entries).argv = cell ↔
      ∀ v, cell = some v → v.Restorable aux.opType := by
  have hnil : entries = [] ↔ aux.hash = [] :=
    ⟨fun h => (h ▸ hp).nil_eq.symm, fun h => (h ▸ hp).eq_nil⟩
  have hkeys : (keys entries).Nodup := (hp.map Prod.fst).nodup_iff.mpr hs.ok.hash
  have hmap : Cell.updated entries (fun _ => none) = fun k => AssocList.find? k aux.hash := by
    rw [updated_eq_find? _ _ hkeys]
    funext k
    rw [Option.or_none, find?_perm hp hkeys]
  rw [cellAfter_entry, ht]
  have hshows := hs.shows
  cases cell with
  | none =>
      have hempty := hnil.mpr (Aux.Blank.hash hshows)
      simp [hempty]
  | some v =>
      cases v with
      | hash m =>
          obtain rfl : (fun k => AssocList.find? k aux.hash) = m := funext hshows
          by_cases hempty : entries = []
          · simp [hempty, hnil.mp hempty, Value.Restorable]
          · have hex : ∃ k, AssocList.find? k aux.hash ≠ none := by
              obtain ⟨e, he⟩ := List.exists_mem_of_ne_nil _ fun h => hempty (hnil.mpr h)
              exact ⟨e.1, by rw [find?_of_mem hs.ok.hash he]; simp⟩
            simp [hempty, Value.Restorable, Cell.updateFields, Cell.createOnCell, hmap, hex]
      | _ =>
          by_cases hempty : entries = []
          · simp [hempty, Value.Restorable]
          · simp [hempty, Value.Restorable, Cell.updateFields, Cell.createOnCell]

theorem restored_set (ht : aux.opType = some .set) {members : List Bytes}
    (hp : members.Perm aux.uset) :
    cellAfter none (LogEntry.sadd key members).argv = cell ↔
      ∀ v, cell = some v → v.Restorable aux.opType := by
  have hnil : members = [] ↔ aux.uset = [] :=
    ⟨fun h => (h ▸ hp).nil_eq.symm, fun h => (h ▸ hp).eq_nil⟩
  have hmap : (fun k => decide (k ∈ members) || (fun _ => false) k)
      = fun k => decide (k ∈ aux.uset) := by
    funext k
    rw [Bool.or_false]
    exact decide_eq_decide.mpr hp.mem_iff
  rw [cellAfter_entry, ht]
  have hshows := hs.shows
  cases cell with
  | none =>
      have hempty := hnil.mpr (Aux.Blank.uset hshows)
      simp [hempty]
  | some v =>
      cases v with
      | set m =>
          obtain rfl : (fun k => decide (k ∈ aux.uset)) = m := funext hshows
          by_cases hempty : members = []
          · simp [hempty, hnil.mp hempty, Value.Restorable]
          · have hex : ∃ k, k ∈ aux.uset :=
              List.exists_mem_of_ne_nil _ fun h => hempty (hnil.mpr h)
            simp only [hempty, if_false, Cell.addMembers, Cell.createOnCell, hmap, true_iff]
            rintro v ⟨rfl⟩
            exact ⟨rfl, hex.imp fun k hk => decide_eq_true hk⟩
      | _ =>
          by_cases hempty : members = []
          · simp [hempty, Value.Restorable]
          · simp [hempty, Value.Restorable, Cell.addMembers, Cell.createOnCell]

theorem restored_text (ht : aux.opType = some .string ∨ aux.opType = some .integer) :
    cellAfter none (LogEntry.set key aux.string).argv = cell ↔
      ∀ v, cell = some v → v.Restorable aux.opType := by
  rw [cellAfter_entry]
  show some (Value.ofText aux.string) = cell ↔ _
  have hshows := hs.shows
  have htext : aux.opType = some .string ∨ aux.opType = some .integer ∨
      aux.opType = some .other := ht.imp_right .inl
  cases cell with
  | none =>
      exfalso
      have hblank := Aux.Blank.opType hshows
      rcases ht with ht | ht <;> simp [ht] at hblank
  | some v =>
      cases v with
      | int n =>
          have hstr : aux.string = intToString n.toInt := hshows
          rw [hstr, ofText_intToString]
          simp [Value.Restorable, htext]
      | string s =>
          obtain rfl : aux.string = s := hshows
          cases hv : canConvertToInt64 aux.string with
          | none => simp [Value.Restorable, htext, Value.ofText, hv]
          | some n => simp [Value.Restorable, Value.ofText, hv]
      | _ =>
          constructor
          · intro h
            have hv := ofText_isText aux.string
            rw [h] at hv
            cases hv
          · intro h
            have hv := (h _ rfl).1
            rcases ht with ht | ht <;> simp [ht] at hv

end

/-- The value a key has at the end can be written as one command: its last
survivor is of the value's kind, and the value is neither an empty collection
nor a string of digits. -/
def EndsRestorable (now : Nat) (file : List (List Bytes)) (key : Bytes) : Prop :=
  ∀ v, valueOf (survivors now (commandsOn key file)) = some v →
    v.Restorable ((survivors now (commandsOn key file)).getLast?.bind OpType.of)

/-- A command on one key, with the key's own word. -/
def WrittenFor (key : Bytes) (c : List Bytes) : Prop :=
  arg c 1 = key ∧ ∃ op args, Opcode.single op = true ∧ c = op.name :: args

/-- What `restore` gives for the end of a queue. -/
theorem restore_finished {aux : Aux} {sequential : List (List Bytes)} {cell : Cell}
    (h : aux.Finished sequential cell) (order : RewriteOrder) {key : Bytes}
    (hkey : ∀ c ∈ sequential, arg c 1 = key) {cmds : List (List Bytes)}
    (hr : aux.restore order key = .ok cmds) :
    (∀ c ∈ cmds, WrittenFor key c) ∧
      (valueOf cmds = cell ↔ ∀ v, cell = some v → v.Restorable aux.opType) := by
  have hone : ∀ (e : LogEntry), e.opcode.single = true → arg e.argv 1 = key →
      ∀ c ∈ [e.argv], WrittenFor key c := by
    intro e hsingle he c hc
    rw [List.mem_singleton.mp hc]
    exact ⟨he, e.opcode, e.words, hsingle, rfl⟩
  obtain ⟨-, ⟨hne, hs⟩ | ⟨ht, key', value, hmem, happ, hcell⟩⟩ := h
  · unfold Aux.restore at hr
    rw [hs.appended] at hr
    cases ht : aux.opType with
    | none =>
        rw [ht] at hr
        cases hr
    | some t =>
        rw [ht] at hr
        cases t with
        | list =>
            cases hr
            exact ⟨hone (.rpush key aux.list) rfl rfl, ht ▸ restored_list hs key ht⟩
        | hash =>
            cases hr
            exact ⟨hone (.hset key (order.hash key aux.hash)) rfl rfl,
              ht ▸ restored_hash hs key ht (order.hash_perm key aux.hash)⟩
        | set =>
            cases hr
            exact ⟨hone (.sadd key (order.uset key aux.uset)) rfl rfl,
              ht ▸ restored_set hs key ht (order.uset_perm key aux.uset)⟩
        | string =>
            cases hr
            exact ⟨hone (.set key aux.string) rfl rfl, ht ▸ restored_text hs key (.inl ht)⟩
        | integer =>
            cases hr
            exact ⟨hone (.set key aux.string) rfl rfl, ht ▸ restored_text hs key (.inr ht)⟩
        | other => exact absurd ht hne
  · unfold Aux.restore at hr
    rw [ht, happ] at hr
    cases hr
    refine ⟨hone (.set key' value) rfl (hkey _ hmem), ?_⟩
    rw [hcell, ht]
    refine ⟨fun _ v hv => ?_, fun _ => cellAfter_entry none (.set key' value)⟩
    cases hv
    exact ofText_restorable value

/-- What is written for a key gives its value back exactly when that can be
restored. -/
theorem rewriteKey_value {now : Nat} {order : RewriteOrder} {key : Bytes}
    {file : List (List Bytes)} (hl : ∀ c ∈ file, Loggable c)
    (hg : Guarded cellAfter (fun cell c => agrees cell c = true) none
      (survivors now (commandsOn key file)))
    {cmds : List (List Bytes)} (h : rewriteKey now order key (commandsOn key file) = .ok cmds) :
    (∀ c ∈ cmds, WrittenFor key c) ∧
      (valueOf cmds = valueOf (survivors now (commandsOn key file)) ↔
        EndsRestorable now file key) := by
  have hon : ∀ c ∈ commandsOn key file, Loggable c ∧ arg c 1 = key := by
    intro c hc
    obtain ⟨hmem, hk⟩ := List.mem_filter.mp hc
    exact ⟨hl c hmem, of_decide_eq_true hk⟩
  have hsurv : ∀ c ∈ survivors now (commandsOn key file), Loggable c ∧ arg c 1 = key :=
    fun c hc => hon c (survivors_subset now _ hc)
  have hseq := sequentialOf_entries now (commandsOn key file) [] fun c hc => (hon c hc).1
  rw [ite_self, List.nil_append] at hseq
  rw [rewriteKey, hseq, ok_bind] at h
  unfold EndsRestorable
  cases hs : survivors now (commandsOn key file) with
  | nil =>
      rw [hs] at h
      cases h
      refine ⟨fun c hc => absurd hc List.not_mem_nil, fun _ v hv => ?_, fun _ => rfl⟩
      cases hv
  | cons c cs =>
      rw [hs] at h hg hsurv
      rw [List.isEmpty_cons, if_neg Bool.false_ne_true] at h
      cases hsim : Aux.new.simulate (c :: cs) with
      | error f =>
          rw [hsim] at h
          cases h
      | ok aux =>
          rw [hsim, ok_bind] at h
          have hfin := Aux.simulate_finished (c :: cs) .new aux none (List.cons_ne_nil c cs)
            (fun c hc => (hsurv c hc).1) Aux.simulates_new hg hsim
          have hvalue := restore_finished hfin order (fun c hc => (hsurv c hc).2) h
          rw [hfin.1] at hvalue
          exact hvalue

/-! ## The rewritten file -/

/-- What is written for an item of `cache_map`. -/
def written (now : Nat) (order : RewriteOrder) (item : Bytes × List (List Bytes)) :
    List (List Bytes) :=
  match rewriteKey now order item.1 item.2 with
  | .ok cmds => cmds
  | .error _ => []

theorem rewriteKeys_written (now : Nat) (order : RewriteOrder) : ∀ (items : CacheMap)
    (out : List (List Bytes)), rewriteKeys now order items = .ok out →
      (∀ item ∈ items, rewriteKey now order item.1 item.2 = .ok (written now order item)) ∧
        out = items.flatMap (written now order)
  | [], out, h => by
      cases h
      exact ⟨fun item hitem => absurd hitem List.not_mem_nil, rfl⟩
  | item :: items, out, h => by
      cases hk : rewriteKey now order item.1 item.2 with
      | error f =>
          rw [rewriteKeys, hk] at h
          cases h
      | ok cmds =>
          cases hrest : rewriteKeys now order items with
          | error f =>
              rw [rewriteKeys, hk, hrest] at h
              cases h
          | ok rest =>
              rw [rewriteKeys, hk, hrest] at h
              cases h
              obtain ⟨hall, hout⟩ := rewriteKeys_written now order items rest hrest
              have hw : written now order item = cmds := by rw [written, hk]
              refine ⟨?_, by rw [List.flatMap_cons, hw, ← hout]⟩
              rw [List.forall_mem_cons, hw]
              exact ⟨hk, hall⟩

/-- Replaying commands on one key each. -/
theorem replay_singles {rctx : Ctx} (hr : Replays rctx) (cmds : List (List Bytes)) :
    ∀ (t : Engine), t.Ok →
      (∀ c ∈ cmds, ∃ op args, Opcode.single op = true ∧ c = op.name :: args) →
      ∀ κ, (t.replay rctx cmds).holder.view κ
        = (cmds.filter fun c => decide (keyOf c = κ)).foldl cellAfter (t.holder.view κ) := by
  induction cmds with
  | nil => intro t _ _ κ; rfl
  | cons c cmds ih =>
    intro t ht hcmds κ
    obtain ⟨op, args, hop, rfl⟩ := hcmds c List.mem_cons_self
    obtain ⟨hok, hview, -⟩ := replay_single hr ht hop args
    refine (ih _ hok (fun c hc => hcmds c (List.mem_cons_of_mem _ hc)) κ).trans ?_
    rw [hview]
    by_cases hk : keyOf (op.name :: args) = κ
    · subst hk
      rw [Function.update_self, List.filter_cons_of_pos (by simp)]
      rfl
    · rw [Function.update_of_ne (Ne.symm hk), List.filter_cons_of_neg (by simpa using hk)]

/-- Only one item writes anything for a key. -/
theorem flatMap_eq_of_unique {α β : Type} {g : α → List β} {a : α} : ∀ {l : List α}, l.Nodup →
    a ∈ l → (∀ b ∈ l, b ≠ a → g b = []) → l.flatMap g = g a
  | [], _, ha, _ => by cases ha
  | b :: l, hn, ha, hg => by
      rw [List.nodup_cons] at hn
      rw [List.flatMap_cons]
      rcases List.mem_cons.mp ha with rfl | ha
      · have hrest : l.flatMap g = [] := by
          rw [List.flatMap_eq_nil_iff]
          intro b hb
          exact hg b (List.mem_cons_of_mem _ hb) fun heq => hn.1 (heq ▸ hb)
        rw [hrest, List.append_nil]
      · have hb : g b = [] := hg b List.mem_cons_self fun heq => hn.1 (heq ▸ ha)
        rw [hb, List.nil_append]
        exact flatMap_eq_of_unique hn.2 ha fun b hb => hg b (List.mem_cons_of_mem _ hb)

/-- The rewriter and the replay read the file alike: a key has one word, is
emptied for both, and its survivors do the same to both. -/
structure Plain (now : Nat) (file : List (List Bytes)) : Prop where
  distinct : ∀ c ∈ file, ∀ c' ∈ file, keyOf c = keyOf c' → arg c 1 = arg c' 1
  untangled : ∀ c ∈ file, (historyOf now (arg c 1) file).tangled = false
  agree : ∀ c ∈ file, Guarded cellAfter (fun cell c => agrees cell c = true) none
    (survivors now (commandsOn (arg c 1) file))

theorem mem_keys_pushBack {m : CacheMap} {key k : Bytes} {c : List Bytes}
    (h : k ∈ keys (m.pushBack key c)) : k ∈ keys m ∨ k = key := by
  unfold CacheMap.pushBack at h
  split at h
  · rw [keys_append, List.mem_append] at h
    exact h.imp_right fun hk => by simpa using hk
  · rw [keys_reset] at h
    exact .inl h

/-- The keys of the map are words of the file. -/
theorem mem_keys_populateCaches : ∀ (caches : List (List Bytes)) (m m' : CacheMap),
    populateCaches m caches = .ok m' → ∀ k ∈ keys m', k ∈ keys m ∨ ∃ c ∈ caches, arg c 1 = k
  | [], m, m', h, k, hk => by
      cases h
      exact .inl hk
  | c :: caches, m, m', h, k, hk => by
      have hc : 1 < c.length :=
        (populateCaches_iff (c :: caches) m).mp ⟨m', h⟩ c List.mem_cons_self
      simp only [populateCaches, wordAt_of_lt hc, ok_bind] at h
      rcases mem_keys_populateCaches caches _ m' h k hk with hk | ⟨c', hc', hk⟩
      · rcases mem_keys_pushBack hk with hk | rfl
        · exact .inl hk
        · exact .inr ⟨c, List.mem_cons_self, rfl⟩
      · exact .inr ⟨c', List.mem_cons_of_mem _ hc', hk⟩

section

variable {rctx : Ctx} (hr : Replays rctx) (hsec : rctx.nowSec < 2 ^ 63) {order : RewriteOrder}
  {file out : List (List Bytes)} (hl : ∀ c ∈ file, Loggable c)
  (hrun : removeRedundancy rctx.nowSec order file = .ok out) (hp : Plain rctx.nowSec file)

include hl hrun hp

/-- The items of `cache_map` and what is written for them. -/
theorem removeRedundancy_items : ∃ items : CacheMap, (keys items).Nodup ∧
    out = items.flatMap (written rctx.nowSec order) ∧
    (∀ item ∈ items, item.2 = commandsOn item.1 file ∧ ∃ c ∈ file, arg c 1 = item.1) ∧
    (∀ c ∈ file, arg c 1 ∈ keys items) ∧
    ∀ item ∈ items, (∀ c ∈ written rctx.nowSec order item, WrittenFor item.1 c) ∧
      (valueOf (written rctx.nowSec order item)
          = valueOf (survivors rctx.nowSec (commandsOn item.1 file)) ↔
        EndsRestorable rctx.nowSec file item.1) := by
  cases hpop : populateCaches [] file with
  | error f =>
      rw [removeRedundancy, hpop] at hrun
      cases hrun
  | ok m =>
      rw [removeRedundancy, hpop, ok_bind] at hrun
      obtain ⟨hall, hout⟩ := rewriteKeys_written _ _ _ _ hrun
      obtain ⟨hn, hitems, hrest⟩ := populateCaches_items hpop
      have hperm := order.caches_perm m
      have hfrom : ∀ item ∈ order.caches m,
          item.2 = commandsOn item.1 file ∧ ∃ c ∈ file, arg c 1 = item.1 := by
        intro item hitem
        have hmem := hperm.mem_iff.mp hitem
        have hk := mem_keys_populateCaches file [] m hpop item.1 (List.mem_map_of_mem hmem)
        exact ⟨hitems item hmem, hk.resolve_left fun h => by cases h⟩
      refine ⟨order.caches m, (hperm.map Prod.fst).nodup_iff.mpr hn, hout, hfrom, ?_, ?_⟩
      · intro c hc
        by_contra hno
        have hno' : arg c 1 ∉ keys m := fun hk => hno ((hperm.map Prod.fst).mem_iff.mpr hk)
        have hon : c ∈ commandsOn (arg c 1) file := List.mem_filter.mpr ⟨hc, decide_eq_true rfl⟩
        rw [hrest _ hno'] at hon
        cases hon
      · intro item hitem
        obtain ⟨hcmds, c, hc, hkey⟩ := hfrom item hitem
        have hrw := hall item hitem
        rw [hcmds] at hrw
        exact rewriteKey_value hl (hkey ▸ hp.agree c hc) hrw

include hr

/-- Replaying the rewritten file makes of a key what was written for it. -/
theorem replay_rewritten : (∀ c ∈ file,
      (valueOf (survivors rctx.nowSec (commandsOn (arg c 1) file))
          = (Engine.new.replay rctx out).holder.view (keyOf c) ↔
        EndsRestorable rctx.nowSec file (arg c 1))) ∧
    ∀ κ, (∀ c ∈ file, keyOf c ≠ κ) → (Engine.new.replay rctx out).holder.view κ = none := by
  obtain ⟨items, hn, hout, hfrom, hcover, hvalue⟩ := removeRedundancy_items hl hrun hp
  have hsingles : ∀ c ∈ out, ∃ op args, Opcode.single op = true ∧ c = op.name :: args := by
    intro c hc
    rw [hout] at hc
    obtain ⟨item, hitem, hc⟩ := List.mem_flatMap.mp hc
    exact ((hvalue item hitem).1 c hc).2
  have hview := replay_singles hr out .new Engine.ok_new hsingles
  -- what an item writes is on the item's key
  have hkeyOf : ∀ item ∈ items, ∀ c ∈ written rctx.nowSec order item,
      keyOf c = .ofStdString item.1 :=
    fun item hitem c hc => congrArg StaticString.ofStdString ((hvalue item hitem).1 c hc).1
  have hfilter : ∀ item ∈ items, ∀ κ, StaticString.ofStdString item.1 ≠ κ →
      (written rctx.nowSec order item).filter (fun c => decide (keyOf c = κ)) = [] := by
    intro item hitem κ hne
    rw [List.filter_eq_nil_iff]
    intro c hc
    rw [hkeyOf item hitem c hc]
    simpa using hne
  constructor
  · intro c hc
    obtain ⟨item, hitem, hkey⟩ := List.mem_map.mp (hcover c hc)
    have hκ : StaticString.ofStdString item.1 = keyOf c := congrArg StaticString.ofStdString hkey
    have hfil : (out.filter fun c' => decide (keyOf c' = keyOf c))
        = written rctx.nowSec order item := by
      rw [hout, List.filter_flatMap,
        flatMap_eq_of_unique (List.Nodup.of_map Prod.fst hn) hitem]
      · rw [List.filter_eq_self]
        intro c' hc'
        rw [hkeyOf item hitem c' hc', hκ]
        exact decide_eq_true rfl
      · intro item' hitem' hne
        refine hfilter item' hitem' _ fun heq => hne ?_
        obtain ⟨-, c', hc', hk'⟩ := hfrom item' hitem'
        have hsame : arg c' 1 = arg c 1 := by
          refine hp.distinct c' hc' c hc ?_
          rw [← heq, ← hk']
          rfl
        exact List.inj_on_of_nodup_map hn hitem' hitem (by rw [← hk', hsame, ← hkey])
    rw [hview, hfil, ← hkey]
    have hiff := (hvalue item hitem).2
    rw [eq_comm, valueOf] at hiff
    rw [show Engine.new.holder.view (keyOf c) = none from congrFun KVContainer.view_new _]
    exact hiff
  · intro κ hκ
    have hfil : (out.filter fun c' => decide (keyOf c' = κ)) = [] := by
      rw [hout, List.filter_flatMap, List.flatMap_eq_nil_iff]
      intro item hitem
      obtain ⟨-, c, hc, hkey⟩ := hfrom item hitem
      refine hfilter item hitem κ fun heq => hκ c hc ?_
      rw [← heq, ← hkey]
      rfl
    rw [hview, hfil]
    exact congrFun KVContainer.view_new κ

end

/-- A key that no command is on is not there after a replay. -/
theorem replay_absent {rctx : Ctx} (hr : Replays rctx) (hsec : rctx.nowSec < 2 ^ 63) {κ : Key}
    (cmds : List (List Bytes)) : ∀ (t : Engine), t.Ok → t.holder.view κ = none →
      (∀ c ∈ cmds, Loggable c ∧ keyOf c ≠ κ) → (t.replay rctx cmds).holder.view κ = none := by
  induction cmds with
  | nil => intro t _ h _; exact h
  | cons c cmds ih =>
    intro t ht h hcmds
    obtain ⟨⟨e, rfl⟩, hne⟩ := hcmds c List.mem_cons_self
    have hstep : (t.handleCommand rctx e.argv).1.Ok ∧
        (t.handleCommand rctx e.argv).1.holder.view κ = none := by
      have hsingle : e.opcode.single = true → (t.handleCommand rctx e.argv).1.Ok ∧
          (t.handleCommand rctx e.argv).1.holder.view κ = none := by
        intro hs
        obtain ⟨hok, hview, -⟩ := replay_single hr ht hs e.words
        exact ⟨hok, (congrFun hview κ).trans ((Function.update_of_ne (Ne.symm hne) _ _).trans h)⟩
      cases e with
      | del names =>
          obtain ⟨hok, hview, -⟩ := replay_del hr ht names
          refine ⟨hok, (congrFun hview κ).trans ?_⟩
          rw [h, ite_self]
      | expireat key sec =>
          obtain ⟨hok, hview, -⟩ := replay_expireat_entry hr ht hsec key sec
          refine ⟨hok, (congrFun hview κ).trans ?_⟩
          split
          · exact (Function.update_of_ne (Ne.symm hne) _ _).trans h
          · exact h
      | _ => exact hsingle rfl
    exact ih _ hstep.1 hstep.2 fun c hc => hcmds c (List.mem_cons_of_mem _ hc)

theorem removeRedundancy_keyed {now : Nat} {order : RewriteOrder} {file out : List (List Bytes)}
    (h : removeRedundancy now order file = .ok out) : ∀ c ∈ file, 2 ≤ c.length := by
  cases hpop : populateCaches [] file with
  | error f =>
      rw [removeRedundancy, hpop] at h
      cases h
  | ok m => exact (populateCaches_iff file []).mp ⟨m, hpop⟩

/-- Rewriting a plain file that servers wrote keeps what it means exactly when
every key ends with a value that one command can restore. -/
theorem rewriting_preserves_iff {file : List (List Bytes)} (haof : Aof file) (c : Setting)
    (evict : KVContainer.EvictionEnv) (order : RewriteOrder) {out : List (List Bytes)}
    (hrun : removeRedundancy (c.replayCtx evict).nowSec order file = .ok out)
    (hplain : Plain (c.replayCtx evict).nowSec file) :
    (Engine.new.replay (c.replayCtx evict) out).holder.view
        = (Engine.new.replay (c.replayCtx evict) file).holder.view ↔
      ∀ cmd ∈ file, EndsRestorable (c.replayCtx evict).nowSec file (arg cmd 1) := by
  have hr : Replays (c.replayCtx evict) := ⟨rfl, rfl⟩
  have hsec : (c.replayCtx evict).nowSec < 2 ^ 63 := c.nowSec_lt evict
  have hkeyed := removeRedundancy_keyed hrun
  obtain ⟨hwritten, hnone⟩ := replay_rewritten hr haof.entries hrun hplain
  -- at a key of the file, the file means what the survivors make
  have horig : ∀ cmd ∈ file, (Engine.new.replay (c.replayCtx evict) file).holder.view (keyOf cmd)
      = valueOf (survivors (c.replayCtx evict).nowSec (commandsOn (arg cmd 1) file)) := by
    intro cmd hcmd
    have ht := replay_tracks hr hsec file [] .new (tracks_new _ (arg cmd 1)) fun c' hc' =>
      ⟨haof.entries c' hc', hkeyed c' hc', fun heq => hplain.distinct c' hc' cmd hcmd heq⟩
    exact ht.cell (hplain.untangled cmd hcmd)
  constructor
  · intro heq cmd hcmd
    refine (hwritten cmd hcmd).mp ?_
    rw [heq, horig cmd hcmd]
  · intro hends
    funext κ
    by_cases hκ : ∃ cmd ∈ file, keyOf cmd = κ
    · obtain ⟨cmd, hcmd, rfl⟩ := hκ
      rw [horig cmd hcmd]
      exact ((hwritten cmd hcmd).mpr (hends cmd hcmd)).symm
    · have hno : ∀ cmd ∈ file, keyOf cmd ≠ κ := fun cmd hcmd heq => hκ ⟨cmd, hcmd, heq⟩
      rw [hnone κ hno]
      refine (replay_absent hr hsec file .new Engine.ok_new
        (congrFun KVContainer.view_new κ) fun cmd hcmd => ?_).symm
      exact ⟨haof.entries cmd hcmd, hno cmd hcmd⟩

/-- A number that is counted, a list, a key that is deleted and one that has
expired. -/
def plainRun : List Event := commandsAt5s
  [[ascii "set", [97], [57]], [ascii "incr", [97]], [ascii "rpush", [108], [120], [121]],
    [ascii "lpop", [108]], [ascii "set", [98], [49]], [ascii "del", [98]],
    [ascii "rpush", [99], [120]], [ascii "expire", [99], ascii "1"]]

/-- The integer a process holds under a key. -/
def Engine.intAt (s : Engine) (key : Bytes) : Option Int64 :=
  (s.holder.view (.ofStdString key)).bind Value.asInt

/-- A process that has replayed a file six seconds after the epoch. -/
def replayedAt6s (file : List (List Bytes)) : Engine :=
  Engine.new.replay (Setting.replayCtx ⟨6000, .lru, fun _ => []⟩ noDraws) file

theorem rewriting_preserves_plainRun :
    removeRedundancy 6 .asStored (Engine.new.run plainRun).log
        = .ok [[ascii "set", [97], ascii "10"], [ascii "rpush", [108], [121]]] ∧
      (replayedAt6s [[ascii "set", [97], ascii "10"], [ascii "rpush", [108], [121]]]).holder.view
        = (replayedAt6s (Engine.new.run plainRun).log).holder.view := by
  have hrun : removeRedundancy 6 .asStored (Engine.new.run plainRun).log
      = .ok [[ascii "set", [97], ascii "10"], [ascii "rpush", [108], [121]]] := by decide +kernel
  have hplain : Plain 6 (Engine.new.run plainRun).log :=
    ⟨by decide +kernel, by decide +kernel, by decide +kernel⟩
  refine ⟨hrun, (rewriting_preserves_iff (aof_run plainRun) ⟨6000, .lru, fun _ => []⟩ noDraws
    .asStored hrun hplain).mpr ?_⟩
  -- `a` ends as a number that was counted, `l` as a list, `b` and `c` are gone
  have hends : ∀ cmd ∈ (Engine.new.run plainRun).log,
      let s := survivors 6 (commandsOn (arg cmd 1) (Engine.new.run plainRun).log)
      (valueOf s).isNone ∨
        ((valueOf s).bind Value.asInt = some 10 ∧ s.getLast?.bind OpType.of = some .integer) ∨
        ((valueOf s).bind Value.asList = some [[121]] ∧
          s.getLast?.bind OpType.of = some .list) := by
    decide +kernel
  intro cmd hcmd v hv
  rcases hends cmd hcmd with h | ⟨h, ht⟩ | ⟨h, ht⟩
  · rw [show valueOf (survivors 6 _) = some v from hv] at h
    cases h
  · rw [show valueOf (survivors 6 _) = some v from hv] at h
    cases v with
    | int n => exact .inr (.inl ht)
    | _ => cases h
  · rw [show valueOf (survivors 6 _) = some v from hv] at h
    cases v with
    | list l =>
        cases h
        exact ⟨ht, by decide⟩
    | _ => cases h

/-- Five files that mean something else when they are rewritten: a `del` of two
keys, a list that has become empty, digits that were appended, an expiration
that was taken back to now, and a key whose kind has changed when a timer
fired. -/
theorem rewriting_changes_meaning :
    let tangled := (Engine.new.run (commandsAt5s [[ascii "set", [97], [49]],
      [ascii "set", [98], [50]], [ascii "del", [97], [98]]])).log
    let emptied := (Engine.new.run (commandsAt5s [[ascii "rpush", [108], [120]],
      [ascii "lpop", [108]]])).log
    let digits := (Engine.new.run (commandsAt5s [[ascii "append", [116], [49]],
      [ascii "append", [116], [50]]])).log
    let rearmed := (Engine.new.run (commandsAt5s [[ascii "set", [97], [49]],
      [ascii "expire", [97], ascii "100"], [ascii "expire", [97], ascii "0"]])).log
    let mixed := (Engine.new.run (commandsAt5s [[ascii "set", [97], [49]],
      [ascii "expire", [97], ascii "1"], [ascii "append", [97], [120]]] ++
      [.timers 6000 []] ++ commandsAt5s [[ascii "rpush", [97], [121]]])).log
    (removeRedundancy 6 .asStored tangled = .ok [[ascii "set", [98], [50]]] ∧
      (replayedAt6s [[ascii "set", [98], [50]]]).intAt [98] = some 2 ∧
      (replayedAt6s tangled).intAt [98] = none) ∧
    (removeRedundancy 6 .asStored emptied = .ok [[ascii "rpush", [108]]] ∧
      (replayedAt6s [[ascii "rpush", [108]]]).listAt [108] = none ∧
      (replayedAt6s emptied).listAt [108] = some []) ∧
    (removeRedundancy 6 .asStored digits = .ok [[ascii "set", [116], [49, 50]]] ∧
      (replayedAt6s [[ascii "set", [116], [49, 50]]]).intAt [116] = some 12 ∧
      (replayedAt6s digits).intAt [116] = none) ∧
    (removeRedundancy 6 .asStored rearmed = .ok [] ∧
      (replayedAt6s []).intAt [97] = none ∧ (replayedAt6s rearmed).intAt [97] = some 1) ∧
    (removeRedundancy 6 .asStored mixed = .ok [[ascii "rpush", [97], [121]]] ∧
      (replayedAt6s [[ascii "rpush", [97], [121]]]).listAt [97] = some [[121]] ∧
      (replayedAt6s mixed).listAt [97] = none) := by
  decide +kernel

end LiteKV
