/-
LiteKV.Net.DeadlineTheorems — the deadlines `expire` and `expireat` set, and
what `ttl` says of them.

Seconds are multiplied by 1000 and added to the clock in `uint64_t`,
subtracted from it in `int64_t` and printed for the log in `uint64_t`. Each
of these can wrap, and the handlers accept every `int64_t`:
`deadlinesExact_iff` says when none of them does.
-/
import LiteKV.Net.FiringTheorems
import LiteKV.Net.IntegerTheorems
import LiteKV.Net.TimerTheorems

namespace LiteKV

open Lib Lib.AssocList Lib.Run

/-! ## Deadlines -/

/-- The events of a process can all fire, and their ids are distinct. -/
theorem Engine.Paired.valid {s : Engine} (hs : s.Paired) (now : Nat) :
    TimerState.Valid (s.tev, now) := ⟨hs.eventIds, hs.ok.2.fresh, hs.counts⟩

/-- What `expire` makes of a deadline: the new one, the present moment for 0
seconds if there was one, and none for a negative number. -/
def deadlineAfter (now : Nat) (interval : Int64) (old : Option Nat) : Option Nat :=
  if 0 < interval.toInt then
    some (addMillSecToNowMillSec now (interval.toInt.toNat * 1000 % 2 ^ 64))
  else if interval.toInt = 0 then old.map fun _ => addMillSecToNowMillSec now 0
  else none

section

variable {s s' : Engine} (hs : s.Paired) {ctx : Ctx} {key : Bytes} {interval : Int64}

include hs

theorem deadline_create (now interval : Nat) (w : Bytes) :
    { s with
        tev := (s.tev.createTimeEvent now interval (.byValue key) 1).1
        expires := (key, (s.tev.createTimeEvent now interval (.byValue key) 1).2) :: s.expires
      : Engine }.deadline w
      = if w = key then some (addMillSecToNowMillSec now interval) else s.deadline w := by
  have hderef := fun id => @TimerState.deref_create (s.tev, 0) id now interval (.byValue key) 1
  unfold Engine.deadline
  dsimp only [TimerState.call] at hderef ⊢
  rw [find?_cons]
  by_cases hw : w = key
  · rw [if_pos hw, if_pos hw.symm, Option.bind_some]
    exact congrArg (Option.map TimeEvent.when)
      (TimerState.deref_created (s.tev, 0) now interval (.byValue key) 1)
  · rw [if_neg hw, if_neg (Ne.symm hw)]
    cases hfind : AssocList.find? w s.expires with
    | none => rfl
    | some id =>
        obtain ⟨ev, hev⟩ := Option.isSome_iff_exists.mp (hs.ok.2.deref hfind)
        have hle : id ≤ s.tev.timeEventId := TimerState.id_le_of_deref (hs.valid 0) hev
        rw [Option.bind_some, Option.bind_some, hderef, if_neg (by omega)]

/-- Two words of the map lead to two events. -/
theorem ids_apart {w : Bytes} {id id' : Nat} (hw : w ≠ key)
    (hf : AssocList.find? key s.expires = some id) (hf' : AssocList.find? w s.expires = some id') :
    id ≠ id' := by
  rintro rfl
  have heq := List.inj_on_of_nodup_map hs.ok.2.idsNodup (mem_of_find? hf') (mem_of_find? hf) rfl
  exact hw (Prod.mk.inj heq).1

theorem deadline_update {id : Nat} (hf : AssocList.find? key s.expires = some id)
    (now interval : Nat) (w : Bytes) :
    { s with tev := (s.tev.updateTimeEvent now id interval 1).1 : Engine }.deadline w
      = if w = key then some (addMillSecToNowMillSec now interval) else s.deadline w := by
  have hderef := fun id' => @TimerState.deref_update (s.tev, 0) id' now id interval 1
  unfold Engine.deadline
  dsimp only [TimerState.call] at hderef ⊢
  by_cases hw : w = key
  · obtain ⟨ev, hev⟩ := Option.isSome_iff_exists.mp (hs.ok.2.deref hf)
    rw [if_pos hw, hw, hf, Option.bind_some, hderef, if_pos rfl, hev]
    rfl
  · rw [if_neg hw]
    cases hfind : AssocList.find? w s.expires with
    | none => rfl
    | some id' => rw [Option.bind_some, Option.bind_some, hderef, if_neg (ids_apart hs hw hf hfind)]

theorem deadline_remove {id : Nat} (hf : AssocList.find? key s.expires = some id) (w : Bytes) :
    { s with
      tev := (s.tev.removeTimeEvent id).1, expires := erase key s.expires : Engine }.deadline w
      = if w = key then none else s.deadline w := by
  have hderef := fun id' => TimerState.deref_remove (hs.valid 0) id' id
  unfold Engine.deadline
  dsimp only [TimerState.call] at hderef ⊢
  rw [find?_erase hs.ok.2.keysNodup]
  by_cases hw : w = key
  · rw [if_pos hw, if_pos hw]
    rfl
  · rw [if_neg hw, if_neg hw]
    cases hfind : AssocList.find? w s.expires with
    | none => rfl
    | some id' => rw [Option.bind_some, Option.bind_some, hderef, if_neg (ids_apart hs hw hf hfind)]

/-- `expire` changes the deadline of its own word and of no other. -/
theorem deadline_setExpiration (h : s.setExpiration ctx key interval = some s') (w : Bytes) :
    s'.deadline w
      = if w = key then deadlineAfter ctx.now interval (s.deadline key) else s.deadline w := by
  have hnone : AssocList.find? key s.expires = none → s.deadline key = none := by
    intro hf
    rw [Engine.deadline, hf]
    rfl
  unfold deadlineAfter
  cases setsExpiration h with
  | create hf hpos => rw [deadline_create hs, if_pos hpos]
  | delete hf hzero =>
      by_cases hw : w = key
      · rw [if_pos hw, hw, if_neg (by omega), if_pos hzero, hnone hf]
        exact hnone hf
      · rw [if_neg hw]
        rfl
  | nothing hf hneg =>
      by_cases hw : w = key
      · rw [if_pos hw, hw, if_neg (by omega), if_neg (by omega), hnone hf]
      · rw [if_neg hw]
  | @update id tev hf hge ht =>
      have hnew := deadline_update hs hf ctx.now (interval.toInt.toNat * 1000 % 2 ^ 64) w
      rw [ht] at hnew
      rw [hnew]
      by_cases hpos : 0 < interval.toInt
      · rw [if_pos hpos]
      · have hzero : interval.toInt = 0 := by omega
        obtain ⟨ev, hev⟩ := Option.isSome_iff_exists.mp (hs.ok.2.deref hf)
        have hold : s.deadline key = some ev.when := by
          rw [Engine.deadline, hf, Option.bind_some, hev]
          rfl
        rw [if_neg hpos, if_pos hzero, hold, hzero]
        rfl
  | @remove id tev hf hneg ht =>
      have hnew := deadline_remove hs hf w
      rw [ht] at hnew
      rw [hnew, if_neg (Int.lt_asymm hneg), if_neg (Int.ne_of_lt hneg)]

/-! ## Exact deadlines -/

/-- An `expire` with a number, on a key of the store. -/
theorem expireCommand_set (ctx : Ctx) {word text : Bytes} {sec : Int64}
    (hkey : s.holder.keyExists (.ofStdString word) = true)
    (hconv : canConvertToInt64 text = some sec)
    (name : Bytes) : ∃ s', s.setExpiration ctx word sec = some s' ∧
      expireCommand ctx s [name, word, text] = (s'.logExpiration ctx word sec, .ok kInt1Msg) := by
  obtain ⟨s', hset, -⟩ := setExpiration_spec hs.ok ctx word sec
  rw [KVContainer.keyExists_eq] at hkey
  refine ⟨s', hset, ?_⟩
  rw [expireCommand_runs hkey hconv, hset]

omit hs in
theorem deadline_logExpiration (s : Engine) (ctx : Ctx) (key : Bytes) (interval : Int64)
    (w : Bytes) :
    (s.logExpiration ctx key interval).deadline w = s.deadline w := by
  obtain ⟨log, hlog⟩ := logExpiration_eq s ctx key interval
  rw [hlog]
  rfl

end

/-- Deadlines are computed as if numbers had no bounds, for a word, a text and
the number of seconds it denotes. -/
structure DeadlinesExact (s : Engine) (ctx : Ctx) (word text : Bytes) (sec : Int64) : Prop where
  /-- `expire` sets the deadline to `now + 1000 * sec`. -/
  armed : 0 < sec.toInt → (expireCommand ctx s [ascii "expire", word, text]).1.deadline word
    = some (ctx.now + 1000 * sec.toInt.toNat)
  /-- Before that, no timer is due for the word. -/
  kept : 0 < sec.toInt → ∀ later < ctx.now + 1000 * sec.toInt.toNat,
    word ∉ (expireCommand ctx s [ascii "expire", word, text]).1.due later
  /-- `expireat` is `expire` with the seconds that are left. -/
  expireat : expireAtCommand ctx s [ascii "expireat", word, text]
    = expireCommand ctx s
        [ascii "expire", word, intToString (max (sec.toInt - ctx.nowSec) 0)]
  /-- A second in the past deletes the key at once. -/
  past : sec.toInt < ctx.nowSec → (expireAtCommand ctx s
    [ascii "expireat", word, text]).1.holder.keyExists (.ofStdString word) = false
  /-- What `expire` logs is accepted by `expireat`, and is the same second. -/
  logged : ctx.sync = true → 0 ≤ sec.toInt → ∃ stamp unixSec,
    (expireCommand ctx s [ascii "expire", word, text]).1.log
        = s.log ++ [[ascii "expireat", word, stamp]] ∧
      canConvertToInt64 stamp = some unixSec ∧ unixSec.toInt = ctx.nowSec + sec.toInt ∧
      ∀ ctx' s',
        (expireAtCommand ctx' s' [ascii "expireat", word, stamp]).2 ≠ .ok kInvalidIntegerMsg

/-- The sum, the difference and the printed number are in range; and a past
second is for a word without expiration. -/
structure DeadlineFits (s : Engine) (ctx : Ctx) (word : Bytes) (sec : Int64) : Prop where
  sum : 0 < sec.toInt → ctx.now + 1000 * sec.toInt.toNat < 2 ^ 64
  difference : -2 ^ 63 ≤ sec.toInt - ctx.nowSec
  past : sec.toInt < ctx.nowSec → word ∉ keys s.expires
  printed : ctx.sync = true → ctx.nowSec + sec.toInt < 2 ^ 63

theorem Engine.Paired.run (events : List Event) :
    ∀ {s : Engine}, s.Paired → (s.run events).Paired := by
  induction events with
  | nil => exact id
  | cons e events ih => exact fun hs => ih (step_paired hs e)

/-- `expireat` accepts every number. -/
theorem expireAt_accepts {text : Bytes} {sec : Int64} (hconv : canConvertToInt64 text = some sec)
    (ctx : Ctx) (s : Engine) (name word : Bytes) :
    (expireAtCommand ctx s [name, word, text]).2 ≠ .ok kInvalidIntegerMsg := by
  have hself : canConvertToInt64 (intToString (expireInterval ctx sec).toInt)
      = some (expireInterval ctx sec) := canConvertToInt64_eq_some.mpr rfl
  rw [expireAtCommand_runs hconv]
  cases hkey : s.holder.keyExists (.ofStdString word) with
  | false =>
      generalize intToString _ = number
      have hsyn : checkSyntax [name, word, number] 1 1 false = true := rfl
      have hno : s.holder.keyExists (.ofStdString (arg [name, word, number] 1)) = false := hkey
      rw [expireCommand, checkSyntaxHelper, if_pos hsyn]
      simp only [hno, Bool.not_false, if_true]
      decide
  | true =>
      rw [KVContainer.keyExists_eq] at hkey
      rw [expireCommand_runs hkey hself]
      cases s.setExpiration ctx word (expireInterval ctx sec) with
      | none =>
          dsimp only
          decide
      | some s' =>
          dsimp only
          decide

section

variable {s : Engine} (hs : s.Paired) {ctx : Ctx} (hnow : ctx.now < 2 ^ 64)

include hnow

omit hs in
/-- The seconds left are computed exactly when their difference fits. -/
theorem toInt_expireInterval {sec : Int64} (h : -2 ^ 63 ≤ sec.toInt - ctx.nowSec) :
    (expireInterval ctx sec).toInt = max (sec.toInt - ctx.nowSec) 0 := by
  have hsec : ctx.nowSec < 2 ^ 63 := by
    unfold Ctx.nowSec
    omega
  have hup := Int64.toInt_lt sec
  have hin : InInt64 (sec.toInt - (Int64.ofNat ctx.nowSec).toInt) := by
    rw [Int64.toInt_ofNat_of_lt hsec]
    constructor <;> omega
  have hdiff : (sec - Int64.ofNat ctx.nowSec).toInt = sec.toInt - ctx.nowSec := by
    rw [hin.toInt_sub, Int64.toInt_ofNat_of_lt hsec]
  unfold expireInterval
  dsimp only
  rw [hdiff]
  split
  · rw [max_eq_right (by omega)]
    rfl
  · rw [hdiff, max_eq_left (by omega)]

omit hs in
/-- When it does not, they are not 0. -/
theorem expireInterval_wraps {sec : Int64} (h : sec.toInt - ctx.nowSec < -2 ^ 63) :
    (expireInterval ctx sec).toInt ≠ 0 := by
  have hsec : ctx.nowSec < 2 ^ 63 := by
    unfold Ctx.nowSec
    omega
  have hlow := Int64.le_toInt sec
  have hdiff : (sec - Int64.ofNat ctx.nowSec).toInt = sec.toInt - ctx.nowSec + 2 ^ 64 := by
    rw [Int64.toInt_sub, Int64.toInt_ofNat_of_lt hsec]
    rw [← Int.add_bmod_right, Int.bmod_eq_of_le (by omega) (by omega)]
    rfl
  unfold expireInterval
  dsimp only
  rw [hdiff]
  split
  · omega
  · omega

omit hnow

include hs

variable (ctx)

variable {word text : Bytes} {sec : Int64} (hkey : s.holder.keyExists (.ofStdString word) = true)
  (hconv : canConvertToInt64 text = some sec)

include hkey hconv

theorem deadline_expire (name : Bytes) : (expireCommand ctx s [name, word, text]).1.deadline word
    = deadlineAfter ctx.now sec (s.deadline word) := by
  obtain ⟨s', hset, heq⟩ := expireCommand_set hs ctx hkey hconv name
  rw [heq, deadline_logExpiration, deadline_setExpiration hs hset, if_pos rfl]

/-- The deadline is the sum exactly when the sum does not wrap. -/
theorem armed_iff (hpos : 0 < sec.toInt) (name : Bytes) :
    (expireCommand ctx s [name, word, text]).1.deadline word
        = some (ctx.now + 1000 * sec.toInt.toNat) ↔
      ctx.now + 1000 * sec.toInt.toNat < 2 ^ 64 := by
  rw [deadline_expire hs ctx hkey hconv, deadlineAfter, if_pos hpos, Option.some.injEq,
    addMillSecToNowMillSec]
  omega

/-- `expireat` deletes the key at once exactly when 0 seconds are left and the
word has no expiration. -/
theorem expireAt_deletes_iff (name : Bytes) :
    (expireAtCommand ctx s [name, word, text]).1.holder.keyExists (.ofStdString word) = false ↔
      (expireInterval ctx sec).toInt = 0 ∧ word ∉ keys s.expires := by
  have hh : Handled s .expireat [name, word, text] _ (expireAtCommand ctx s [name, word, text]) :=
    handled_expireat hs
  have hgone : s.takesOut ctx [name, word, text] .expireat
      = s.deletesAtOnce word (some (expireInterval ctx sec)) := by
    have hword : canConvertToInt64 (arg [name, word, text] 2) = some sec := hconv
    have hlen : [name, word, text].length = 3 := rfl
    rw [Engine.takesOut, if_pos hlen, hword]
    rfl
  rw [hgone] at hh
  constructor
  · intro hno
    by_contra hnot
    have hnil : s.deletesAtOnce word (some (expireInterval ctx sec)) = [] :=
      deletesAtOnce_eq_nil (not_and_or.mp hnot |>.imp id not_not.mp)
    have hstay := hh.loses.stay _ (by rw [hnil]; exact List.not_mem_nil) hkey
    rw [hno] at hstay
    cases hstay
  · rintro ⟨hzero, hmap⟩
    have hinterval : expireInterval ctx sec = 0 := Int64.toInt_inj.mp hzero
    refine hh.loses.lost _ ?_
    rw [Engine.deletesAtOnce, if_pos ⟨by rw [hinterval], hmap⟩]
    exact List.mem_singleton_self _

theorem log_expire (hsync : ctx.sync = true) (hge : 0 ≤ sec.toInt) (name : Bytes) :
    (expireCommand ctx s [name, word, text]).1.log = s.log ++
      [[ascii "expireat", word, natToString ((ctx.nowSec + sec.toInt.toNat) % 2 ^ 64)]] := by
  obtain ⟨s', hset, heq⟩ := expireCommand_set hs ctx hkey hconv name
  obtain ⟨s₁, hset₁, -, hlog, -⟩ := setExpiration_spec hs.ok ctx word sec
  obtain rfl : s₁ = s' := Option.some.inj (hset₁.symm.trans hset)
  rw [heq, Engine.logExpiration, if_pos hge, Engine.addIntoAppendable, if_pos hsync, hlog]

end

/-- **Deadlines are exact when nothing wraps, and only then.** -/
theorem deadlinesExact_iff (events : List Event) (ctx : Ctx) (hnow : ctx.now < 2 ^ 64)
    (word text : Bytes) (sec : Int64)
    (hkey : (Engine.new.run events).holder.keyExists (.ofStdString word) = true)
    (hconv : canConvertToInt64 text = some sec) :
    DeadlinesExact (Engine.new.run events) ctx word text sec ↔
      DeadlineFits (Engine.new.run events) ctx word sec := by
  have hs : (Engine.new.run events).Paired := paired_new.run events
  generalize Engine.new.run events = s at hkey hs
  have hdel := expireAt_deletes_iff hs ctx hkey hconv (ascii "expireat")
  have harm := fun hpos => armed_iff hs ctx hkey hconv hpos (ascii "expire")
  have hlog := fun hsync hge => log_expire hs ctx hkey hconv hsync hge (ascii "expire")
  constructor
  · intro h
    refine ⟨fun hpos => (harm hpos).mp (h.armed hpos), ?_, fun hpast => (hdel.mp (h.past hpast)).2,
      fun hsync => ?_⟩
    · by_contra hdiff
      have hlow := Int64.toInt_lt sec
      refine expireInterval_wraps hnow (by omega) (hdel.mp (h.past ?_)).1
      omega
    · by_cases hge : 0 ≤ sec.toInt
      · obtain ⟨stamp, unixSec, -, -, heq, -⟩ := h.logged hsync hge
        rw [← heq]
        exact Int64.toInt_lt unixSec
      · unfold Ctx.nowSec
        omega
  · intro h
    have hdiff := toInt_expireInterval hnow h.difference
    refine ⟨fun hpos => (harm hpos).mpr (h.sum hpos), fun hpos later hlater hdue => ?_, ?_,
      fun hpast => ?_, fun hsync hge => ?_⟩
    · have hdead := (List.mem_filter.mp hdue).2
      rw [(harm hpos).mpr (h.sum hpos), Option.any_some, decide_eq_true_eq] at hdead
      omega
    · have hself : canConvertToInt64 (intToString (max (sec.toInt - ctx.nowSec) 0))
          = some (expireInterval ctx sec) := canConvertToInt64_eq_some.mpr (by rw [hdiff])
      rw [KVContainer.keyExists_eq] at hkey
      rw [expireAtCommand_runs hconv, hdiff, expireCommand_runs hkey hself,
        expireCommand_runs hkey hself]
    · refine hdel.mpr ⟨?_, h.past hpast⟩
      rw [hdiff]
      omega
    · have hlt := h.printed hsync
      obtain ⟨unixSec, hunix, -⟩ := expireInterval_logged ctx (by omega) hge (by omega)
      refine ⟨_, unixSec, hlog hsync hge, hunix, ?_,
        fun ctx' s' => expireAt_accepts hunix ctx' s' _ _⟩
      have htext := canConvertToInt64_eq_some.mp hunix
      rw [← intToString_natCast] at htext
      rw [← intToString_injective htext]
      omega

/-- Five seconds after the epoch, logging. -/
def fiveSec : Ctx := { calm with now := 5000, sync := true }

/-- `set a 1`. -/
def settingRun : List Event := [.command fiveSec [ascii "set", [97], [49]]]

theorem deadlinesExact_iff_hundred :
    DeadlinesExact (Engine.new.run settingRun) fiveSec [97] (ascii "100") 100 := by
  refine (deadlinesExact_iff settingRun fiveSec (by decide) [97] (ascii "100") 100
    (by decide +kernel) (by decide +kernel)).mpr ⟨fun _ => ?_, ?_, fun h => ?_, fun _ => ?_⟩
  · decide
  · decide
  · exact absurd h (by decide)
  · decide

/-- The largest number of seconds gives a deadline one second ago, so that the
next turn of the timers deletes the key, and is logged as a text that `expireat`
refuses. The smallest second is taken for one in the future. -/
theorem deadlines_wrap :
    (expireCommand fiveSec (.run .new settingRun)
        [ascii "expire", [97], ascii "9223372036854775807"]).1.deadline [97] = some 4000 ∧
      ((expireCommand fiveSec (.run .new settingRun) [ascii "expire", [97],
        ascii "9223372036854775807"]).1.handleFiredTimeEvent 5000 []).holder.keyExists ⟨[97]⟩
          = false ∧
      (expireCommand fiveSec (.run .new settingRun)
        [ascii "expire", [97], ascii "9223372036854775807"]).1.log.getLast?
          = some [ascii "expireat", [97], ascii "9223372036854775812"] ∧
      canConvertToInt64 (ascii "9223372036854775812") = none ∧
      (expireAtCommand fiveSec (.run .new settingRun)
        [ascii "expireat", [97], ascii "-9223372036854775808"]).1.holder.keyExists ⟨[97]⟩ = true ∧
      ¬ DeadlinesExact (.run .new settingRun) fiveSec [97] (ascii "9223372036854775807")
        9223372036854775807 ∧
      ¬ DeadlinesExact (.run .new settingRun) fiveSec [97] (ascii "-9223372036854775808")
        (-9223372036854775808) := by
  refine ⟨by decide +kernel, by decide +kernel, by decide +kernel, by decide +kernel,
    by decide +kernel, fun h => ?_, fun h => ?_⟩
  · have harm := h.armed (by decide)
    revert harm
    decide +kernel
  · have hpast := h.past (by decide)
    revert hpast
    decide +kernel

end LiteKV
