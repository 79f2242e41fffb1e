/-
LiteKV.Net.TtlTheorems — what `ttl` says in a running process.

A round of the event loop serves the sockets first and the timers
afterwards, so `ttl` can be asked between a deadline and the turn of the
timers that deletes the key. The subtraction is unsigned: there the answer
is almost 2^64 / 1000 seconds. `ttl_right_iff` says that this is the only
way to a wrong answer, and that otherwise the answer is never more than was
asked for. What was asked for is in no variable of the process, so a run
carries it along (`Asked`).
-/
import LiteKV.Net.DeadlineTheorems

namespace LiteKV

open Lib Lib.AssocList Lib.Run

/-! ## Deadlines in a run -/

namespace Engine.Paired

variable {s : Engine} (hs : s.Paired)

include hs

/-- The deadlines are those of the events. -/
theorem deadline_eq_some {w : Bytes} {d : Nat} :
    s.deadline w = some d ↔ ∃ ev ∈ s.tev.eventList, ev.entry.1 = w ∧ ev.when = d := by
  constructor
  · intro h
    obtain ⟨id, hf, h⟩ := Option.bind_eq_some_iff.mp h
    obtain ⟨ev, hev, hderef, hcb⟩ := hs.event (mem_of_find? hf)
    rw [hderef] at h
    refine ⟨ev, hev, ?_, Option.some.inj h⟩
    rw [(hs.armed ev hev).callback] at hcb
    exact Callback.byValue.inj hcb
  · rintro ⟨ev, hev, rfl, rfl⟩
    rw [Engine.deadline, hs.find hev, Option.bind_some, hs.deref hev]
    rfl

/-- A turn of the timers ends the deadlines that have come, and leaves the others. -/
theorem deadline_turn (now : Nat) (stale : Bytes) (w : Bytes) :
    (s.handleFiredTimeEvent now stale).deadline w = (s.deadline w).filter fun d => now < d := by
  obtain ⟨hs', -, -⟩ := handleFired_spec hs now stale
  obtain ⟨-, htev, -⟩ := runCallbacks_spec stale (s.due now)
    (s := { s with tev := (s.tev.handleFiredTimeEvent now).1 }) hs.ok.1 hs.ok.2.keysNodup
  have hleft : (s.handleFiredTimeEvent now stale).tev.eventList
      = s.tev.eventList.filter fun ev => now < ev.when := by
    rw [Engine.handleFiredTimeEvent, hs.fired]
    rw [hs.fired] at htev
    rw [htev]
  ext d
  rw [Option.filter_eq_some_iff, hs'.deadline_eq_some, hs.deadline_eq_some, hleft]
  constructor
  · rintro ⟨ev, hev, hw, rfl⟩
    obtain ⟨hmem, hlate⟩ := List.mem_filter.mp hev
    exact ⟨⟨ev, hmem, hw, rfl⟩, hlate⟩
  · rintro ⟨⟨ev, hev, hw, rfl⟩, hlate⟩
    exact ⟨ev, List.mem_filter.mpr ⟨hev, hlate⟩, hw, rfl⟩

/-- It sets none. -/
theorem deadline_timers {now : Nat} {stale : Bytes} {w : Bytes} {d : Nat}
    (h : (s.handleFiredTimeEvent now stale).deadline w = some d) : s.deadline w = some d := by
  rw [hs.deadline_turn] at h
  exact (Option.filter_eq_some_iff.mp h).1

end Engine.Paired

theorem deadline_lazyEviction (s : Engine) (ctx : Ctx) (w : Bytes) :
    (s.lazyEviction ctx).deadline w = s.deadline w := by
  unfold Engine.lazyEviction
  cases ctx.pressure <;> rfl

/-- A handler that sets no expiration leaves them all alone. -/
theorem handler_timers {s : Engine} (hok : s.holder.Ok) (ctx : Ctx) {op : Opcode}
    (hop : op.expires = false) (argv : List Bytes) :
    (op.handler ctx s argv).1.expires = s.expires ∧ (op.handler ctx s argv).1.tev = s.tev := by
  cases hsingle : op.single with
  | true =>
      have ha : Affects ctx s argv _ _ := handler_affects hok op hsingle
      exact ⟨(congrArg Engine.expires ha.rest).trans rfl, (congrArg Engine.tev ha.rest).trans rfl⟩
  | false =>
      cases op with
      | del =>
          unfold Opcode.handler delCommand checkSyntaxHelper Engine.addIntoAppendable
          dsimp only
          split
          · split <;> exact ⟨rfl, rfl⟩
          · exact ⟨rfl, rfl⟩
      | evict =>
          unfold Opcode.handler evictCommand checkSyntaxHelper Engine.addIntoAppendable
          dsimp only
          split
          · split
            · exact ⟨rfl, rfl⟩
            · split <;> exact ⟨rfl, rfl⟩
          · exact ⟨rfl, rfl⟩
      | expire => cases hop
      | expireat => cases hop
      | _ => cases hsingle

/-! ## What is asked for -/

/-- The seconds an `expire` asks for, and those an `expireat` leaves. -/
def Opcode.asked (ctx : Ctx) (argv : List Bytes) : Opcode → Option Int
  | .expire => (canConvertToInt64 (arg argv 2)).map Int64.toInt
  | .expireat => (canConvertToInt64 (arg argv 2)).map fun sec => max (sec.toInt - ctx.nowSec) 0
  | _ => none

/-- The difference of an `expireat` is in range. -/
def Opcode.InRange (ctx : Ctx) (argv : List Bytes) (op : Opcode) : Prop :=
  op = .expireat → ∀ sec, canConvertToInt64 (arg argv 2) = some sec →
  -2 ^ 63 ≤ sec.toInt - ctx.nowSec

section

variable {s : Engine} (hs : s.Paired) {ctx : Ctx}

include hs

theorem deadline_expireCommand (ctx : Ctx) (argv : List Bytes) :
    (∀ w, (expireCommand ctx s argv).1.deadline w = s.deadline w) ∧
        (expireCommand ctx s argv).2 ≠ .ok kInt1Msg ∨
      (expireCommand ctx s argv).2 = .ok kInt1Msg ∧ ∃ interval,
        canConvertToInt64 (arg argv 2) = some interval ∧
        ∀ w, (expireCommand ctx s argv).1.deadline w
          = if w = arg argv 1 then deadlineAfter ctx.now interval (s.deadline (arg argv 1))
            else s.deadline w := by
  obtain ⟨hsame, hreply, -⟩ | ⟨interval, s', hexp, heq⟩ := expireCommand_cases s ctx argv
  · exact Or.inl ⟨fun w => by rw [hsame], hreply⟩
  · rw [heq]
    refine Or.inr ⟨rfl, interval, hexp.number, fun w => ?_⟩
    rw [deadline_logExpiration, deadline_setExpiration hs hexp.set]

theorem deadline_expireAtCommand (hnow : ctx.now < 2 ^ 64) {argv : List Bytes}
    (hr : Opcode.expireat.InRange ctx argv) :
    (∀ w, (expireAtCommand ctx s argv).1.deadline w = s.deadline w) ∧
        (Opcode.expireat.asked ctx argv = none ∨ (expireAtCommand ctx s argv).2 ≠ .ok kInt1Msg) ∨
      (expireAtCommand ctx s argv).2 = .ok kInt1Msg ∧ ∃ interval : Int64,
        Opcode.expireat.asked ctx argv = some interval.toInt ∧
        ∀ w, (expireAtCommand ctx s argv).1.deadline w
          = if w = arg argv 1 then deadlineAfter ctx.now interval (s.deadline (arg argv 1))
            else s.deadline w := by
  have hwords : (Except.ok (syntaxErrMsg "expireat") : Reply) ≠ .ok kInt1Msg := by decide
  unfold expireAtCommand checkSyntaxHelper Opcode.asked
  by_cases hsyn : checkSyntax argv 1 1 false = true
  · rw [if_pos hsyn]
    cases hnum : canConvertToInt64 (arg argv 2) with
    | none => exact Or.inl ⟨fun _ => rfl, Or.inl rfl⟩
    | some sec =>
        have hself : canConvertToInt64 (intToString (expireInterval ctx sec).toInt)
            = some (expireInterval ctx sec) := canConvertToInt64_eq_some.mpr rfl
        have hleft := toInt_expireInterval hnow (hr rfl sec hnum)
        rcases deadline_expireCommand hs ctx
            [arg argv 0, arg argv 1, intToString (expireInterval ctx sec).toInt] with
          ⟨hsame, hreply⟩ | ⟨hreply, interval, hword, hset⟩
        · exact Or.inl ⟨hsame, Or.inr hreply⟩
        · obtain rfl : expireInterval ctx sec = interval :=
            Option.some.inj (hself.symm.trans hword)
          exact Or.inr ⟨hreply, expireInterval ctx sec, congrArg some hleft.symm, hset⟩
  · rw [if_neg hsyn]
    exact Or.inl ⟨fun _ => rfl, Or.inr hwords⟩

/-- A handler leaves the deadlines alone, or sets the one it was asked for and
answers 1. -/
theorem deadline_handler (hnow : ctx.now < 2 ^ 64) (op : Opcode) {argv : List Bytes}
    (hr : op.InRange ctx argv) :
    (∀ w, (op.handler ctx s argv).1.deadline w = s.deadline w) ∧
        (op.asked ctx argv = none ∨ (op.handler ctx s argv).2 ≠ .ok kInt1Msg) ∨
      (op.handler ctx s argv).2 = .ok kInt1Msg ∧ ∃ interval : Int64,
        op.asked ctx argv = some interval.toInt ∧
        ∀ w, (op.handler ctx s argv).1.deadline w
          = if w = arg argv 1 then deadlineAfter ctx.now interval (s.deadline (arg argv 1))
            else s.deadline w := by
  cases hop : op.expires with
  | false =>
      obtain ⟨hexp, htev⟩ := handler_timers hs.ok.1 ctx hop argv
      refine Or.inl ⟨fun w => by rw [Engine.deadline, hexp, htev, Engine.deadline], Or.inl ?_⟩
      cases op <;> first | rfl | cases hop
  | true =>
      cases op with
      | expire =>
          rcases deadline_expireCommand hs ctx argv with
            ⟨hsame, hreply⟩ | ⟨hreply, interval, hnum, hset⟩
          · exact Or.inl ⟨hsame, Or.inr hreply⟩
          · exact Or.inr ⟨hreply, interval, by rw [Opcode.asked, hnum]; rfl, hset⟩
      | expireat =>
          exact deadline_expireAtCommand hs hnow hr
      | _ => cases hop

end

/-! ## Runs that remember what was asked -/

/-- The clock an event is handled at. -/
def Event.now : Event → Nat
  | .command ctx _ => ctx.now
  | .timers now _ => now

/-- The word and the seconds of an `expire` or `expireat` that answers 1. -/
def Engine.asks (s : Engine) : Event → Option (Bytes × Int)
  | .command ctx argv =>
      if (s.handleCommand ctx argv).2 = .ok kInt1Msg then
        ((opcodeOf argv).bind (Opcode.asked ctx (lowered argv))).map fun n => (arg argv 1, n)
      else none
  | .timers _ _ => none

/-- A process, the last reading of the clock, and when and for how many seconds
an expiration was last asked for, word by word. -/
structure Asked where
  engine : Engine
  clock : Nat
  requests : Bytes → Option (Nat × Int)

namespace Asked

def new : Asked := ⟨.new, 0, fun _ => none⟩

def step (c : Asked) (e : Event) : Asked :=
  ⟨c.engine.step e, e.now,
    match c.engine.asks e with
    | none => c.requests
    | some (w, n) => Function.update c.requests w (some (e.now, n))⟩

/-- The clock does not go back, and the difference of an `expireat` is in range. -/
structure Fits (c : Asked) (e : Event) : Prop where
  clock : c.clock ≤ e.now
  now : e.now < 2 ^ 64
  inRange : ∀ ctx argv op, e = .command ctx argv → opcodeOf argv = some op →
    op.InRange ctx (lowered argv)

/-- Every deadline was asked for, and is not later than asked. -/
structure Kept (c : Asked) : Prop where
  paired : c.engine.Paired
  deadline : ∀ w d, c.engine.deadline w = some d → d < 2 ^ 64 ∧
    ∃ since n, c.requests w = some (since, n) ∧ since ≤ c.clock ∧ 0 ≤ n ∧
      (d : Int) ≤ since + 1000 * n

theorem kept_new : new.Kept := ⟨paired_new, fun _ _ h => by cases h⟩

/-- A step that leaves the deadlines it keeps alone, and what was asked for. -/
theorem Kept.of_same {c : Asked} (hc : c.Kept) {e : Event} (he : c.Fits e)
    (hasks : c.engine.asks e = none)
    (hdead : ∀ w d, (c.engine.step e).deadline w = some d → c.engine.deadline w = some d) :
    (c.step e).Kept := by
  refine ⟨step_paired hc.paired e, fun w d h => ?_⟩
  obtain ⟨hlt, since, n, hreq, hsince, hn, hd⟩ := hc.deadline w d (hdead w d h)
  refine ⟨hlt, since, n, ?_, hsince.trans he.clock, hn, hd⟩
  rw [step, hasks]
  exact hreq

/-- A deadline that was set is not later than asked. -/
theorem deadlineAfter_le {now d : Nat} {interval : Int64} {old : Option Nat}
    (h : deadlineAfter now interval old = some d) :
    d < 2 ^ 64 ∧ 0 ≤ interval.toInt ∧ (d : Int) ≤ now + 1000 * interval.toInt := by
  unfold deadlineAfter addMillSecToNowMillSec at h
  split at h
  · cases h
    omega
  · split at h
    · obtain ⟨_, _, rfl⟩ := Option.map_eq_some_iff.mp h
      omega
    · cases h

theorem Kept.step {c : Asked} (hc : c.Kept) {e : Event} (he : c.Fits e) : (c.step e).Kept := by
  cases e with
  | timers now stale => exact hc.of_same he rfl fun w d h => hc.paired.deadline_timers h
  | command ctx argv =>
      cases hop : opcodeOf argv with
      | none =>
          have hrun : (c.engine.handleCommand ctx argv).1 = c.engine := by
            rw [handleCommand_lazy, hop]
          refine hc.of_same he ?_ fun w d h => ?_
          · rw [Engine.asks, hop]
            split <;> rfl
          · rw [Engine.step, hrun] at h
            exact h
      | some op =>
          have hrun : c.engine.handleCommand ctx argv
              = op.handler ctx (c.engine.lazyEviction ctx) (lowered argv) := by
            rw [handleCommand_lazy, hop]
          obtain ⟨hpaired, -, -⟩ := lazyEviction_spec hc.paired ctx
          rcases deadline_handler hpaired he.now op (he.inRange ctx argv op rfl hop) with
            ⟨hsame, hasked⟩ | ⟨hreply, interval, hasked, hset⟩
          · refine hc.of_same he ?_ fun w d h => ?_
            · rw [Engine.asks, hrun, hop]
              rcases hasked with hnone | hreply
              · rw [Option.bind_some, hnone]
                split <;> rfl
              · exact if_neg hreply
            · rw [Engine.step, hrun, hsame, deadline_lazyEviction] at h
              exact h
          · have hasks : c.engine.asks (.command ctx argv) = some (arg argv 1, interval.toInt) := by
              rw [Engine.asks, hrun, hop, Option.bind_some, hasked]
              exact if_pos hreply
            refine ⟨step_paired hc.paired (.command ctx argv), fun w d h => ?_⟩
            rw [Asked.step, hasks]
            dsimp only
            rw [Asked.step, Engine.step, hrun, hset, arg_lowered, deadline_lazyEviction,
              deadline_lazyEviction] at h
            by_cases hw : w = arg argv 1
            · rw [if_pos hw] at h
              obtain ⟨hlt, hn, hd⟩ := deadlineAfter_le h
              rw [hw, Function.update_self]
              exact ⟨hlt, _, _, rfl, Nat.le_refl _, hn, hd⟩
            · rw [if_neg hw] at h
              obtain ⟨hlt, since, n, hreq, hsince, hn, hd⟩ := hc.deadline w d h
              rw [Function.update_of_ne hw]
              exact ⟨hlt, since, n, hreq, hsince.trans he.clock, hn, hd⟩

/-- A run of events. -/
def run (c : Asked) (events : List Event) : Asked := events.foldl step c

/-- What a run carries along does not touch the process. -/
theorem engine_run (events : List Event) :
    ∀ c : Asked, (c.run events).engine = c.engine.run events := by
  induction events with
  | nil => exact fun c => rfl
  | cons e events ih => exact fun c => ih (c.step e)

end Asked

/-! ## `ttl` -/

theorem kIntMinus2Msg_eq : kIntMinus2Msg = packIntReply (-2) := by decide

section

variable {s : Engine} {ctx : Ctx} {word : Bytes}

theorem ttl_absent (hkey : s.holder.keyExists (.ofStdString word) = false) :
    s.ttl ctx word = .ok kIntMinus2Msg := by
  have hsyn : checkSyntax [ascii "ttl", word] 1 0 false = true := rfl
  have hkey : s.holder.keyExists (.ofStdString (arg [ascii "ttl", word] 1)) = false := hkey
  rw [Engine.ttl, ttlCommand, checkSyntaxHelper, if_pos hsyn]
  simp only [hkey, Bool.not_false, if_true]

theorem ttl_endless (hkey : s.holder.keyExists (.ofStdString word) = true)
    (hf : AssocList.find? word s.expires = none) : s.ttl ctx word = .ok kIntMinus1Msg := by
  have hsyn : checkSyntax [ascii "ttl", word] 1 0 false = true := rfl
  have hkey : s.holder.keyExists (.ofStdString (arg [ascii "ttl", word] 1)) = true := hkey
  have hf : AssocList.find? (arg [ascii "ttl", word] 1) s.expires = none := hf
  rw [Engine.ttl, ttlCommand, checkSyntaxHelper, if_pos hsyn]
  simp only [hkey, Bool.not_true, Bool.false_eq_true, if_false, hf]

/-- The seconds left, in `uint64_t`. -/
theorem ttl_left (hkey : s.holder.keyExists (.ofStdString word) = true) {d : Nat}
    (hd : s.deadline word = some d) :
    s.ttl ctx word = .ok (packIntReply ((d + 2 ^ 64 - ctx.now) % 2 ^ 64 / 1000 : Nat)) := by
  obtain ⟨id, hf, hwhen⟩ := Option.bind_eq_some_iff.mp hd
  have hsyn : checkSyntax [ascii "ttl", word] 1 0 false = true := rfl
  have hkey : s.holder.keyExists (.ofStdString (arg [ascii "ttl", word] 1)) = true := hkey
  have hf : AssocList.find? (arg [ascii "ttl", word] 1) s.expires = some id := hf
  rw [Engine.ttl, ttlCommand, checkSyntaxHelper, if_pos hsyn]
  simp only [hkey, Bool.not_true, Bool.false_eq_true, if_false, hf, hwhen, Option.getD_some]

end

/-- `ttl` says -2 for a key that is not there, -1 for one without expiration, and
else the seconds that are left, which are not more than were asked for. -/
structure TtlRight (c : Asked) (ctx : Ctx) (word : Bytes) : Prop where
  absent : c.engine.holder.keyExists (.ofStdString word) = false →
    c.engine.ttl ctx word = .ok kIntMinus2Msg
  endless : c.engine.holder.keyExists (.ofStdString word) = true →
    word ∉ keys c.engine.expires → c.engine.ttl ctx word = .ok kIntMinus1Msg
  left : c.engine.holder.keyExists (.ofStdString word) = true →
    ∀ d, c.engine.deadline word = some d →
      c.engine.ttl ctx word = .ok (packIntReply (max ((d : Int) - ctx.now) 0 / 1000))
  bounded : ∀ n : Int, 0 ≤ n → c.engine.ttl ctx word = .ok (packIntReply n) →
    ∃ since asked, c.requests word = some (since, asked) ∧ n ≤ asked

/-- The deadline of a key of the store has not passed; or it passed so long ago
that the difference wraps to less than a second. -/
def Engine.InTime (s : Engine) (ctx : Ctx) (word : Bytes) : Prop :=
  s.holder.keyExists (.ofStdString word) = true → ∀ d, s.deadline word = some d →
    ctx.now ≤ d ∨ d + 2 ^ 64 < ctx.now + 1000

/-- **`ttl` is right exactly when the deadline has not passed**, in every state
that a run reaches whose clock does not go back and in which no `expireat`
overflows. -/
theorem ttl_right_iff (events : List Event) (h : Guarded Asked.step Asked.Fits .new events)
    (ctx : Ctx) (hclock : (Asked.new.run events).clock ≤ ctx.now) (hnow : ctx.now < 2 ^ 64)
    (word : Bytes) :
    TtlRight (Asked.new.run events) ctx word ↔ (Engine.new.run events).InTime ctx word := by
  have hc : (Asked.new.run events).Kept :=
    Guarded.invariant (fun _ _ hc he => hc.step he) events Asked.kept_new h
  have hrun : (Asked.new.run events).engine = Engine.new.run events := Asked.engine_run events .new
  rw [← hrun]
  generalize Asked.new.run events = c at hc hclock
  constructor
  · intro hright hkey d hd
    have heq := hright.left hkey d hd
    rw [ttl_left hkey hd] at heq
    have hnum := packIntReply_injective (Except.ok.inj heq)
    obtain ⟨hlt, -⟩ := hc.deadline word d hd
    omega
  · intro hin
    refine ⟨ttl_absent, fun hkey hmap => ttl_endless hkey (find?_eq_none.mpr hmap),
      fun hkey d hd => ?_, fun n hn heq => ?_⟩
    · obtain ⟨hlt, -⟩ := hc.deadline word d hd
      have hnum : (((d + 2 ^ 64 - ctx.now) % 2 ^ 64 / 1000 : Nat) : Int)
          = max ((d : Int) - ctx.now) 0 / 1000 := by
        have hcases := hin hkey d hd
        omega
      rw [ttl_left hkey hd, hnum]
    · cases hkey : c.engine.holder.keyExists (.ofStdString word) with
      | false =>
          rw [ttl_absent hkey, kIntMinus2Msg_eq] at heq
          have hnum := packIntReply_injective (Except.ok.inj heq)
          omega
      | true =>
          cases hf : AssocList.find? word c.engine.expires with
          | none =>
              rw [ttl_endless hkey hf, kIntMinus1Msg_eq] at heq
              have hnum := packIntReply_injective (Except.ok.inj heq)
              omega
          | some id =>
              obtain ⟨ev, hev⟩ := Option.isSome_iff_exists.mp (hc.paired.ok.2.deref hf)
              have hd : c.engine.deadline word = some ev.when := by
                rw [Engine.deadline, hf, Option.bind_some, hev]
                rfl
              obtain ⟨hlt, since, asked, hreq, hsince, hasked, hle⟩ := hc.deadline word _ hd
              rw [ttl_left hkey hd] at heq
              have hnum := packIntReply_injective (Except.ok.inj heq)
              refine ⟨since, asked, hreq, ?_⟩
              have hcases := hin hkey ev.when hd
              omega

/-- `set a 1` and `expire a 1`, five seconds after the epoch, and a turn of the
timers. -/
def secondRun : List Event :=
  [.command fiveSec [ascii "set", [97], [49]], .command fiveSec [ascii "expire", [97], [49]],
    .timers 5000 []]

theorem secondRun_fits : Guarded Asked.step Asked.Fits .new secondRun := by
  have hfits : ∀ c : Asked, c.clock ≤ 5000 → ∀ e : Event, e.now = 5000 →
      (∀ ctx argv, e = .command ctx argv → opcodeOf argv ≠ some .expireat) → c.Fits e := by
    intro c hc e he hop
    refine ⟨by omega, by omega, ?_⟩
    rintro ctx argv op heq hopcode rfl
    exact absurd hopcode (hop ctx argv heq)
  refine ⟨hfits _ (by decide) _ rfl ?_, hfits _ (by decide) _ rfl ?_, hfits _ (by decide) _ rfl ?_,
    trivial⟩
  · intro ctx argv heq
    cases heq
    decide +kernel
  · intro ctx argv heq
    cases heq
    decide +kernel
  · intro ctx argv heq
    cases heq

/-- Half a second before the deadline `ttl` says 0. -/
theorem ttl_right_iff_half : TtlRight (Asked.new.run secondRun) { calm with now := 5500 } [97] := by
  refine (ttl_right_iff secondRun secondRun_fits { calm with now := 5500 } (by decide) (by decide)
    [97]).mpr fun _ d hd => ?_
  have hdead : (Engine.new.run secondRun).deadline [97] = some 6000 := by decide +kernel
  rw [hdead] at hd
  cases hd
  decide

/-- One millisecond after it, before the next turn of the timers, `ttl` says
18446744073709551; one second was asked for. -/
theorem ttl_wraps :
    (Engine.new.run secondRun).ttl { calm with now := 6001 } [97]
        = .ok (ascii ":18446744073709551\r\n") ∧
      (Asked.new.run secondRun).requests [97] = some (5000, 1) ∧
      ¬ TtlRight (Asked.new.run secondRun) { calm with now := 6001 } [97] := by
  refine ⟨by decide +kernel, by decide +kernel, fun h => ?_⟩
  have hleft := h.left (by decide +kernel) 6000 (by decide +kernel)
  revert hleft
  decide +kernel

end LiteKV
