/-
LiteKV.Net.RestartDeadlineTheorems — expirations that outlive the process.

`expire` logs the second in which the key is to go, and `expireat` turns it
into an interval again, with the clock of the replay. What is lost on the way
are the milliseconds: the deadline stays in its second, and is somewhere else
in it. This is so while the second is still to come. A replay behind it gives
`expireat` an interval of 0, which deletes a key at once, in the middle of its
commands (`Timely`).
-/
import LiteKV.Net.RestartTheorems
import LiteKV.Net.TtlTheorems

namespace LiteKV

open Lib Lib.AssocList Lib.Run

namespace Engine

/-- Feeding logged commands to a process, each of them at its own time. -/
def replayAt : (Nat → Ctx) → Engine → List (List Bytes) → Engine
  | _, t, [] => t
  | ctx, t, argv :: log => replayAt (fun i => ctx (i + 1)) (t.handleCommand (ctx 0) argv).1 log

theorem replayAt_append : ∀ (log new : List (List Bytes)) (ctx : Nat → Ctx) (t : Engine),
    t.replayAt ctx (log ++ new)
      = (t.replayAt ctx log).replayAt (fun i => ctx (i + log.length)) new
  | [], _, _, _ => rfl
  | argv :: log, new, ctx, t => by
      rw [List.cons_append, replayAt, replayAt_append log new, replayAt]
      congr 1

/-- The second of a deadline. -/
def deadlineSec (s : Engine) (key : Bytes) : Option Nat := (s.deadline key).map (· / 1000)

/-- `t` has what `s` has, and every deadline in its second. -/
structure Restores (s t : Engine) : Prop where
  live : s.Paired
  replayed : t.Paired
  view : t.holder.view = s.holder.view
  seconds : ∀ key, t.deadlineSec key = s.deadlineSec key

theorem restores_new : Restores .new .new := ⟨paired_new, paired_new, rfl, fun _ => rfl⟩

variable {s t : Engine}

theorem Paired.hasExpiration (hs : s.Paired) (key : Bytes) :
    s.hasExpiration key = (s.deadlineSec key).isSome := by
  rw [Engine.hasExpiration, deadlineSec, deadline, Option.isSome_map]
  cases hf : AssocList.find? key s.expires with
  | none => rfl
  | some id =>
      rw [Option.bind_some, Option.isSome_map, hs.ok.2.deref hf]
      rfl

theorem Restores.mirrors (h : s.Restores t) : Mirrors s t := by
  refine ⟨h.live.ok, h.replayed.ok, h.view, funext fun key => ?_⟩
  rw [h.replayed.hasExpiration, h.live.hasExpiration, h.seconds]

end Engine

/-- The interval an `expire` or `expireat` asks for. -/
def intervalOf (ctx : Ctx) (argv : List Bytes) : Option Int64 :=
  match opcodeOf argv with
  | some .expire => canConvertToInt64 (arg (lowered argv) 2)
  | some .expireat => (canConvertToInt64 (arg (lowered argv) 2)).map (expireInterval ctx)
  | _ => none

/-- An expiration that is asked for at `ctx` is replayed at `rctx` before its
second, and in range; one of 0 seconds is replayed behind it, and only deletes
the key. -/
structure Timely (rctx ctx : Ctx) (s : Engine) (key : Bytes) (interval : Int64) : Prop where
  future : 0 < interval.toInt → rctx.nowSec < ctx.nowSec + interval.toInt.toNat ∧
    (ctx.nowSec + interval.toInt.toNat + 1) * 1000 ≤ 2 ^ 64
  past : interval.toInt = 0 → s.hasExpiration key = false ∧ ctx.nowSec ≤ rctx.nowSec

/-- A command whose effect outlives the process. -/
structure Lasting (boot : Boot) (s : Engine) (request : Ctx × List Bytes) : Prop where
  live : Live request.1
  clock : request.1.now < 2 ^ 64
  faithful : Faithful s request.1 request.2
  timely : ∀ interval, intervalOf request.1 request.2 = some interval →
    (s.holder.view (keyOf request.2)).isSome →
    ∀ i, Timely (boot.ctx i) request.1 s (arg request.2 1) interval

/-! ## Commands without an expiration -/

section

variable {ctx : Ctx} {s t : Engine}

/-- What such a command logs is of its kind. -/
theorem handler_quiet (hok : s.holder.Ok) {op : Opcode} (hop : op.expires = false)
    (args : List Bytes) :
    (op.handler ctx s (op.name :: args)).1.log = s.log ∨ ∃ (op' : Opcode) (args' : List Bytes),
      (op.handler ctx s (op.name :: args)).1.log = s.log ++ [op'.name :: args'] ∧
        op'.expires = false := by
  cases hsingle : op.single with
  | true =>
      have ha : Affects ctx s (op.name :: args) _ _ := handler_affects hok op hsingle
      rw [affects_log ha]
      split
      · exact .inr ⟨op, args, rfl, hop⟩
      · exact .inl (List.append_nil _)
  | false =>
      cases op with
      | del =>
          unfold Opcode.handler delCommand checkSyntaxHelper Engine.addIntoAppendable
          dsimp only
          split
          · split
            · exact .inr ⟨.del, args, rfl, rfl⟩
            · exact .inl rfl
          · exact .inl rfl
      | evict =>
          unfold Opcode.handler evictCommand checkSyntaxHelper Engine.addIntoAppendable
          dsimp only
          split
          · split
            · exact .inl rfl
            · split
              · exact .inr ⟨.del, _, rfl, rfl⟩
              · exact .inl rfl
          · exact .inl rfl
      | expire => cases hop
      | expireat => cases hop
      | _ => cases hsingle

/-- And it leaves the deadlines alone. -/
theorem handler_deadlineSec (hok : s.holder.Ok) {op : Opcode} (hop : op.expires = false)
    (argv : List Bytes) (key : Bytes) :
    (op.handler ctx s argv).1.deadlineSec key = s.deadlineSec key := by
  obtain ⟨hexp, htev⟩ := handler_timers hok ctx hop argv
  rw [Engine.deadlineSec, Engine.deadline, hexp, htev]
  rfl

theorem handleCommand_paired (hs : s.Paired) (argv : List Bytes) :
    (s.handleCommand ctx argv).1.Paired := step_paired hs (.command ctx argv)

end

/-- `s'` has logged more, and what it has logged, replayed, restores it. -/
def Lasts (boot : Boot) (s t s' : Engine) : Prop :=
  ∃ new, s'.log = s.log ++ new ∧ ∀ n, s'.Restores (t.replayAt (fun i => boot.ctx (i + n)) new)

section

variable {boot : Boot} {ctx : Ctx} {s t : Engine} (hboot : boot.Replaying) (hl : Live ctx)
  (h : s.Restores t)

include h

theorem lasts_self : Lasts boot s t s := ⟨[], (List.append_nil _).symm, fun _ => h⟩

include hboot hl

omit boot h hboot in
/-- What such a command logs brings a mirror along at any time. -/
theorem quiet_follows {rctx : Ctx} (hr : Replays rctx) (hm : Mirrors s t) {op : Opcode}
    (hop : op.expires = false) {argv : List Bytes} (hname : opcodeOf argv = some op)
    (hf : Faithful s ctx argv) :
    Follows rctx s t (op.handler ctx s (op.name :: argv.drop 1)).1 := by
  have hmis := hf op hname
  rw [lowered_eq hname] at hmis
  cases hsingle : op.single with
  | true =>
      refine follows_single hl hr hm hsingle fun hp => hmis ?_
      cases op with
      | evict | expire | expireat => cases hsingle
      | _ => exact hp
  | false =>
      cases op with
      | evict => exact follows_evict hl hr hm hmis
      | del => exact follows_del hl hr hm
      | expire => cases hop
      | expireat => cases hop
      | _ => cases hsingle

/-- A command that neither sets nor removes an expiration. -/
theorem lasts_quiet {op : Opcode} (hop : op.expires = false) {argv : List Bytes}
    (hname : opcodeOf argv = some op) (hf : Faithful s ctx argv) :
    Lasts boot s t (s.handleCommand ctx argv).1 := by
  have hpaired : (s.handleCommand ctx argv).1.Paired := handleCommand_paired h.live argv
  have hrun : (s.handleCommand ctx argv).1 = (op.handler ctx s (op.name :: argv.drop 1)).1 := by
    rw [handleCommand_eq s hl.pressure, hname, lowered_eq hname]
  rw [hrun] at hpaired ⊢
  have hsec : ∀ key, (op.handler ctx s (op.name :: argv.drop 1)).1.deadlineSec key
      = s.deadlineSec key := handler_deadlineSec h.live.ok.1 hop _
  have hfollows := fun i => quiet_follows hl (hboot i) h.mirrors hop hname hf
  rcases handler_quiet h.live.ok.1 hop (argv.drop 1) with hlog | ⟨op', args', hlog, hop'⟩
  · refine ⟨[], hlog.trans (List.append_nil _).symm, fun n => ⟨hpaired, h.replayed, ?_, ?_⟩⟩
    · obtain ⟨new, hnew, hm⟩ := hfollows 0
      rw [hlog, List.self_eq_append_right] at hnew
      rw [hnew] at hm
      exact hm.view
    · exact fun key => (h.seconds key).trans (hsec key).symm
  · refine ⟨_, hlog, fun n => ?_⟩
    obtain ⟨new, hnew, hm⟩ := hfollows (0 + n)
    rw [hlog] at hnew
    rw [← List.append_cancel_left hnew] at hm
    refine ⟨hpaired, handleCommand_paired h.replayed _, hm.view, fun key => ?_⟩
    have hquiet : (op'.handler (boot.ctx (0 + n)) t (op'.name :: args')).1.deadlineSec key
        = t.deadlineSec key := handler_deadlineSec h.replayed.ok.1 hop' _ key
    rw [Engine.replayAt, Engine.replayAt, handleCommand_logged t (hboot _).pressure, hquiet, hsec]
    exact h.seconds key

/-! ## Expirations -/

omit boot ctx s t hboot hl h in
/-- The second of a deadline that is in range. -/
theorem second_of_deadline (ctx : Ctx) (n : Nat) (h : (ctx.nowSec + n + 1) * 1000 ≤ 2 ^ 64) :
    addMillSecToNowMillSec ctx.now (n * 1000 % 2 ^ 64) / 1000 = ctx.nowSec + n := by
  unfold Ctx.nowSec at h ⊢
  have hn : n * 1000 % 2 ^ 64 = n * 1000 := Nat.mod_eq_of_lt (by omega)
  have hsum : (ctx.now + n * 1000) % 2 ^ 64 = ctx.now + n * 1000 := Nat.mod_eq_of_lt (by omega)
  rw [addMillSecToNowMillSec, hn, hsum]
  omega

omit boot ctx s t hboot hl h in
/-- The time that is logged, read at another time. -/
theorem interval_of_logged {rctx : Ctx} (hclock : rctx.now < 2 ^ 64) {sec : Nat}
    (hsec : sec < 2 ^ 63) :
    ∃ unixSec, canConvertToInt64 (natToString (sec % 2 ^ 64)) = some unixSec ∧
      (expireInterval rctx unixSec).toInt = max ((sec : Int) - rctx.nowSec) 0 := by
  have hval : (Int64.ofNat sec).toInt = sec := Int64.toInt_ofNat_of_lt hsec
  have hrsec : rctx.nowSec < 2 ^ 63 := by
    unfold Ctx.nowSec
    omega
  refine ⟨Int64.ofNat sec, ?_, ?_⟩
  · rw [canConvertToInt64_eq_some, hval, intToString, if_neg (by omega),
      Nat.mod_eq_of_lt (by omega)]
    congr 1
  · rw [toInt_expireInterval hclock (by omega), hval]

omit boot ctx s t hboot hl h in
/-- Of a deadline in the future both processes know the second. -/
theorem deadline_future {ctx rctx : Ctx} {interval rinterval : Int64} (old old' : Option Nat)
    (hpos : 0 < interval.toInt) (hleft : rctx.nowSec < ctx.nowSec + interval.toInt.toNat)
    (hrange : (ctx.nowSec + interval.toInt.toNat + 1) * 1000 ≤ 2 ^ 64)
    (hint : rinterval.toInt
      = max ((ctx.nowSec + interval.toInt.toNat : Nat) - (rctx.nowSec : Int)) 0) :
    (deadlineAfter rctx.now rinterval old').map (· / 1000)
      = (deadlineAfter ctx.now interval old).map (· / 1000) := by
  have hrpos : 0 < rinterval.toInt := by omega
  have hnat : rinterval.toInt.toNat = ctx.nowSec + interval.toInt.toNat - rctx.nowSec := by omega
  have hsum : rctx.nowSec + rinterval.toInt.toNat = ctx.nowSec + interval.toInt.toNat := by omega
  have hsec := second_of_deadline ctx interval.toInt.toNat hrange
  have hrsec := second_of_deadline rctx rinterval.toInt.toNat (by rw [hsum]; exact hrange)
  rw [deadlineAfter, deadlineAfter, if_pos hrpos, if_pos hpos, Option.map_some, Option.map_some,
    hrsec, hsec, hsum]

/-- An expiration that is logged as `expireat` lasts when the process that replays it
deletes the key if the live one does, and gives it the same second. -/
theorem lasts_expireat (hclock : ∀ i, (boot.ctx i).now < 2 ^ 64) {key : Bytes} {interval : Int64}
    {s' : Engine} (hkey : (s.holder.view (.ofStdString key)).isSome) (hge : interval.toInt ≥ 0)
    (hlt : ctx.nowSec + interval.toInt.toNat < 2 ^ 63)
    (hset : s.setExpiration ctx key interval = some s')
    (hpaired : (s'.logExpiration ctx key interval).Paired)
    (halike : ∀ i (rinterval : Int64), rinterval.toInt
        = max ((ctx.nowSec + interval.toInt.toNat : Nat) - ((boot.ctx i).nowSec : Int)) 0 →
      (rinterval.toInt = 0 ↔ interval.toInt = 0) ∧
      (deadlineAfter (boot.ctx i).now rinterval (t.deadline key)).map (· / 1000)
        = (deadlineAfter ctx.now interval (s.deadline key)).map (· / 1000)) :
    Lasts boot s t (s'.logExpiration ctx key interval) := by
  obtain ⟨s₁, hs₁, -, hlog, hview, -⟩ := setExpiration_spec h.live.ok ctx key interval
  rw [hset] at hs₁
  cases hs₁
  have hdead : ∀ w, (s'.logExpiration ctx key interval).deadlineSec w = s'.deadlineSec w :=
    fun w => congrArg (Option.map (· / 1000)) (deadline_logExpiration s' ctx key interval w)
  have hholder : (s'.logExpiration ctx key interval).holder = s'.holder :=
    Engine.logExpiration_holder key interval
  refine ⟨[[ascii "expireat", key, natToString ((ctx.nowSec + interval.toInt.toNat) % 2 ^ 64)]],
    ?_, fun n => ?_⟩
  · rw [Engine.logExpiration, if_pos hge, Engine.addIntoAppendable, if_pos hl.sync, hlog]
  obtain ⟨unixSec, hconv, hint⟩ := interval_of_logged (hclock (0 + n)) hlt
  obtain ⟨hzero, hsec⟩ := halike (0 + n) _ hint
  have hrkey : (t.holder.view (.ofStdString key)).isSome := by
    rw [h.view]
    exact hkey
  have hrset := replay_expireat_sets (hboot (0 + n)) hconv h.replayed.ok hrkey
  obtain ⟨t', ht', -, -, hrview, -⟩ := setExpiration_spec h.replayed.ok (boot.ctx (0 + n)) key
    (expireInterval (boot.ctx (0 + n)) unixSec)
  rw [hrset] at ht'
  cases ht'
  rw [Engine.replayAt, Engine.replayAt]
  refine ⟨hpaired, handleCommand_paired h.replayed _, ?_, fun w => ?_⟩
  · rw [hholder, hrview, hview, h.view, h.mirrors.expirations]
    unfold storeAfterExpire
    simp only [hzero]
  · rw [hdead, Engine.deadlineSec, Engine.deadlineSec, deadline_setExpiration h.replayed hrset,
      deadline_setExpiration h.live hset]
    split
    · exact hsec
    · exact h.seconds w

omit boot hboot hl in
/-- One of no seconds: the key had no deadline, and has none. -/
theorem deadline_zero {rctx : Ctx} {key : Bytes} {interval rinterval : Int64}
    (hno : s.hasExpiration key = false) (hzero : interval.toInt = 0)
    (hrzero : rinterval.toInt = 0) :
    (deadlineAfter rctx.now rinterval (t.deadline key)).map (· / 1000)
      = (deadlineAfter ctx.now interval (s.deadline key)).map (· / 1000) := by
  have hnone : s.deadlineSec key = none := by
    rw [h.live.hasExpiration] at hno
    simpa using hno
  have hrnone : t.deadlineSec key = none := (h.seconds key).trans hnone
  have hold : s.deadline key = none := Option.map_eq_none_iff.mp hnone
  have hrold : t.deadline key = none := Option.map_eq_none_iff.mp hrnone
  rw [deadlineAfter, deadlineAfter, if_neg (by omega), if_pos hrzero, if_neg (by omega),
    if_pos hzero, hold, hrold]
  rfl

/-- One of a negative number of seconds, for a key without an expiration: nothing
happens to the live process, and what is logged changes nothing. -/
theorem lasts_negative {key : Bytes} {interval : Int64} {s' : Engine}
    (hno : s.hasExpiration key = false)
    (hrw : ∀ v, s.holder.view (.ofStdString key) = some v → ¬ v.RewriteChanges)
    (hneg : interval.toInt < 0) (hset : s.setExpiration ctx key interval = some s')
    (hpaired : (s'.logExpiration ctx key interval).Paired) :
    Lasts boot s t (s'.logExpiration ctx key interval) := by
  have hsame : s' = s := by
    cases setsExpiration hset with
    | create _ hpos => omega
    | delete _ hzero => omega
    | nothing => rfl
    | update _ hge' => omega
    | remove hfind =>
        rw [Engine.hasExpiration, hfind] at hno
        cases hno
  subst hsame
  have hge : ¬ interval.toInt ≥ 0 := by omega
  unfold Engine.logExpiration at hpaired ⊢
  rw [if_neg hge] at hpaired ⊢
  cases hrec : s'.holder.recoverCommandFromValue key with
  | none => exact lasts_self h
  | some recovered =>
      rw [hrec] at hpaired
      dsimp only at hpaired ⊢
      rw [Engine.addIntoAppendable, if_pos hl.sync] at hpaired ⊢
      refine ⟨_, rfl, fun n => ?_⟩
      have hm := replay_recovered (hboot (0 + n)) hrec h.mirrors hrw
      refine ⟨hpaired, handleCommand_paired h.replayed _, hm.view, fun w => ?_⟩
      rw [KVContainer.recoverCommandFromValue_eq, Option.map_eq_some_iff] at hrec
      obtain ⟨obj, -, rfl⟩ := hrec
      have hop : obj.payload.recoverOp.expires = false := by
        cases obj.payload <;> rfl
      rw [Engine.replayAt, Engine.replayAt, handleCommand_logged t (hboot _).pressure]
      refine (handler_deadlineSec h.replayed.ok.1 hop _ w).trans ?_
      exact h.seconds w

/-- An expiration that is timely. -/
theorem lasts_expiration (hclock : ∀ i, (boot.ctx i).now < 2 ^ 64) {key : Bytes} {interval : Int64}
    {s' : Engine} (hkey : (s.holder.view (.ofStdString key)).isSome)
    (hf : ¬ ExpirationMisreported s ctx key interval)
    (htimely : ∀ i, Timely (boot.ctx i) ctx s key interval)
    (hset : s.setExpiration ctx key interval = some s')
    (hpaired : (s'.logExpiration ctx key interval).Paired) :
    Lasts boot s t (s'.logExpiration ctx key interval) := by
  rcases lt_or_ge interval.toInt 0 with hneg | hge
  · refine lasts_negative hboot hl h ?_ (fun v hv hch => ?_) hneg hset hpaired
    · by_contra hyes
      exact hf ⟨hkey, .inr ⟨hneg, .inl (by simpa using hyes)⟩⟩
    · exact hf ⟨hkey, .inr ⟨hneg, .inr ⟨v, hv, hch⟩⟩⟩
  · have hlt : ctx.nowSec + interval.toInt.toNat < 2 ^ 63 := by
      by_contra hge'
      exact hf ⟨hkey, .inl ⟨hge, by omega⟩⟩
    refine lasts_expireat hboot hl h hclock hkey hge hlt hset hpaired fun i rinterval hint => ?_
    obtain ⟨hfuture, hpast⟩ := htimely i
    rcases Int.lt_or_eq_of_le hge with hpos | hzero
    · obtain ⟨hleft, hrange⟩ := hfuture hpos
      exact ⟨by omega, deadline_future _ _ hpos hleft hrange hint⟩
    · obtain ⟨hno, hleft⟩ := hpast hzero.symm
      have hrzero : rinterval.toInt = 0 := by omega
      exact ⟨by omega, deadline_zero h hno hzero.symm hrzero⟩

/-- An `expire` whose expiration, when it sets one, is logged rightly and timely. -/
theorem lasts_expire (hclock : ∀ i, (boot.ctx i).now < 2 ^ 64) {args : List Bytes}
    (hpaired : (expireCommand ctx s args).1.Paired)
    (hset : ∀ interval s', s.Expires ctx args interval s' →
      ¬ ExpirationMisreported s ctx (arg args 1) interval ∧
        ∀ i, Timely (boot.ctx i) ctx s (arg args 1) interval) :
    Lasts boot s t (expireCommand ctx s args).1 := by
  obtain ⟨hsame, -⟩ | ⟨interval, s', hexp, heq⟩ := expireCommand_cases s ctx args
  · rw [hsame]
    exact lasts_self h
  · obtain ⟨hmis, htimely⟩ := hset interval s' hexp
    have hex : (s.holder.view (keyOf args)).isSome := by
      rw [← KVContainer.keyExists_eq]
      exact hexp.exists_
    rw [heq] at hpaired ⊢
    exact lasts_expiration hboot hl h hclock hex hmis htimely hexp.set hpaired

/-- An `expireat` is an `expire` with the seconds that are left. -/
theorem lasts_expireAt (hclock : ∀ i, (boot.ctx i).now < 2 ^ 64) {args : List Bytes}
    (hpaired : (expireAtCommand ctx s args).1.Paired)
    (hset : ∀ unixSec s', checkSyntax args 1 1 false = true →
      canConvertToInt64 (arg args 2) = some unixSec →
      s.Expires ctx [arg args 0, arg args 1, intToString (expireInterval ctx unixSec).toInt]
        (expireInterval ctx unixSec) s' →
      ¬ ExpirationMisreported s ctx (arg args 1) (expireInterval ctx unixSec) ∧
        ∀ i, Timely (boot.ctx i) ctx s (arg args 1) (expireInterval ctx unixSec)) :
    Lasts boot s t (expireAtCommand ctx s args).1 := by
  unfold expireAtCommand checkSyntaxHelper at hpaired ⊢
  split at hpaired
  · rename_i hsyn
    rw [if_pos hsyn]
    cases hconv : canConvertToInt64 (arg args 2) with
    | none => exact lasts_self h
    | some unixSec =>
        rw [hconv] at hpaired
        dsimp only at hpaired ⊢
        refine lasts_expire hboot hl h hclock hpaired fun interval s' hexp => ?_
        have hself : canConvertToInt64 (intToString (expireInterval ctx unixSec).toInt)
            = some (expireInterval ctx unixSec) := canConvertToInt64_eq_some.mpr rfl
        obtain rfl : expireInterval ctx unixSec = interval :=
          Option.some.inj (hself.symm.trans hexp.number)
        exact hset unixSec s' hsyn hconv hexp
  · rename_i hsyn
    rw [if_neg hsyn]
    exact lasts_self h

/-- A command whose effect outlives the process. -/
theorem lasts_command (hclock : ∀ i, (boot.ctx i).now < 2 ^ 64) {argv : List Bytes}
    (hq : Lasting boot s (ctx, argv)) : Lasts boot s t (s.handleCommand ctx argv).1 := by
  have hpaired : (s.handleCommand ctx argv).1.Paired := handleCommand_paired h.live argv
  have hkey : keyOf (lowered argv) = keyOf argv :=
    congrArg StaticString.ofStdString (arg_lowered argv)
  have hsome : s.holder.keyExists (keyOf (lowered argv)) = true →
      (s.holder.view (keyOf argv)).isSome := by
    intro hex
    rwa [KVContainer.keyExists_eq, hkey] at hex
  cases hname : opcodeOf argv with
  | none =>
      rw [handleCommand_eq s hl.pressure, hname]
      exact lasts_self h
  | some op =>
      cases hop : op.expires with
      | false => exact lasts_quiet hboot hl h hop hname hq.faithful
      | true =>
          have hmis := hq.faithful op hname
          have hint := hq.timely
          rw [handleCommand_eq s hl.pressure, hname] at hpaired ⊢
          rw [intervalOf, hname, ← arg_lowered] at hint
          cases op with
          | expire =>
              refine lasts_expire hboot hl h hclock hpaired fun interval s' hexp =>
                ⟨fun hm => ?_, ?_⟩
              · exact hmis ⟨(checkSyntax_operands _ 1).mpr hexp.length, interval, hexp.number, hm⟩
              · exact hint interval hexp.number (hsome hexp.exists_)
          | expireat =>
              refine lasts_expireAt hboot hl h hclock hpaired fun unixSec s' hsyn hconv hexp =>
                ⟨fun hm => hmis ⟨hsyn, unixSec, hconv, hm⟩, ?_⟩
              rw [hconv] at hint
              exact hint _ rfl (hsome hexp.exists_)
          | _ => cases hop

end

/-! ## Runs -/

/-- The process after a command. -/
def Engine.request (s : Engine) (q : Ctx × List Bytes) : Engine := (s.handleCommand q.1 q.2).1

/-- In a run of commands that last, the log restores the process at every moment. -/
theorem run_restores {boot : Boot} (hboot : boot.Replaying)
    (hclock : ∀ i, (boot.ctx i).now < 2 ^ 64)
    (requests : List (Ctx × List Bytes)) :
    ∀ (s : Engine), s.Restores (.replayAt boot.ctx .new s.log) →
    Guarded Engine.request (Lasting boot) s requests →
    (requests.foldl Engine.request s).Restores
      (.replayAt boot.ctx .new (requests.foldl Engine.request s).log) := by
  induction requests with
  | nil => intro s h _; exact h
  | cons q requests ih =>
    intro s h hg
    obtain ⟨new, hlog, hm⟩ := lasts_command hboot hg.1.live h hclock hg.1
    refine ih (s.request q) ?_ hg.2
    have hlog' : (s.request q).log = s.log ++ new := hlog
    rw [hlog', Engine.replayAt_append]
    exact hm s.log.length

namespace Durable

/-- What a process makes of the commands it reads. -/
theorem readFromScratch_engine : ∀ (cs : List Command) (ctx : Nat → Ctx) (d : Durable),
    (readFromScratch ctx d (given cs)).engine = d.engine.replayAt ctx (cs.map Command.argv)
  | [], _, _ => rfl
  | c :: cs, ctx, d => readFromScratch_engine cs (fun i => ctx (i + 1))
      (d.appendLogged (d.engine.handleCommand (ctx 0) c.argv).1)

/-- **A restart keeps every key, every expiration, and every deadline in its
second**, when it comes before the first of them: for every run of commands that
log what they do, whatever the clock does while the file is read. -/
theorem start_keeps_deadlines (boot : Boot) (hboot : boot.Replaying)
    (hclock : ∀ i, (boot.ctx i).now < 2 ^ 64) (requests : List (Ctx × List Bytes))
    (hlasting : Guarded Engine.request (Lasting boot) .new requests) (cmds : List Command)
    (hlog : cmds.map Command.argv = (requests.foldl Engine.request .new).log) :
    (start boot (encodeAll cmds)).engine.holder.view
        = (requests.foldl Engine.request .new).holder.view ∧
      ∀ key, (start boot (encodeAll cmds)).engine.deadlineSec key
        = (requests.foldl Engine.request .new).deadlineSec key := by
  have h := run_restores hboot hclock requests .new Engine.restores_new hlasting
  have hstart : (start boot (encodeAll cmds)).engine
      = .replayAt boot.ctx .new (requests.foldl Engine.request .new).log := by
    rw [start, read_encodeAll, readFromScratch_engine, hlog]
  rw [hstart]
  exact ⟨h.view, h.seconds⟩

/-- A process that starts three seconds after the epoch. -/
def sampleLateBoot : Boot := ⟨2, fun i => { calm with now := 3000 + i % 2 }⟩

/-- A key is set at time 0, for ten seconds. -/
def sampleRequests : List (Ctx × List Bytes) :=
  [({ calm with sync := true }, [ascii "set", [97], [120]]),
    ({ calm with sync := true }, [ascii "expire", [97], ascii "10"])]

/-- What is in the file then. -/
def sampleFile : List Command :=
  [⟨[ascii "set", [97], [120]], by decide, by decide, by decide⟩,
    ⟨[ascii "expireat", [97], ascii "10"], by decide, by decide, by decide⟩]

theorem sampleRequests_last :
    Guarded Engine.request (Lasting sampleLateBoot) .new sampleRequests := by
  have hset : opcodeOf [ascii "set", [97], [120]] = some .set := by decide +kernel
  have hexpire : opcodeOf [ascii "expire", [97], ascii "10"] = some .expire := by decide +kernel
  have hten : ∀ interval, canConvertToInt64 (ascii "10") = some interval → interval = 10 := by
    intro interval h
    have h10 : canConvertToInt64 (ascii "10") = some 10 := by decide +kernel
    exact Option.some.inj (h.symm.trans h10)
  refine ⟨⟨⟨rfl, rfl⟩, by decide, ?_, ?_⟩, ⟨⟨rfl, rfl⟩, by decide, ?_, ?_⟩, trivial⟩
  · refine faithful_of_opcode .set hset ?_
    rintro ⟨-, left, hl, -⟩
    cases hl
  · intro interval hint
    rw [intervalOf, hset] at hint
    cases hint
  · refine faithful_of_opcode .expire hexpire ?_
    rintro ⟨-, interval, hint, -, hlost⟩
    obtain rfl := hten interval hint
    rcases hlost with ⟨-, hbig⟩ | ⟨hneg, -⟩
    · exact absurd hbig (by decide +kernel)
    · exact absurd hneg (by decide)
  · intro interval hint _ i
    rw [intervalOf, hexpire] at hint
    obtain rfl := hten interval hint
    refine ⟨fun _ => ⟨?_, by decide +kernel⟩, fun hzero => absurd hzero (by decide)⟩
    show (3000 + i % 2) / 1000 < 0 / 1000 + (10 : Int64).toInt.toNat
    have hnat : (10 : Int64).toInt.toNat = 10 := by decide
    omega

theorem start_keeps_deadlines_sample :
    (start sampleLateBoot (encodeAll sampleFile)).engine.holder.view
        = (sampleRequests.foldl Engine.request .new).holder.view ∧
      ∀ key, (start sampleLateBoot (encodeAll sampleFile)).engine.deadlineSec key
        = (sampleRequests.foldl Engine.request .new).deadlineSec key :=
  start_keeps_deadlines sampleLateBoot (fun _ => ⟨rfl, rfl⟩)
    (fun i => show 3000 + i % 2 < 2 ^ 64 by omega) sampleRequests sampleRequests_last sampleFile
    (by decide +kernel)

end Durable

end LiteKV
