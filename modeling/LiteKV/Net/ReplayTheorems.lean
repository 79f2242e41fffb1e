/-
LiteKV.Net.ReplayTheorems — replaying the AOF against the live store.

The live process and a process that is fed the log are related by `Mirrors`:
the same abstract store, expirations on the same keys, and in both every
expiration leads to a time event of its own. A command keeps the relation
when what it logs, replayed, does to the mirror what the command did to the
live process. `Faithful` is the condition under which it does; it names the
four ways in which a handler logs something else than what it did:

  a pop of an empty string is not logged;
  a random eviction reports other keys than it deleted;
  a negative `expire` logs a command that writes the value again, which
    lengthens a list, turns a string of digits into an integer, and leaves
    an expiration where the live process removed it;
  an expiration beyond the last 64-bit second is logged as a time that
    `expireat` does not read.
-/
import LiteKV.Net.CommandsTheorems
import LiteKV.Lib.Run

namespace LiteKV

open Lib Lib.AssocList Lib.Run

/-! ## Time events -/

namespace TimeEventHolder

theorem deref_isSome {t : TimeEventHolder} {id : Nat} :
    (t.deref id).isSome ↔ id ∈ t.eventList.map TimeEvent.id := by
  rw [deref, List.find?_isSome, List.mem_map]
  constructor
  · rintro ⟨ev, hev, hid⟩
    exact ⟨ev, hev, by simpa using hid⟩
  · rintro ⟨ev, hev, rfl⟩
    exact ⟨ev, hev, by simp⟩

theorem updateTimeEvent_spec {t : TimeEventHolder} {id : Nat} (h : (t.deref id).isSome)
    (now interval : Nat) (count : Int) :
    ∃ t', t.updateTimeEvent now id interval count = (t', true) ∧
      t'.timeEventId = t.timeEventId ∧
      t'.eventList.map TimeEvent.id = t.eventList.map TimeEvent.id := by
  obtain ⟨ev, hev⟩ := Option.isSome_iff_exists.mp h
  rw [updateTimeEvent, hev]
  refine ⟨_, rfl, rfl, ?_⟩
  rw [List.map_map]
  refine List.map_congr_left fun ev _ => ?_
  rw [Function.comp_apply]
  split <;> rfl

theorem removeTimeEvent_spec {t : TimeEventHolder} {id : Nat} (h : (t.deref id).isSome) :
    ∃ t', t.removeTimeEvent id = (t', true) ∧ t'.timeEventId = t.timeEventId ∧
      t'.eventList.map TimeEvent.id = (t.eventList.map TimeEvent.id).erase id := by
  obtain ⟨ev, hev⟩ := Option.isSome_iff_exists.mp h
  rw [removeTimeEvent, hev]
  refine ⟨_, rfl, rfl, ?_⟩
  show (t.eventList.eraseP fun ev => ev.id == id).map TimeEvent.id = _
  clear h hev ev
  induction t.eventList with
  | nil => rfl
  | cons e es ih =>
    rw [List.eraseP_cons, List.map_cons, List.erase_cons]
    by_cases he : e.id == id
    · simp [he]
    · simp [he, ih]

end TimeEventHolder

/-- Every expiration of the command handlers leads to a time event, no two to
the same, and no event has an id yet to come. -/
structure TimersOk (expires : ExpiresMap) (tev : TimeEventHolder) : Prop where
  keysNodup : (keys expires).Nodup
  idsNodup : (expires.map Prod.snd).Nodup
  live : ∀ e ∈ expires, e.2 ∈ tev.eventList.map TimeEvent.id
  fresh : ∀ ev ∈ tev.eventList, ev.id ≤ tev.timeEventId

theorem timersOk_new : TimersOk [] .new := by
  refine ⟨List.nodup_nil, List.nodup_nil, ?_, ?_⟩
  · intro e he
    cases he
  · intro ev hev
    cases hev

section

variable {expires : ExpiresMap} {tev : TimeEventHolder} (h : TimersOk expires tev)

include h

theorem TimersOk.deref {key : Bytes} {id : Nat} (hf : AssocList.find? key expires = some id) :
    (tev.deref id).isSome :=
  TimeEventHolder.deref_isSome.mpr (h.live _ (mem_of_find? hf))

theorem TimersOk.create {key : Bytes} (hf : AssocList.find? key expires = none)
    (now interval : Nat) (callback : Callback) (count : Int) :
    TimersOk ((key, (tev.createTimeEvent now interval callback count).2) :: expires)
      (tev.createTimeEvent now interval callback count).1 := by
  have hold : ∀ e ∈ expires, e.2 ≤ tev.timeEventId := by
    intro e he
    obtain ⟨ev, hev, hid⟩ := List.mem_map.mp (h.live e he)
    rw [← hid]
    exact h.fresh ev hev
  refine ⟨?_, ?_, ?_, ?_⟩
  · rw [keys_cons, List.nodup_cons]
    exact ⟨find?_eq_none.mp hf, h.keysNodup⟩
  · rw [List.map_cons, List.nodup_cons]
    refine ⟨fun hmem => ?_, h.idsNodup⟩
    obtain ⟨e, he, hid⟩ := List.mem_map.mp hmem
    have := hold e he
    simp only [TimeEventHolder.createTimeEvent] at hid
    omega
  · intro e he
    rcases List.mem_cons.mp he with rfl | he
    · simp [TimeEventHolder.createTimeEvent]
    · exact List.mem_cons_of_mem _ (h.live e he)
  · intro ev hev
    rcases List.mem_cons.mp hev with rfl | hev
    · exact Nat.le_refl _
    · exact Nat.le_succ_of_le (h.fresh ev hev)

theorem TimersOk.update {id : Nat} (hid : (tev.deref id).isSome) (now interval : Nat)
    (count : Int) : ∃ t', tev.updateTimeEvent now id interval count = (t', true) ∧
      TimersOk expires t' := by
  obtain ⟨t', ht', hnext, hids⟩ := TimeEventHolder.updateTimeEvent_spec hid now interval count
  refine ⟨t', ht', h.keysNodup, h.idsNodup, by rw [hids]; exact h.live, ?_⟩
  intro ev hev
  have hmem : ev.id ∈ tev.eventList.map TimeEvent.id := by
    rw [← hids]
    exact List.mem_map.mpr ⟨ev, hev, rfl⟩
  obtain ⟨ev', hev', hid'⟩ := List.mem_map.mp hmem
  rw [hnext, ← hid']
  exact h.fresh ev' hev'

theorem TimersOk.remove {key : Bytes} {id : Nat} (hf : AssocList.find? key expires = some id) :
    ∃ t', tev.removeTimeEvent id = (t', true) ∧ TimersOk (erase key expires) t' := by
  obtain ⟨t', ht', hnext, hids⟩ := TimeEventHolder.removeTimeEvent_spec (h.deref hf)
  refine ⟨t', ht', nodup_erase h.keysNodup, ?_, ?_, ?_⟩
  · exact h.idsNodup.sublist (List.Sublist.map _ List.eraseP_sublist)
  · -- another key's event is another event, so it is still there
    intro e he
    have hmem := mem_of_mem_erase he
    have hkey : e.1 ≠ key := by
      intro heq
      have h1 := find?_erase h.keysNodup key key
      rw [if_pos rfl, find?_eq_none] at h1
      exact h1 (List.mem_map.mpr ⟨e, he, heq⟩)
    have hne : e.2 ≠ id := by
      intro heq
      have h1 := List.inj_on_of_nodup_map h.idsNodup hmem (mem_of_find? hf) heq
      exact hkey (by rw [h1])
    rw [hids]
    exact (List.mem_erase_of_ne hne).mpr (h.live e hmem)
  · intro ev hev
    have hmem : ev.id ∈ tev.eventList.map TimeEvent.id := by
      have h1 : ev.id ∈ t'.eventList.map TimeEvent.id := List.mem_map.mpr ⟨ev, hev, rfl⟩
      rw [hids] at h1
      exact List.mem_of_mem_erase h1
    obtain ⟨ev', hev', hid'⟩ := List.mem_map.mp hmem
    rw [hnext, ← hid']
    exact h.fresh ev' hev'

end

/-! ## Expirations -/

namespace Engine

/-- What holds of the store and the timers while no timer fires. -/
def Ok (s : Engine) : Prop := s.holder.Ok ∧ TimersOk s.expires s.tev

theorem ok_new : new.Ok := ⟨KVContainer.ok_new, timersOk_new⟩

/-- `sExpiresMap.find(key) != sExpiresMap.end()`. -/
def hasExpiration (s : Engine) (key : Bytes) : Bool := (AssocList.find? key s.expires).isSome

end Engine

/-- The store after `expire` with an interval, given whether the key has an
expiration. -/
def storeAfterExpire (m : Store) (has : Bytes → Bool) (key : Bytes) (interval : Int64) : Store :=
  if has key = false ∧ interval.toInt = 0 then Function.update m (.ofStdString key) none else m

/-- The keys with an expiration after `expire`. -/
def expirationsAfter (has : Bytes → Bool) (key : Bytes) (interval : Int64) : Bytes → Bool :=
  if interval.toInt > 0 then Function.update has key true
  else if interval.toInt = 0 then has
  else Function.update has key false

/-- `expire` succeeds, and does to the store and to the set of expirations what
depends on them alone. -/
theorem setExpiration_spec {s : Engine} (hs : s.Ok) (ctx : Ctx) (key : Bytes) (interval : Int64) :
    ∃ s', s.setExpiration ctx key interval = some s' ∧ s'.Ok ∧ s'.log = s.log ∧
      s'.holder.view = storeAfterExpire s.holder.view s.hasExpiration key interval ∧
      s'.hasExpiration = expirationsAfter s.hasExpiration key interval := by
  obtain ⟨hok, htim⟩ := hs
  unfold Engine.setExpiration storeAfterExpire expirationsAfter
  cases hf : AssocList.find? key s.expires with
  | none =>
      have hhas : s.hasExpiration key = false := by rw [Engine.hasExpiration, hf]; rfl
      dsimp only
      by_cases hpos : interval.toInt > 0
      · have hne : ¬ (s.hasExpiration key = false ∧ interval.toInt = 0) := by omega
        rw [if_pos hpos, if_neg hne, if_pos hpos]
        refine ⟨_, rfl, ⟨hok, htim.create hf _ _ _ _⟩, rfl, rfl, ?_⟩
        funext k
        simp only [Engine.hasExpiration, find?_cons, Function.update_apply]
        by_cases hk : key = k
        · simp [hk]
        · simp [hk, Ne.symm hk]
      · rw [if_neg hpos, if_neg hpos]
        by_cases hz : interval.toInt = 0
        · rw [if_pos hz, if_pos ⟨hhas, hz⟩, if_pos hz]
          have hd := KVContainer.delete_acts hok (.ofStdString key)
          exact ⟨_, rfl, ⟨hd.1, htim⟩, rfl, hd.2, rfl⟩
        · rw [if_neg hz, if_neg (fun h => hz h.2), if_neg hz]
          refine ⟨s, rfl, ⟨hok, htim⟩, rfl, rfl, ?_⟩
          rw [← hhas, Function.update_eq_self]
  | some id =>
      have hhas : s.hasExpiration key = true := by rw [Engine.hasExpiration, hf]; rfl
      have hne : ¬ (s.hasExpiration key = false ∧ interval.toInt = 0) := by
        rw [hhas]
        simp
      dsimp only
      rw [if_neg hne]
      by_cases hge : interval.toInt ≥ 0
      · obtain ⟨t', ht', hok'⟩ := htim.update (htim.deref hf) ctx.now
          (interval.toInt.toNat * 1000 % 2 ^ 64) 1
        rw [if_pos hge, ht']
        refine ⟨_, rfl, ⟨hok, hok'⟩, rfl, rfl, ?_⟩
        split
        · rw [← hhas, Function.update_eq_self]
          rfl
        · rw [if_pos (by omega)]
          rfl
      · obtain ⟨t', ht', hok'⟩ := htim.remove hf
        rw [if_neg hge, ht', if_neg (by omega), if_neg (by omega)]
        refine ⟨_, rfl, ⟨hok, hok'⟩, rfl, rfl, ?_⟩
        funext k
        simp only [Engine.hasExpiration, find?_erase htim.keysNodup, Function.update_apply]
        split <;> rfl

/-! ## The mirror -/

/-- `t` shows what `s` holds. -/
structure Mirrors (s t : Engine) : Prop where
  liveOk : s.Ok
  replayOk : t.Ok
  view : t.holder.view = s.holder.view
  expirations : t.hasExpiration = s.hasExpiration

theorem mirrors_new : Mirrors .new .new := ⟨Engine.ok_new, Engine.ok_new, rfl, rfl⟩

/-- Feeding logged commands to a process. -/
def Engine.replay (t : Engine) (ctx : Ctx) (log : List (List Bytes)) : Engine :=
  log.foldl (fun t argv => (t.handleCommand ctx argv).1) t

/-- A command that is replayed: nothing is logged and nothing is evicted. -/
structure Replays (ctx : Ctx) : Prop where
  sync : ctx.sync = false
  pressure : ctx.pressure = none

section

variable {rctx : Ctx} (hr : Replays rctx) {s t : Engine}

theorem affects_log {ctx : Ctx} {argv : List Bytes} {e : Cell → Cell × Bool} {s s' : Engine}
    (h : Affects ctx s argv e s') : s'.log
      = s.log ++ if ctx.sync && (e (s.holder.view (keyOf argv))).2 then [argv] else [] :=
  congrArg Engine.log h.rest

theorem affects_ok {ctx : Ctx} {argv : List Bytes} {e : Cell → Cell × Bool} {s s' : Engine}
    (h : Affects ctx s argv e s') (hs : s.Ok) : s'.Ok ∧ s'.hasExpiration = s.hasExpiration := by
  have hexp : s'.expires = s.expires := (congrArg Engine.expires h.rest).trans rfl
  have htev : s'.tev = s.tev := (congrArg Engine.tev h.rest).trans rfl
  refine ⟨⟨h.acts.1, by rw [hexp, htev]; exact hs.2⟩, ?_⟩
  funext k
  rw [Engine.hasExpiration, Engine.hasExpiration, hexp]

include hr

/-- Replaying a command on one key that the live process ran as well. -/
theorem mirrors_single {ctx : Ctx} {op : Opcode} (hop : op.single = true) {args : List Bytes}
    {s' : Engine} (h : Mirrors s t)
    (ha : Affects ctx s (op.name :: args) (op.effect (op.name :: args)) s') :
    Mirrors s' (t.handleCommand rctx (op.name :: args)).1 := by
  rw [handleCommand_logged t hr.pressure]
  have ht : Affects rctx t (op.name :: args) _ _ := handler_affects h.replayOk.1 op hop
  obtain ⟨hok, hexp⟩ := affects_ok ha h.liveOk
  obtain ⟨hok', hexp'⟩ := affects_ok ht h.replayOk
  refine ⟨hok, hok', ?_, ?_⟩
  · rw [ht.acts.2, ha.acts.2, h.view]
  · rw [hexp', hexp, h.expirations]

/-- Replaying a command on one key that leaves the key as it is. -/
theorem mirrors_idle (op : Opcode) (hop : op.single = true) {args : List Bytes}
    (h : Mirrors s t)
    (he : (op.effect (op.name :: args) (s.holder.view (keyOf (op.name :: args)))).1
      = s.holder.view (keyOf (op.name :: args))) :
    Mirrors s (t.handleCommand rctx (op.name :: args)).1 := by
  rw [handleCommand_logged t hr.pressure]
  have ht : Affects rctx t (op.name :: args) _ _ := handler_affects h.replayOk.1 op hop
  obtain ⟨hok', hexp'⟩ := affects_ok ht h.replayOk
  refine ⟨h.liveOk, hok', ?_, ?_⟩
  · rw [ht.acts.2, h.view]
    beta_reduce
    rw [he, Function.update_eq_self]
  · rw [hexp', h.expirations]

/-- Replaying a `del` of the keys a store has lost. -/
theorem mirrors_del {names : List Bytes} {s' : Engine} (h : Mirrors s t) (hs' : s'.Ok)
    (hexp : s'.hasExpiration = s.hasExpiration)
    (hview : s'.holder.view = fun k =>
      if k ∈ names.map StaticString.ofStdString then none else s.holder.view k) :
    Mirrors s' (t.handleCommand rctx (ascii "del" :: names)).1 := by
  have hlog := handleCommand_logged t hr.pressure .del names
  rw [show ascii "del" :: names = Opcode.name .del :: names from rfl, hlog]
  unfold Opcode.handler delCommand checkSyntaxHelper
  dsimp only
  obtain ⟨hdok, hdview⟩ := KVContainer.deleteAll_spec h.replayOk.1 names
  split
  · simp only [Engine.addIntoAppendable, hr.sync, Bool.false_eq_true, if_false,
      List.drop_succ_cons, List.drop_zero]
    refine ⟨hs', ⟨hdok, h.replayOk.2⟩, ?_, ?_⟩
    · rw [hdview, hview, h.view]
    · rw [hexp, ← h.expirations]
      rfl
  · -- a bare `del` is refused; there was nothing to delete
    rename_i hsyn
    have hnil : names = [] := by
      cases names with
      | nil => rfl
      | cons n names => exact absurd (by simp [checkSyntax]) hsyn
    refine ⟨hs', h.replayOk, ?_, ?_⟩
    · rw [hview, hnil, h.view]
      simp
    · rw [hexp, h.expirations]

/-! ## Expirations in the mirror -/

omit hr in
/-- An interval whose end is within 64 bits is read back from the time that was
logged for it. -/
theorem expireInterval_logged (ctx : Ctx) (hsec : ctx.nowSec < 2 ^ 63) {interval : Int64}
    (hge : 0 ≤ interval.toInt) (hlt : ctx.nowSec + interval.toInt.toNat < 2 ^ 63) :
    ∃ unixSec, canConvertToInt64 (natToString ((ctx.nowSec + interval.toInt.toNat) % 2 ^ 64))
        = some unixSec ∧ expireInterval ctx unixSec = interval := by
  have hnat : (ctx.nowSec + interval.toInt.toNat) % 2 ^ 64 = ctx.nowSec + interval.toInt.toNat :=
    Nat.mod_eq_of_lt (by omega)
  have hsum : (Int64.ofNat ctx.nowSec + interval).toInt = ctx.nowSec + interval.toInt.toNat := by
    rw [Int64.toInt_add, Int64.toInt_ofNat_of_lt hsec, Int.bmod_eq_of_le (by omega) (by omega)]
    omega
  refine ⟨Int64.ofNat ctx.nowSec + interval, ?_, ?_⟩
  · rw [canConvertToInt64_eq_some, hsum, hnat, intToString, if_neg (by omega)]
    congr 1
  · have hd : Int64.ofNat ctx.nowSec + interval - Int64.ofNat ctx.nowSec = interval := by
      rw [Int64.add_comm, Int64.add_sub_cancel]
    simp only [expireInterval, hd]
    rw [if_neg (by omega)]

omit hr in
theorem expireCommand_runs {ctx : Ctx} {s : Engine} {w key word : Bytes} {interval : Int64}
    (hkey : (s.holder.view (.ofStdString key)).isSome)
    (hconv : canConvertToInt64 word = some interval) :
    expireCommand ctx s [w, key, word] = match s.setExpiration ctx key interval with
      | none => (s, .ok kInt0Msg)
      | some s => (s.logExpiration ctx key interval, .ok kInt1Msg) := by
  have hsyn : checkSyntax [w, key, word] 1 1 false = true := rfl
  have hexists : s.holder.keyExists (.ofStdString (arg [w, key, word] 1)) = true := by
    rw [KVContainer.keyExists_eq]
    exact hkey
  have hword : canConvertToInt64 (arg [w, key, word] 2) = some interval := hconv
  rw [expireCommand, checkSyntaxHelper, if_pos hsyn]
  simp only [hexists, hword]
  rfl

omit hr in
theorem expireAtCommand_runs {ctx : Ctx} {s : Engine} {w key word : Bytes} {unixSec : Int64}
    (hconv : canConvertToInt64 word = some unixSec) :
    expireAtCommand ctx s [w, key, word]
      = expireCommand ctx s [w, key, intToString (expireInterval ctx unixSec).toInt] := by
  have hsyn : checkSyntax [w, key, word] 1 1 false = true := rfl
  have hword : canConvertToInt64 (arg [w, key, word] 2) = some unixSec := hconv
  rw [expireAtCommand, checkSyntaxHelper, if_pos hsyn]
  simp only [hword]
  rfl

/-- A process after `expire`, seen from outside. -/
structure Expired (s : Engine) (key : Bytes) (interval : Int64) (s' : Engine) : Prop where
  ok : s'.Ok
  view : s'.holder.view = storeAfterExpire s.holder.view s.hasExpiration key interval
  expirations : s'.hasExpiration = expirationsAfter s.hasExpiration key interval

omit hr in
theorem expireInterval_nonneg (ctx : Ctx) (unixSec : Int64) :
    0 ≤ (expireInterval ctx unixSec).toInt := by
  unfold expireInterval
  dsimp only
  split
  · decide
  · omega

/-- Replaying an `expireat` that can be read sets the expiration. -/
theorem replay_expireat_sets {key word : Bytes} {unixSec : Int64}
    (hconv : canConvertToInt64 word = some unixSec) (ht : t.Ok)
    (hkey : (t.holder.view (.ofStdString key)).isSome) :
    t.setExpiration rctx key (expireInterval rctx unixSec)
      = some (t.handleCommand rctx [ascii "expireat", key, word]).1 := by
  obtain ⟨t', hset, -⟩ := setExpiration_spec ht rctx key (expireInterval rctx unixSec)
  have hge := expireInterval_nonneg rctx unixSec
  have hself : canConvertToInt64 (intToString (expireInterval rctx unixSec).toInt)
      = some (expireInterval rctx unixSec) := canConvertToInt64_eq_some.mpr rfl
  have hrun : (t.handleCommand rctx [ascii "expireat", key, word]).1 = t' := by
    rw [show ascii "expireat" = Opcode.name .expireat from rfl,
      handleCommand_logged t hr.pressure .expireat, Opcode.handler, expireAtCommand_runs hconv,
      expireCommand_runs hkey hself, hset]
    simp only [Engine.logExpiration, ge_iff_le, hge, if_true, Engine.addIntoAppendable, hr.sync,
      Bool.false_eq_true, if_false]
  rw [hset, hrun]

theorem replay_expireat_word {key word : Bytes} {unixSec : Int64}
    (hconv : canConvertToInt64 word = some unixSec) (ht : t.Ok)
    (hkey : (t.holder.view (.ofStdString key)).isSome) :
    Expired t key (expireInterval rctx unixSec)
      (t.handleCommand rctx [ascii "expireat", key, word]).1 := by
  obtain ⟨t', hset, hok, -, hview, hexp⟩ :=
    setExpiration_spec ht rctx key (expireInterval rctx unixSec)
  rw [replay_expireat_sets hr hconv ht hkey] at hset
  cases hset
  exact ⟨hok, hview, hexp⟩

/-- Replaying the `expireat` that was logged for an interval. -/
theorem replay_expireat (hsec : rctx.nowSec < 2 ^ 63) {key : Bytes} {interval : Int64}
    (hge : 0 ≤ interval.toInt) (hlt : rctx.nowSec + interval.toInt.toNat < 2 ^ 63) (ht : t.Ok)
    (hkey : (t.holder.view (.ofStdString key)).isSome) :
    Expired t key interval (t.handleCommand rctx [ascii "expireat", key,
      natToString ((rctx.nowSec + interval.toInt.toNat) % 2 ^ 64)]).1 := by
  obtain ⟨unixSec, hconv, hint⟩ := expireInterval_logged rctx hsec hge hlt
  rw [← hint] at hconv ⊢
  exact replay_expireat_word hr hconv ht hkey

/-- Writing the value again does not give the value back: a list gets its
elements twice, a string of digits becomes an integer. -/
def Value.RewriteChanges : Value → Prop
  | .list l => l ≠ []
  | .string s => (canConvertToInt64 s).isSome
  | _ => False

omit hr in
theorem effect_idle {op : Opcode} {argv : List Bytes} {c : Cell} (h : (op.body argv c).1 = c) :
    (op.effect argv c).1 = c := by
  unfold Opcode.effect
  split
  · exact h
  · rfl

omit hr in
theorem fieldValues_flatMap (es : List (Bytes × Bytes)) :
    fieldValues (es.flatMap fun e => [e.1, e.2]) = es := by
  induction es with
  | nil => rfl
  | cons e es ih => simp [fieldValues, ih]

omit hr in
/-- Writing entries that are there changes nothing. -/
theorem updated_self (o : DictObject) : Cell.updated o.allEntries o.lookup = o.lookup := by
  obtain ⟨hn, -, hfind⟩ := o.entries_spec
  rw [updated_eq_find? _ _ hn]
  funext k
  rw [hfind, Option.or_self]

/-- Replaying the command that sets a key to its current value. -/
theorem replay_recovered {key : Bytes} {argv : List Bytes}
    (hrec : s.holder.recoverCommandFromValue key = some argv) (h : Mirrors s t)
    (hv : ∀ v, s.holder.view (.ofStdString key) = some v → ¬ v.RewriteChanges) :
    Mirrors s (t.handleCommand rctx argv).1 := by
  rw [KVContainer.recoverCommandFromValue, Option.map_eq_some_iff] at hrec
  obtain ⟨obj, hobj, rfl⟩ := hrec
  have hview := KVContainer.view_of_find hobj
  have hch := hv _ hview
  cases hp : obj.payload with
  | int v =>
      rw [hp] at hview
      refine mirrors_idle hr .set rfl h (effect_idle ?_)
      have htext : canConvertToInt64 (intToString v.toInt) = some v :=
        canConvertToInt64_eq_some.mpr rfl
      refine Eq.trans ?_ hview.symm
      show some (Value.ofText (intToString v.toInt)) = _
      rw [Value.ofText, htext]
      rfl
  | string str =>
      rw [hp] at hview hch
      refine mirrors_idle hr .set rfl h (effect_idle ?_)
      have htext : canConvertToInt64 str = none := by
        simpa [Payload.toValue, Value.RewriteChanges] using hch
      refine Eq.trans ?_ hview.symm
      show some (Value.ofText str) = _
      rw [Value.ofText, htext]
      rfl
  | list o =>
      rw [hp] at hview hch
      have hnil : o.toList = [] := by
        simpa [Payload.toValue, Value.RewriteChanges] using hch
      refine mirrors_idle hr .rpush rfl h (effect_idle ?_)
      show (Cell.push false o.toList (s.holder.view (.ofStdString key))).1 = _
      rw [show s.holder.view (keyOf (Opcode.name .rpush :: key :: o.toList)) = _ from hview,
        hview, hnil]
      simp [Cell.push, Cell.createOnCell, Payload.toValue, Value.asList, Cell.pushed, hnil]
  | hash o =>
      rw [hp] at hview
      refine mirrors_idle hr .hset rfl h (effect_idle ?_)
      show (Cell.updateFields (fieldValues (o.allEntries.flatMap fun e => [e.1, e.2]))
        (s.holder.view (.ofStdString key))).1 = _
      rw [fieldValues_flatMap, hview]
      refine Eq.trans ?_ hview.symm
      simp only [Cell.updateFields, Cell.createOnCell, Payload.toValue, Value.asHash, updated_self]
  | set o =>
      rw [hp] at hview
      refine mirrors_idle hr .sadd rfl h (effect_idle ?_)
      show (Cell.addMembers o.allKeys (s.holder.view (.ofStdString key))).1 = _
      rw [hview]
      refine Eq.trans ?_ hview.symm
      have hmem := o.members_spec.2
      simp only [Cell.addMembers, Cell.createOnCell, Payload.toValue, Value.asSet, ← hmem,
        Bool.or_self]

end

/-! ## One command -/

/-- What `expire` logs for an interval, replayed, does something else. -/
def ExpirationMisreported (s : Engine) (ctx : Ctx) (key : Bytes) (interval : Int64) : Prop :=
  (s.holder.view (.ofStdString key)).isSome ∧
    ((0 ≤ interval.toInt ∧ 2 ^ 63 ≤ ctx.nowSec + interval.toInt.toNat) ∨
      (interval.toInt < 0 ∧ (s.hasExpiration key = true ∨
        ∃ v, s.holder.view (.ofStdString key) = some v ∧ v.RewriteChanges)))

/-- The command reaches a place where the handlers log something else than what
they did. -/
def Misreports (s : Engine) (ctx : Ctx) (op : Opcode) (argv : List Bytes) : Prop :=
  match op with
  | .evict =>
      checkSyntax argv 1 0 false = true ∧ ctx.policy = .random ∧ s.holder.keysPool ≠ [] ∧
        ∃ n, canConvertToUInt64 (arg argv 1) = some n ∧ n ≠ 0
  | .expire =>
      checkSyntax argv 1 1 false = true ∧
        ∃ interval, canConvertToInt64 (arg argv 2) = some interval ∧
          ExpirationMisreported s ctx (arg argv 1) interval
  | .expireat =>
      checkSyntax argv 1 1 false = true ∧
        ∃ unixSec, canConvertToInt64 (arg argv 2) = some unixSec ∧
          ExpirationMisreported s ctx (arg argv 1) (expireInterval ctx unixSec)
  | op => PopsEmpty op argv (s.holder.view (keyOf argv))

/-- The command logs what it does. -/
def Faithful (s : Engine) (ctx : Ctx) (argv : List Bytes) : Prop :=
  ∀ op, opcodeOf argv = some op → ¬ Misreports s ctx op (lowered argv)

/-- A command of the live process: everything is logged, nothing is evicted for
memory. -/
structure Live (ctx : Ctx) : Prop where
  sync : ctx.sync = true
  pressure : ctx.pressure = none

section

variable {ctx rctx : Ctx} (hl : Live ctx) (hr : Replays rctx) (hnow : rctx.now = ctx.now)
  (hsec : ctx.nowSec < 2 ^ 63) {s t : Engine} (h : Mirrors s t)

/-- `s'` has logged more, and what it has logged brings the mirror along. -/
def Follows (rctx : Ctx) (s t s' : Engine) : Prop :=
  ∃ new, s'.log = s.log ++ new ∧ Mirrors s' (t.replay rctx new)

include hl hr h

omit hl hr in
theorem follows_self : Follows rctx s t s := ⟨[], by simp, h⟩

theorem follows_single {op : Opcode} (hop : op.single = true) {args : List Bytes}
    (hf : ¬ PopsEmpty op (op.name :: args) (s.holder.view (keyOf (op.name :: args)))) :
    Follows rctx s t (op.handler ctx s (op.name :: args)).1 := by
  have ha : Affects ctx s (op.name :: args) _ _ := handler_affects h.liveOk.1 op hop
  have hlog := affects_log ha
  rw [hl.sync, Bool.true_and] at hlog
  cases he : (op.effect (op.name :: args) (s.holder.view (keyOf (op.name :: args)))).2 with
  | true =>
      rw [he, if_pos rfl] at hlog
      exact ⟨_, hlog, mirrors_single hr hop h ha⟩
  | false =>
      rw [he] at hlog
      obtain ⟨hok, hexp⟩ := affects_ok ha h.liveOk
      refine ⟨[], by simpa using hlog, hok, h.replayOk, ?_, ?_⟩
      · rw [ha.acts.2]
        beta_reduce
        rw [effect_silent he hf, Function.update_eq_self]
        exact h.view
      · rw [hexp]
        exact h.expirations

theorem follows_del {args : List Bytes} :
    Follows rctx s t (delCommand ctx s (Opcode.name .del :: args)).1 := by
  unfold delCommand checkSyntaxHelper
  split
  · obtain ⟨hok, hview⟩ := KVContainer.deleteAll_spec h.liveOk.1 args
    simp only [Engine.addIntoAppendable, hl.sync, if_true, List.drop_succ_cons, List.drop_zero]
    exact ⟨_, rfl, mirrors_del hr h ⟨hok, h.liveOk.2⟩ rfl hview⟩
  · exact follows_self h

theorem follows_evict {argv : List Bytes} (hf : ¬ Misreports s ctx .evict argv) :
    Follows rctx s t (evictCommand ctx s argv).1 := by
  unfold evictCommand checkSyntaxHelper
  split
  · rename_i hsyn
    split
    · exact follows_self h
    · rename_i n hn
      have hev : (s.holder.keyEviction ctx.policy n ctx.evict).1.Ok ∧
          (s.holder.keyEviction ctx.policy n ctx.evict).1.view = fun k =>
            if k ∈ (s.holder.keyEviction ctx.policy n ctx.evict).2.map StaticString.ofStdString
            then none else s.holder.view k := by
        have hnone : s.holder.Ok ∧ s.holder.view = fun k =>
            if k ∈ ([] : List Bytes).map StaticString.ofStdString then none
            else s.holder.view k := ⟨h.liveOk.1, by simp⟩
        unfold KVContainer.keyEviction
        split
        · exact hnone
        · rename_i hpool
          cases hpol : ctx.policy with
          | lru =>
              dsimp only
              split
              · exact hnone
              · exact KVContainer.evictLru_spec ctx.evict _ 0 h.liveOk.1
          | random =>
              have hn0 : n = 0 := by
                by_contra hn0
                exact hf ⟨hsyn, hpol, by simpa using hpool, n, hn, hn0⟩
              rw [hn0, Nat.min_zero]
              exact hnone
      simp only [Engine.addIntoAppendable, hl.sync, if_true]
      exact ⟨_, rfl, mirrors_del hr h ⟨hev.1, h.liveOk.2⟩ rfl hev.2⟩
  · exact follows_self h

include hnow hsec

theorem follows_expiration {key : Bytes} {interval : Int64} {s' : Engine}
    (hkey : (s.holder.view (.ofStdString key)).isSome)
    (hf : ¬ ExpirationMisreported s ctx key interval)
    (hset : s.setExpiration ctx key interval = some s') :
    Follows rctx s t (s'.logExpiration ctx key interval) := by
  obtain ⟨s₁, hs₁, hok, hlog, hview, hexp⟩ := setExpiration_spec h.liveOk ctx key interval
  rw [hset] at hs₁
  cases hs₁
  have hrsec : rctx.nowSec = ctx.nowSec := by rw [Ctx.nowSec, hnow, Ctx.nowSec]
  unfold Engine.logExpiration
  by_cases hge : interval.toInt ≥ 0
  · have hlt : ctx.nowSec + interval.toInt.toNat < 2 ^ 63 := by
      by_contra hge'
      exact hf ⟨hkey, .inl ⟨hge, by omega⟩⟩
    have hre : Expired t key interval _ := replay_expireat hr (by rw [hrsec]; exact hsec)
      hge (by rw [hrsec]; exact hlt) h.replayOk (by rw [h.view]; exact hkey)
    rw [hrsec] at hre
    rw [if_pos hge, Engine.addIntoAppendable, if_pos hl.sync]
    refine ⟨[[ascii "expireat", key, natToString ((ctx.nowSec + interval.toInt.toNat) % 2 ^ 64)]],
      by rw [hlog], hok, hre.ok, ?_, ?_⟩
    · rw [hview]
      exact hre.view.trans (by rw [h.view, h.expirations])
    · refine Eq.trans hre.expirations ?_
      rw [h.expirations]
      exact hexp.symm
  · -- nothing happened to the live process, so nothing may happen to the mirror
    have hneg : interval.toInt < 0 := by omega
    have hno : s.hasExpiration key = false := by
      by_contra hyes
      exact hf ⟨hkey, .inr ⟨hneg, .inl (by simpa using hyes)⟩⟩
    have hrw : ∀ v, s.holder.view (.ofStdString key) = some v → ¬ v.RewriteChanges :=
      fun v hv hch => hf ⟨hkey, .inr ⟨hneg, .inr ⟨v, hv, hch⟩⟩⟩
    have hsame : s' = s := by
      cases setsExpiration hset with
      | create _ hpos => omega
      | delete _ hzero => omega
      | nothing => rfl
      | update _ hge' => omega
      | remove hfind =>
          rw [Engine.hasExpiration, hfind] at hno
          cases hno
    rw [if_neg hge, hsame]
    split
    · exact follows_self h
    · rename_i recovered hrec
      rw [Engine.addIntoAppendable, if_pos hl.sync]
      have hm := replay_recovered hr hrec h hrw
      exact ⟨_, rfl, ⟨hm.liveOk, hm.replayOk, hm.view, hm.expirations⟩⟩

theorem follows_expire {argv : List Bytes}
    (hf : checkSyntax argv 1 1 false = true →
      ∀ interval, canConvertToInt64 (arg argv 2) = some interval →
        ¬ ExpirationMisreported s ctx (arg argv 1) interval) :
    Follows rctx s t (expireCommand ctx s argv).1 := by
  obtain ⟨hsame, -⟩ | ⟨interval, s', hexp, heq⟩ := expireCommand_cases s ctx argv
  · rw [hsame]
    exact follows_self h
  · have hkey := hexp.exists_
    rw [KVContainer.keyExists_eq] at hkey
    rw [heq]
    exact follows_expiration hl hr hnow hsec h hkey
      (hf ((checkSyntax_operands argv 1).mpr hexp.length) interval hexp.number) hexp.set

theorem follows_expireat {argv : List Bytes} (hf : ¬ Misreports s ctx .expireat argv) :
    Follows rctx s t (expireAtCommand ctx s argv).1 := by
  unfold expireAtCommand checkSyntaxHelper
  split
  · rename_i hsyn
    split
    · exact follows_self h
    · rename_i unixSec hconv
      refine follows_expire hl hr hnow hsec h fun _ interval hint => ?_
      have heq : expireInterval ctx unixSec = interval := by
        have hself : canConvertToInt64 (intToString (expireInterval ctx unixSec).toInt)
            = some (expireInterval ctx unixSec) := canConvertToInt64_eq_some.mpr rfl
        rw [← Option.some.injEq, ← hself]
        exact hint
      intro hm
      exact hf ⟨hsyn, unixSec, hconv, heq ▸ hm⟩
  · exact follows_self h

/-- What a faithful command logs brings the mirror along. -/
theorem handleCommand_follows {argv : List Bytes} (hf : Faithful s ctx argv) :
    Follows rctx s t (s.handleCommand ctx argv).1 := by
  rw [handleCommand_eq s hl.pressure]
  cases hop : opcodeOf argv with
  | none => exact follows_self h
  | some op =>
      have hm := hf op hop
      rw [lowered_eq hop] at hm ⊢
      cases hs : op.single with
      | true =>
          refine follows_single hl hr h hs fun hp => hm ?_
          cases op with
          | evict | expire | expireat => cases hs
          | _ => exact hp
      | false =>
          cases op with
          | evict => exact follows_evict hl hr h hm
          | del => exact follows_del hl hr h
          | expire =>
              exact follows_expire hl hr hnow hsec h fun hsyn interval hint he =>
                hm ⟨hsyn, interval, hint, he⟩
          | expireat => exact follows_expireat hl hr hnow hsec h hm
          | _ => cases hs

end

/-! ## Runs -/

/-- What the commands of one process have in common when the clock stands still
and memory is not short. -/
structure Setting where
  now : UInt64
  policy : KVContainer.EvictionPolicy
  server : List Bytes → Bytes

/-- A client command and the numbers an eviction would draw. -/
abbrev Request := KVContainer.EvictionEnv × List Bytes

namespace Setting

def liveCtx (c : Setting) (evict : KVContainer.EvictionEnv) : Ctx :=
  ⟨c.now.toNat, true, c.policy, evict, none, c.server⟩

def replayCtx (c : Setting) (evict : KVContainer.EvictionEnv) : Ctx :=
  ⟨c.now.toNat, false, c.policy, evict, none, c.server⟩

/-- The live process after a command. -/
def live (c : Setting) (s : Engine) (r : Request) : Engine :=
  (s.handleCommand (c.liveCtx r.1) r.2).1

theorem nowSec_lt (c : Setting) (evict : KVContainer.EvictionEnv) :
    (c.liveCtx evict).nowSec < 2 ^ 63 := by
  have := c.now.toNat_lt
  simp only [Ctx.nowSec, liveCtx]
  omega

end Setting

/-- In a run of faithful commands the log mirrors the process at every moment. -/
theorem run_mirrors (c : Setting) (evict : KVContainer.EvictionEnv) (rs : List Request) :
    ∀ (s : Engine), Mirrors s (Engine.new.replay (c.replayCtx evict) s.log) →
      Guarded c.live (fun s r => Faithful s (c.liveCtx r.1) r.2) s rs →
      Mirrors (rs.foldl c.live s)
        (Engine.new.replay (c.replayCtx evict) (rs.foldl c.live s).log) := by
  induction rs with
  | nil => intro s h _; exact h
  | cons r rs ih =>
    intro s h hg
    obtain ⟨hf, hg⟩ := hg
    have hl : Live (c.liveCtx r.1) := ⟨rfl, rfl⟩
    have hr : Replays (c.replayCtx evict) := ⟨rfl, rfl⟩
    obtain ⟨new, hlog, hm⟩ := handleCommand_follows hl hr rfl (c.nowSec_lt r.1) h hf
    refine ih (c.live s r) ?_ hg
    rw [Setting.live, hlog, Engine.replay, List.foldl_append]
    exact hm

/-- Replaying the log into an empty process gives the store of the live one, for
every run whose commands all log what they do. -/
theorem replay_equals_live (c : Setting) (evict : KVContainer.EvictionEnv) (rs : List Request)
    (hf : Guarded c.live (fun s r => Faithful s (c.liveCtx r.1) r.2) .new rs) :
    (Engine.new.replay (c.replayCtx evict) (rs.foldl c.live .new).log).holder.view
      = (rs.foldl c.live .new).holder.view :=
  (run_mirrors c evict rs .new mirrors_new hf).view

/-- Draws that are all 0, on a clock that stands still. -/
def noDraws : KVContainer.EvictionEnv := ⟨fun _ => 0, fun _ => [], fun _ => 0⟩

/-- Five seconds after the epoch. -/
def sampleSetting (policy : KVContainer.EvictionPolicy) : Setting := ⟨5000, policy, fun _ => []⟩

/-- The list a process holds under a key. -/
def Engine.listAt (s : Engine) (key : Bytes) : Option (List Bytes) :=
  (s.holder.view (.ofStdString key)).bind Value.asList

/-- The live process and the replay of its log. -/
def liveAndReplay (policy : KVContainer.EvictionPolicy) (cmds : List (List Bytes)) :
    Engine × Engine :=
  let s := (cmds.map fun argv => (noDraws, argv)).foldl (sampleSetting policy).live .new
  (s, Engine.new.replay ((sampleSetting policy).replayCtx noDraws) s.log)

theorem faithful_of_opcode {s : Engine} {ctx : Ctx} {argv : List Bytes} (op : Opcode)
    (ho : opcodeOf argv = some op) (hm : ¬ Misreports s ctx op (lowered argv)) :
    Faithful s ctx argv := by
  intro op' ho'
  rw [ho] at ho'
  cases ho'
  exact hm

/-- A list, a pop of it, an expiration. -/
def sampleRequests : List Request :=
  [(noDraws, [ascii "RPUSH", [108], [120], [121]]), (noDraws, [ascii "lpop", [108]]),
    (noDraws, [ascii "expire", [108], ascii "10"])]

theorem replay_equals_live_sample :
    (Engine.new.replay ((sampleSetting .lru).replayCtx noDraws)
        (sampleRequests.foldl (sampleSetting .lru).live .new).log).holder.view
      = (sampleRequests.foldl (sampleSetting .lru).live .new).holder.view := by
  refine replay_equals_live (sampleSetting .lru) noDraws sampleRequests ⟨?_, ?_, ?_, trivial⟩
  · refine faithful_of_opcode .rpush (by decide +kernel) ?_
    rintro ⟨-, left, hl, -⟩
    cases hl
  · refine faithful_of_opcode .lpop (by decide +kernel) ?_
    rintro ⟨-, left, hl, hp⟩
    cases hl
    revert hp
    decide +kernel
  · refine faithful_of_opcode .expire (by decide +kernel) ?_
    rintro ⟨-, interval, hint, -, hlost⟩
    have h10 : canConvertToInt64 (ascii "10") = some 10 := by decide +kernel
    have hval : interval = 10 := Option.some.inj (hint.symm.trans h10)
    subst hval
    revert hlost
    rintro (⟨-, hbig⟩ | ⟨hneg, -⟩)
    · exact absurd hbig (by decide +kernel)
    · exact absurd hneg (by decide)

/-- Four runs whose log gives another store: a pop of an empty string, a random
eviction, a negative `expire` of a list, and an expiration beyond 64 bits. -/
theorem replay_differs_from_live :
    ((liveAndReplay .lru [[ascii "rpush", [108], []], [ascii "lpop", [108]]]).1.listAt [108]
        = some [] ∧
      (liveAndReplay .lru [[ascii "rpush", [108], []], [ascii "lpop", [108]]]).2.listAt [108]
        = some [[]]) ∧
    ((liveAndReplay .random [[ascii "rpush", [97], [120]], [ascii "rpush", [98], [121]],
        [ascii "evict", ascii "1"]]).1.listAt [97] = none ∧
      (liveAndReplay .random [[ascii "rpush", [97], [120]], [ascii "rpush", [98], [121]],
        [ascii "evict", ascii "1"]]).2.listAt [97] = some [[120]]) ∧
    ((liveAndReplay .lru [[ascii "rpush", [108], [120]],
        [ascii "expire", [108], ascii "-1"]]).1.listAt [108] = some [[120]] ∧
      (liveAndReplay .lru [[ascii "rpush", [108], [120]],
        [ascii "expire", [108], ascii "-1"]]).2.listAt [108] = some [[120], [120]]) ∧
    ((liveAndReplay .lru [[ascii "rpush", [108], [120]],
        [ascii "expire", [108], ascii "9223372036854775807"],
        [ascii "expire", [108], ascii "0"]]).1.listAt [108] = some [[120]] ∧
      (liveAndReplay .lru [[ascii "rpush", [108], [120]],
        [ascii "expire", [108], ascii "9223372036854775807"],
        [ascii "expire", [108], ascii "0"]]).2.listAt [108] = none) := by
  decide +kernel

end LiteKV
