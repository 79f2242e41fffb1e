/-
LiteKV.Net.FiringTheorems — when and how often timers fire.

A run is a list of calls of the holder, each with what it reads of the
clock. What a call does to one event is `Life`: it leaves it alone, sets
its deadline, takes it out, or calls its callback and arms it again or
drops it. A pass over the list changes counters, deadlines and the list at
once, but for one id it is one of these four (`life_of_call`), and every
statement about a history of firings is an induction over the run with the
cases of `Life`.
-/
import LiteKV.Lib.AssocList
import LiteKV.Lib.Run
import LiteKV.Net.TimeEvent

namespace LiteKV

open Lib Lib.Run

/-! ## Calls and firings -/

/-- A call of the holder. `GetCurrentMs()` gives `now`; in a pass it gives
`clock id` where the event `id` is armed again, and a pass ends at `finish`. -/
inductive TimerCall where
  | create (now interval : Nat) (callback : Callback) (count : Int)
  | update (now id interval : Nat) (count : Int)
  | remove (id : Nat)
  | handleFired (now : Nat) (clock : Nat → Nat) (finish : Nat)

/-- A call of a callback: the event as it was, the `now` of the pass, and the
clock when the callback had returned. -/
structure Firing where
  ev : TimeEvent
  start : Nat
  done : Nat

/-- A holder, and the last reading of the clock. -/
abbrev TimerState := TimeEventHolder × Nat

namespace TimerState

def call (s : TimerState) : TimerCall → TimerState
  | .create now interval callback count =>
      ((s.1.createTimeEvent now interval callback count).1, now)
  | .update now id interval count => ((s.1.updateTimeEvent now id interval count).1, now)
  | .remove id => ((s.1.removeTimeEvent id).1, s.2)
  | .handleFired now clock finish =>
      ({ s.1 with eventList := (TimeEventHolder.firedLoop now clock s.1.eventList).1 }, finish)

/-- The callbacks that a call calls. -/
def fired (s : TimerState) : TimerCall → List Firing
  | .handleFired now clock _ =>
      (TimeEventHolder.firedLoop now clock s.1.eventList).2.1.map fun ev => ⟨ev, now, clock ev.id⟩
  | _ => []

/-- The clock does not go back, counts are not 0, and no sum of clock and
interval wraps. -/
def Regular (s : TimerState) : TimerCall → Prop
  | .create now interval _ count => s.2 ≤ now ∧ count ≠ 0 ∧ now + interval < 2 ^ 64
  | .update now _ interval count => s.2 ≤ now ∧ count ≠ 0 ∧ now + interval < 2 ^ 64
  | .remove _ => True
  | .handleFired now clock finish =>
      s.2 ≤ now ∧ (∀ id, now ≤ clock id ∧ clock id ≤ finish) ∧
        ∀ ev ∈ s.1.eventList, ev.when ≤ now → ev.count ≠ 1 → clock ev.id + ev.interval < 2 ^ 64

/-- All firings of a run, in order. -/
def firings : TimerState → List TimerCall → List Firing
  | _, [] => []
  | s, c :: cs => s.fired c ++ firings (s.call c) cs

/-- The firings of one event. -/
def firingsOf (id : Nat) (s : TimerState) (cs : List TimerCall) : List Firing :=
  (firings s cs).filter fun f => f.ev.id = id

/-- The call gives the event `id` a deadline: `CreateTimeEvent` makes it, or
`UpdateTimeEvent` finds it. -/
inductive Sets (s : TimerState) (id now interval : Nat) (count : Int) : TimerCall → Prop
  | create (callback : Callback) (hid : id = s.1.timeEventId + 1) :
      Sets s id now interval count (.create now interval callback count)
  | update (h : (s.1.deref id).isSome) :
      Sets s id now interval count (.update now id interval count)

/-- No call of the run updates the event. -/
def NeverUpdated (id : Nat) : TimerState → List TimerCall → Prop :=
  Guarded call fun s c => ∀ now interval count, c = .update now id interval count →
  s.1.deref id = none

end TimerState

/-! ## A pass -/

namespace TimeEvent

/-- What `UpdateTimeEvent` writes. -/
def set (now interval : Nat) (count : Int) (ev : TimeEvent) : TimeEvent :=
  { ev with count := count, interval := interval, when := addMillSecToNowMillSec now interval }

/-- An event that has fired and stays. -/
def rearmed (later : Nat) (ev : TimeEvent) : TimeEvent :=
  { ev with
    count := if ev.count < 0 then ev.count else ev.count - 1
    when := addMillSecToNowMillSec later ev.interval }

/-- What a pass leaves of an event that can fire. -/
def left (now later : Nat) (ev : TimeEvent) : Option TimeEvent :=
  if ev.when ≤ now then if ev.count = 1 then none else some (ev.rearmed later) else some ev

theorem left_id {now later : Nat} {ev ev' : TimeEvent} (h : ev.left now later = some ev') :
    ev'.id = ev.id := by
  unfold left at h
  split at h
  · split at h
    · cases h
    · cases h
      rfl
  · cases h
    rfl

theorem left_count {now later : Nat} {ev ev' : TimeEvent} (hc : ev.count ≠ 0)
    (h : ev.left now later = some ev') : ev'.count ≠ 0 := by
  unfold left at h
  split at h
  · split at h
    · cases h
    · cases h
      unfold rearmed
      dsimp only
      split <;> omega
  · cases h
    exact hc

end TimeEvent

namespace TimeEventHolder

/-- Of events that can fire, a pass calls those whose deadline has come, once
each, and counts them. -/
theorem firedLoop_eq (now : Nat) (clock : Nat → Nat) {es : List TimeEvent}
    (hc : ∀ ev ∈ es, ev.count ≠ 0) :
    firedLoop now clock es
      = (es.filterMap fun ev => ev.left now (clock ev.id), es.filter fun ev => ev.when ≤ now,
          (es.filter fun ev => ev.when ≤ now).length) := by
  induction es with
  | nil => rfl
  | cons ev es ih =>
    have ih := ih fun ev' hev' => hc ev' (List.mem_cons_of_mem _ hev')
    have h0 : ev.count ≠ 0 := hc ev List.mem_cons_self
    have hcan : ev.canFire = true := by
      simp only [TimeEvent.canFire, Bool.or_eq_true, decide_eq_true_eq]
      omega
    rw [firedLoop, ih, hcan]
    by_cases hd : ev.when ≤ now
    · rcases Int.lt_trichotomy ev.count 0 with hneg | hzero | hpos
      · have h1 : ev.count ≠ 1 := by omega
        simp [hd, hneg, h0, h1, TimeEvent.left, TimeEvent.rearmed, TimeEvent.fireForever,
          TimeEvent.cannotFire]
      · exact absurd hzero h0
      · have hn : ¬ ev.count < 0 := by omega
        by_cases h1 : ev.count = 1
        · simp [hd, h1, TimeEvent.left, TimeEvent.fireForever, TimeEvent.cannotFire,
            TimeEvent.consume]
        · have hsub : ev.count - 1 ≠ 0 := by omega
          simp [hd, hn, h1, hsub, TimeEvent.left, TimeEvent.rearmed, TimeEvent.fireForever,
            TimeEvent.cannotFire, TimeEvent.consume]
    · simp [hd, h0, TimeEvent.left, TimeEvent.cannotFire]

/-- With one reading of the clock the loop is the pass of the command model. -/
theorem handleFiredTimeEvent_eq (t : TimeEventHolder) (now : Nat) :
    t.handleFiredTimeEvent now
      = ({ t with eventList := (firedLoop now (fun _ => now) t.eventList).1 },
          (firedLoop now (fun _ => now) t.eventList).2.1.map TimeEvent.callback) := by
  have hfire : ∀ es : List TimeEvent,
      (es.filterMap fun ev => (fire now ev).1) = (firedLoop now (fun _ => now) es).1 ∧
        (es.flatMap fun ev => (fire now ev).2)
          = (firedLoop now (fun _ => now) es).2.1.map TimeEvent.callback := by
    intro es
    induction es with
    | nil => exact ⟨rfl, rfl⟩
    | cons ev es ih =>
      rw [List.filterMap_cons, List.flatMap_cons, firedLoop, ih.1, ih.2]
      unfold fire TimeEvent.canFire TimeEvent.cannotFire TimeEvent.fireForever TimeEvent.consume
      by_cases hd : ev.when ≤ now
      · rcases Int.lt_trichotomy ev.count 0 with hneg | hzero | hpos
        · have hne : ev.count ≠ 0 := by omega
          have hnot : ¬ 0 ≤ ev.count := by omega
          simp [hd, hneg, hne, hnot]
        · simp [hzero]
        · have hne : ev.count ≠ 0 := by omega
          have hnot : ¬ ev.count < 0 := by omega
          have hle : 0 ≤ ev.count := by omega
          by_cases h1 : ev.count - 1 = 0
          · simp [hd, hpos, hle, hne, hnot, h1]
          · simp [hd, hpos, hle, hne, hnot, h1]
      · by_cases hzero : ev.count = 0
        · simp [hd, hzero]
        · simp [hd, hzero]
  rw [handleFiredTimeEvent, (hfire t.eventList).1, (hfire t.eventList).2]

/-- `UpdateTimeEvent` on the list: an id that is not there changes nothing. -/
theorem updateTimeEvent_list (t : TimeEventHolder) (now id interval : Nat) (count : Int) :
    (t.updateTimeEvent now id interval count).1
      = { t with eventList := t.eventList.map fun ev =>
            if ev.id = id then ev.set now interval count else ev } := by
  unfold updateTimeEvent
  cases hd : t.deref id with
  | some ev =>
      dsimp only
      refine congrArg (fun es => ({ t with eventList := es } : TimeEventHolder)) ?_
      refine List.map_congr_left fun ev _ => ?_
      by_cases hid : ev.id = id
      · rw [if_pos hid, if_pos (beq_iff_eq.mpr hid)]
        rfl
      · rw [if_neg hid, if_neg (by simpa using hid)]
  | none =>
      have hsame : (t.eventList.map fun ev => if ev.id = id then ev.set now interval count else ev)
          = t.eventList := by
        refine (List.map_congr_left fun ev hev => if_neg ?_).trans (List.map_id _)
        simpa using List.find?_eq_none.mp hd ev hev
      rw [hsame]

/-- `RemoveTimeEvent` on the list. -/
theorem removeTimeEvent_list {t : TimeEventHolder} (hn : (t.eventList.map TimeEvent.id).Nodup)
    (id : Nat) :
    (t.removeTimeEvent id).1 = { t with eventList := t.eventList.filter fun ev => ev.id ≠ id } := by
  have herase :
      (t.eventList.eraseP fun ev => ev.id == id) = t.eventList.filter fun ev => ev.id ≠ id :=
    AssocList.eraseP_eq_filter hn id
  unfold removeTimeEvent
  cases hd : t.deref id with
  | some ev =>
      dsimp only
      rw [herase]
  | none =>
      have hnone : ∀ ev ∈ t.eventList, ¬ (ev.id == id) = true := List.find?_eq_none.mp hd
      rw [← herase, List.eraseP_of_forall_not hnone]

end TimeEventHolder

/-! ## What a call does to one event -/

namespace TimerState

/-- The ids are distinct and all given out, and every event can fire. -/
structure Valid (s : TimerState) : Prop where
  ids : (s.1.eventList.map TimeEvent.id).Nodup
  fresh : ∀ ev ∈ s.1.eventList, ev.id ≤ s.1.timeEventId
  counts : ∀ ev ∈ s.1.eventList, ev.count ≠ 0

theorem Valid.start (n now : Nat) : Valid (⟨[], n⟩, now) :=
  ⟨List.nodup_nil, fun _ h => absurd h List.not_mem_nil, fun _ h => absurd h List.not_mem_nil⟩

/-- What a call does to the event `id`, which is `old` before it and `new` after
it, and the firings of it. -/
inductive Life (s : TimerState) (id : Nat) :
    TimerCall → Option TimeEvent → Option TimeEvent → List Firing → Prop
  | stays {c : TimerCall} {old : Option TimeEvent} (hc : old.isSome → c ≠ .remove id) :
      Life s id c old old []
  | sets {c : TimerCall} {old : Option TimeEvent} {new : TimeEvent} {now interval : Nat}
      {count : Int} (hset : s.Sets id now interval count c) (hnow : s.2 ≤ now)
      (hinterval : new.interval = interval) (hwhen : new.when = now + interval)
      (hcount : new.count = count) : Life s id c old (some new) []
  | removed {old : TimeEvent} : Life s id (.remove id) (some old) none []
  | fires {old : TimeEvent} {now : Nat} {clock : Nat → Nat} {finish : Nat} (hnow : s.2 ≤ now)
      (hclock : now ≤ clock id) (hfinish : clock id ≤ finish) (hdue : old.when ≤ now)
      (hwrap : old.count ≠ 1 → clock id + old.interval < 2 ^ 64) :
      Life s id (.handleFired now clock finish) (some old)
        (if old.count = 1 then none else some (old.rearmed (clock id))) [⟨old, now, clock id⟩]

section

variable {s : TimerState} (hs : s.Valid) (id : Nat)

theorem deref_id {t : TimeEventHolder} {id : Nat} {ev : TimeEvent} (h : t.deref id = some ev) :
    ev ∈ t.eventList ∧ ev.id = id :=
  ⟨List.mem_of_find?_eq_some h, by simpa using List.find?_some h⟩

theorem addMillSecToNowMillSec_of_lt {now interval : Nat} (h : now + interval < 2 ^ 64) :
    addMillSecToNowMillSec now interval = now + interval := Nat.mod_eq_of_lt h

include hs

theorem Valid.call {c : TimerCall} (hc : s.Regular c) : (s.call c).Valid := by
  obtain ⟨⟨es, n⟩, clk⟩ := s
  cases c with
  | create now interval callback count =>
      refine ⟨List.nodup_cons.mpr ⟨fun hmem => ?_, hs.ids⟩, fun ev hev => ?_, fun ev hev => ?_⟩
      · obtain ⟨ev, hev, hid⟩ := List.mem_map.mp hmem
        have hle : ev.id ≤ n := hs.fresh ev hev
        have hid : ev.id = n + 1 := hid
        omega
      · rcases List.mem_cons.mp hev with rfl | hev
        · exact Nat.le_refl _
        · exact Nat.le_succ_of_le (hs.fresh ev hev)
      · rcases List.mem_cons.mp hev with rfl | hev
        · exact hc.2.1
        · exact hs.counts ev hev
  | update now id interval count =>
      rw [TimerState.call, TimeEventHolder.updateTimeEvent_list]
      have hids : ∀ ev : TimeEvent,
          (if ev.id = id then ev.set now interval count else ev).id = ev.id := by
        intro ev
        split <;> rfl
      refine ⟨?_, fun ev hev => ?_, fun ev hev => ?_⟩
      · rw [List.map_map]
        exact (List.map_congr_left fun ev _ => hids ev).symm ▸ hs.ids
      · obtain ⟨ev₀, hev₀, rfl⟩ := List.mem_map.mp hev
        rw [hids]
        exact hs.fresh ev₀ hev₀
      · obtain ⟨ev₀, hev₀, rfl⟩ := List.mem_map.mp hev
        split
        · exact hc.2.1
        · exact hs.counts ev₀ hev₀
  | remove id =>
      rw [TimerState.call, TimeEventHolder.removeTimeEvent_list hs.ids]
      have hsub : List.Sublist (es.filter fun ev => ev.id ≠ id) es := List.filter_sublist
      exact ⟨hs.ids.sublist (hsub.map _), fun ev hev => hs.fresh ev (hsub.subset hev),
        fun ev hev => hs.counts ev (hsub.subset hev)⟩
  | handleFired now clock finish =>
      rw [TimerState.call, TimeEventHolder.firedLoop_eq now clock hs.counts]
      refine ⟨?_, fun ev hev => ?_, fun ev hev => ?_⟩
      · exact hs.ids.sublist (AssocList.map_filterMap_sublist (fun ev ev' => TimeEvent.left_id) es)
      · obtain ⟨ev₀, hev₀, hleft⟩ := List.mem_filterMap.mp hev
        rw [TimeEvent.left_id hleft]
        exact hs.fresh ev₀ hev₀
      · obtain ⟨ev₀, hev₀, hleft⟩ := List.mem_filterMap.mp hev
        exact TimeEvent.left_count (hs.counts ev₀ hev₀) hleft

omit hs in
theorem deref_create (now interval : Nat) (callback : Callback) (count : Int) :
    (s.call (.create now interval callback count)).1.deref id
      = if id = s.1.timeEventId + 1 then
          some ⟨s.1.timeEventId + 1, addMillSecToNowMillSec now interval, interval, callback, count⟩
        else s.1.deref id := by
  unfold TimerState.call TimeEventHolder.createTimeEvent TimeEventHolder.deref
  dsimp only
  rw [List.find?_cons]
  by_cases h : id = s.1.timeEventId + 1
  · simp [h]
  · have hne : (s.1.timeEventId + 1 == id) = false := by simpa using Ne.symm h
    simp [h, hne]

omit hs in
theorem deref_created (s : TimerState) (now interval : Nat) (callback : Callback) (count : Int) :
    (s.call (.create now interval callback count)).1.deref (s.1.timeEventId + 1)
      = some ⟨s.1.timeEventId + 1, addMillSecToNowMillSec now interval, interval, callback,
        count⟩ := by
  rw [deref_create, if_pos rfl]

omit hs in
theorem deref_update (now id' interval : Nat) (count : Int) :
    (s.call (.update now id' interval count)).1.deref id
      = if id' = id then (s.1.deref id).map (TimeEvent.set now interval count)
        else s.1.deref id := by
  have hids : ((fun ev : TimeEvent => ev.id == id) ∘ fun ev =>
      if ev.id = id' then ev.set now interval count else ev) = fun ev => ev.id == id := by
    funext ev
    rw [Function.comp_apply]
    split <;> rfl
  rw [TimerState.call, TimeEventHolder.updateTimeEvent_list, TimeEventHolder.deref, List.find?_map,
    hids]
  show Option.map _ (s.1.deref id) = _
  cases hd : s.1.deref id with
  | none => simp
  | some ev =>
      have hid := (deref_id hd).2
      by_cases h : id' = id
      · simp [h, hid]
      · simp [h, hid, Ne.symm h]

theorem deref_remove (id' : Nat) :
    (s.call (.remove id')).1.deref id = if id' = id then none else s.1.deref id := by
  rw [TimerState.call, TimeEventHolder.removeTimeEvent_list hs.ids, TimeEventHolder.deref,
    List.find?_filter]
  by_cases h : id' = id
  · rw [if_pos h, List.find?_eq_none]
    intro ev _
    simp [h]
  · rw [if_neg h, TimeEventHolder.deref]
    refine congrArg (fun p => List.find? p s.1.eventList) (funext fun ev => ?_)
    by_cases hid : ev.id = id
    · simp [hid, Ne.symm h]
    · simp [hid]

theorem deref_handleFired (now : Nat) (clock : Nat → Nat) (finish : Nat) :
    (s.call (.handleFired now clock finish)).1.deref id
      = (s.1.deref id).bind (TimeEvent.left now (clock id)) := by
  have hfind := AssocList.find?_filterMap_of_nodup hs.ids
    (g := fun ev => ev.left now (clock ev.id)) (fun ev ev' => TimeEvent.left_id) id
  rw [TimerState.call, TimeEventHolder.firedLoop_eq now clock hs.counts]
  refine hfind.trans ?_
  show (s.1.deref id).bind _ = _
  cases hd : s.1.deref id with
  | none => rfl
  | some ev => rw [Option.bind_some, Option.bind_some, (deref_id hd).2]

theorem fired_of_id (now : Nat) (clock : Nat → Nat) (finish : Nat) :
    ((s.fired (.handleFired now clock finish)).filter fun f => f.ev.id = id)
      = ((s.1.deref id).toList.filter fun ev => ev.when ≤ now).map fun ev =>
        ⟨ev, now, clock id⟩ := by
  have hone : (s.1.eventList.filter fun ev => ev.id = id) = (s.1.deref id).toList :=
    AssocList.filter_eq_toList_find? hs.ids id
  rw [TimerState.fired, TimeEventHolder.firedLoop_eq now clock hs.counts, List.filter_map,
    List.filter_filter, ← hone, List.filter_filter]
  have hcomm : (s.1.eventList.filter fun ev =>
      (((fun f : Firing => decide (f.ev.id = id)) ∘ fun ev => ⟨ev, now, clock ev.id⟩) ev &&
        decide (ev.when ≤ now))) = s.1.eventList.filter fun ev =>
          decide (ev.when ≤ now) && decide (ev.id = id) :=
    List.filter_congr fun ev _ => Bool.and_comm _ _
  rw [hcomm]
  refine List.map_congr_left fun ev hev => ?_
  have hid : ev.id = id := by
    have h := (List.mem_filter.mp hev).2
    simp only [Bool.and_eq_true, decide_eq_true_eq] at h
    exact h.2
  rw [hid]

/-- A call does one of four things to an event. -/
theorem life_of_call {c : TimerCall} (hc : s.Regular c) :
    Life s id c (s.1.deref id) ((s.call c).1.deref id)
      ((s.fired c).filter fun f => f.ev.id = id) := by
  cases c with
  | create now interval callback count =>
      rw [deref_create]
      split
      · rename_i hid
        exact .sets (.create callback hid) hc.1 rfl (addMillSecToNowMillSec_of_lt hc.2.2) rfl
      · exact .stays fun _ h => TimerCall.noConfusion h
  | update now id' interval count =>
      rw [deref_update]
      split
      · rename_i hid
        subst hid
        cases hd : s.1.deref id' with
        | none => exact .stays fun h => absurd h (by decide)
        | some ev =>
            exact .sets (.update (by rw [hd]; rfl)) hc.1 rfl
              (addMillSecToNowMillSec_of_lt hc.2.2) rfl
      · exact .stays fun _ h => TimerCall.noConfusion h
  | remove id' =>
      rw [deref_remove hs]
      split
      · rename_i hid
        subst hid
        cases hd : s.1.deref id' with
        | none => exact .stays fun h => absurd h (by decide)
        | some ev => exact .removed
      · rename_i hid
        exact .stays fun _ h => hid (TimerCall.remove.inj h)
  | handleFired now clock finish =>
      obtain ⟨hnow, hclock, hwrap⟩ := hc
      rw [deref_handleFired hs, fired_of_id hs]
      cases hd : s.1.deref id with
      | none => exact .stays fun h => absurd h (by decide)
      | some ev =>
          obtain ⟨hmem, hid⟩ := deref_id hd
          rw [Option.bind_some, Option.toList_some, TimeEvent.left]
          by_cases hdue : ev.when ≤ now
          · rw [if_pos hdue, List.filter_cons_of_pos (by simpa using hdue)]
            refine .fires hnow (hclock id).1 (hclock id).2 hdue fun h1 => ?_
            exact hid ▸ hwrap ev hmem hdue h1
          · rw [if_neg hdue, List.filter_cons_of_neg (by simpa using hdue)]
            exact .stays fun _ h => TimerCall.noConfusion h

end

/-! ## Histories of one event -/

/-- The clock does not go back in a call. -/
theorem Regular.clock_le {s : TimerState} {c : TimerCall} (hc : s.Regular c) :
    s.2 ≤ (s.call c).2 := by
  cases c with
  | create now interval callback count => exact hc.1
  | update now id interval count => exact hc.1
  | remove id => exact Nat.le_refl _
  | handleFired now clock finish =>
      obtain ⟨hnow, hclock, -⟩ := hc
      exact hnow.trans ((hclock 0).1.trans (hclock 0).2)

/-- An id that was given out is not given out again. -/
theorem timeEventId_le (s : TimerState) (c : TimerCall) :
    s.1.timeEventId ≤ (s.call c).1.timeEventId := by
  cases c with
  | create now interval callback count => exact Nat.le_succ _
  | update now id interval count => rw [call, TimeEventHolder.updateTimeEvent_list]
  | remove id =>
      rw [call, TimeEventHolder.removeTimeEvent]
      cases s.1.deref id <;> exact Nat.le_refl _
  | handleFired now clock finish => exact Nat.le_refl _

theorem firingsOf_cons (id : Nat) (s : TimerState) (c : TimerCall) (cs : List TimerCall) :
    firingsOf id s (c :: cs)
      = ((s.fired c).filter fun f => f.ev.id = id) ++ firingsOf id (s.call c) cs := by
  rw [firingsOf, firings, List.filter_append, firingsOf]

section

variable {id : Nat}

/-- An event that has gone does not come back. -/
theorem gone (cs : List TimerCall) : ∀ {s : TimerState}, s.Valid → id ≤ s.1.timeEventId →
    s.1.deref id = none → Guarded call Regular s cs →
    firingsOf id s cs = [] ∧ (cs.foldl call s).1.deref id = none := by
  induction cs with
  | nil => exact fun _ _ hd _ => ⟨rfl, hd⟩
  | cons c cs ih =>
    intro s hs hid hd hg
    have hlife := life_of_call hs id hg.1
    have hle := hid.trans (s.timeEventId_le c)
    have hrest := @ih (s.call c) (hs.call hg.1) hle
    rw [firingsOf_cons]
    rw [hd] at hlife
    generalize (s.fired c).filter _ = fs at hlife ⊢
    generalize hnew : (s.call c).1.deref id = new at hlife
    cases hlife with
    | stays => exact hrest hnew hg.2
    | sets hset =>
        cases hset with
        | create _ hnext => omega
        | update h =>
            rw [hd] at h
            cases h

theorem id_le_of_deref {s : TimerState} {ev : TimeEvent} (hs : s.Valid)
    (hd : s.1.deref id = some ev) : id ≤ s.1.timeEventId := by
  obtain ⟨hmem, rfl⟩ := deref_id hd
  exact hs.fresh ev hmem

/-- A call, in a run that does not update the event `ev`: it stays as it is, is
removed, fires for the last time, or fires and is armed again. -/
inductive Turn (id : Nat) (s : TimerState) (ev : TimeEvent) (c : TimerCall)
    (cs : List TimerCall) : Prop
  | stays (hc : c ≠ .remove id) (hnew : (s.call c).1.deref id = some ev)
      (hfs : firingsOf id s (c :: cs) = firingsOf id (s.call c) cs)
  | removed (hc : c = .remove id) (hend : (cs.foldl call (s.call c)).1.deref id = none)
      (hfs : firingsOf id s (c :: cs) = [])
  | last (hc : c ≠ .remove id) (h1 : ev.count = 1)
      (hend : (cs.foldl call (s.call c)).1.deref id = none) (now done : Nat)
      (hfs : firingsOf id s (c :: cs) = [⟨ev, now, done⟩])
  | again (hc : c ≠ .remove id) (h1 : ev.count ≠ 1) (now done : Nat)
      (hnew : (s.call c).1.deref id = some (ev.rearmed done))
      (hfs : firingsOf id s (c :: cs) = ⟨ev, now, done⟩ :: firingsOf id (s.call c) cs)

theorem turn {s : TimerState} {ev : TimeEvent} (hs : s.Valid) (hd : s.1.deref id = some ev)
    {c : TimerCall} {cs : List TimerCall} (hg : Guarded call Regular s (c :: cs))
    (hu : NeverUpdated id s (c :: cs)) : Turn id s ev c cs := by
  have hlife := life_of_call hs id hg.1
  have hgone := @gone id cs (s.call c) (hs.call hg.1)
    ((id_le_of_deref hs hd).trans (s.timeEventId_le c))
  have hfs := firingsOf_cons id s c cs
  rw [hd] at hlife
  generalize (s.fired c).filter _ = fs at hlife hfs
  generalize hnew : (s.call c).1.deref id = new at hlife
  cases hlife with
  | stays hc => exact .stays (hc rfl) hnew hfs
  | sets hset =>
      cases hset with
      | create _ hnext =>
          have hle := id_le_of_deref hs hd
          omega
      | update _ =>
          have hnone := hu.1 _ _ _ rfl
          rw [hd] at hnone
          cases hnone
  | removed =>
      obtain ⟨hnil, hnone⟩ := hgone hnew hg.2
      exact .removed rfl hnone (by rw [hfs, hnil]; rfl)
  | @fires _ now clock finish =>
      have hc : TimerCall.handleFired now clock finish ≠ .remove id := TimerCall.noConfusion
      by_cases h1 : ev.count = 1
      · rw [if_pos h1] at hnew
        obtain ⟨hnil, hnone⟩ := hgone hnew hg.2
        exact .last hc h1 hnone now (clock id) (by rw [hfs, hnil]; rfl)
      · rw [if_neg h1] at hnew
        exact .again hc h1 now (clock id) hnew hfs

/-- An event that fires a number of times and is not updated: it stays until it
has fired that often, or is removed. -/
theorem counted (cs : List TimerCall) : ∀ {s : TimerState} {ev : TimeEvent}, s.Valid →
    s.1.deref id = some ev → 0 < ev.count → Guarded call Regular s cs → NeverUpdated id s cs →
    ((firingsOf id s cs).length : Int) ≤ ev.count ∧
      (((cs.foldl call s).1.deref id).isSome ↔
        .remove id ∉ cs ∧ ((firingsOf id s cs).length : Int) < ev.count) := by
  induction cs with
  | nil =>
    intro s ev hs hd hpos _ _
    have hlen : ((firingsOf id s []).length : Int) = 0 := rfl
    simp [hd, hlen, hpos, Int.le_of_lt hpos]
  | cons c cs ih =>
    intro s ev hs hd hpos hg hu
    have ih := @ih (s.call c)
    rw [List.foldl_cons, List.mem_cons, not_or]
    cases turn hs hd hg hu with
    | stays hc hnew hfs =>
        rw [hfs]
        simpa [Ne.symm hc] using ih (hs.call hg.1) hnew hpos hg.2 hu.2
    | removed hc hend hfs =>
        rw [hfs, hend]
        simp [hc, Int.le_of_lt hpos]
    | last hc h1 hend now done hfs =>
        rw [hfs, hend, h1]
        simp
    | again hc h1 now done hnew hfs =>
        have hcount : (ev.rearmed done).count = ev.count - 1 := if_neg (by omega)
        obtain ⟨hlen, hiff⟩ := ih (hs.call hg.1) hnew (by rw [hcount]; omega) hg.2 hu.2
        rw [hcount] at hlen hiff
        rw [hfs, hiff, List.length_cons, Nat.cast_add, Nat.cast_one]
        have hstep : ((firingsOf id (s.call c) cs).length : Int) < ev.count - 1 ↔
            ((firingsOf id (s.call c) cs).length : Int) + 1 < ev.count := by omega
        exact ⟨by omega, by simp [Ne.symm hc, hstep]⟩

/-- One that fires for ever and is not updated stays until it is removed. -/
theorem forever (cs : List TimerCall) : ∀ {s : TimerState} {ev : TimeEvent}, s.Valid →
    s.1.deref id = some ev → ev.count < 0 → Guarded call Regular s cs → NeverUpdated id s cs →
    (((cs.foldl call s).1.deref id).isSome ↔ .remove id ∉ cs) := by
  induction cs with
  | nil =>
    intro s ev hs hd hneg _ _
    simp [hd]
  | cons c cs ih =>
    intro s ev hs hd hneg hg hu
    have ih := @ih (s.call c)
    rw [List.foldl_cons, List.mem_cons, not_or]
    cases turn hs hd hg hu with
    | stays hc hnew =>
        simpa [Ne.symm hc] using ih (hs.call hg.1) hnew hneg hg.2 hu.2
    | removed hc hend =>
        rw [hend]
        simp [hc]
    | last hc h1 => omega
    | again hc h1 now done hnew =>
        have hcount : (ev.rearmed done).count = ev.count := if_pos hneg
        simpa [Ne.symm hc] using ih (hs.call hg.1) hnew (by rw [hcount]; exact hneg) hg.2 hu.2

/-- An event that is not updated keeps its interval. -/
theorem interval_stays (cs : List TimerCall) : ∀ {s : TimerState} {ev : TimeEvent}, s.Valid →
    s.1.deref id = some ev → Guarded call Regular s cs → NeverUpdated id s cs →
    ∀ f ∈ firingsOf id s cs, f.ev.interval = ev.interval := by
  induction cs with
  | nil => exact fun _ _ _ _ f hf => absurd hf List.not_mem_nil
  | cons c cs ih =>
    intro s ev hs hd hg hu f hf
    have ih := @ih (s.call c)
    cases turn hs hd hg hu with
    | stays hc hnew hfs =>
        rw [hfs] at hf
        exact ih (hs.call hg.1) hnew hg.2 hu.2 f hf
    | removed hc hend hfs =>
        rw [hfs] at hf
        cases hf
    | last hc h1 hend now done hfs =>
        rw [hfs] at hf
        rw [List.mem_singleton.mp hf]
    | again hc h1 now done hnew hfs =>
        rw [hfs] at hf
        rcases List.mem_cons.mp hf with rfl | hf
        · rfl
        · exact ih (hs.call hg.1) hnew hg.2 hu.2 f hf

/-- The deadline is the interval away from `d`, or from a later time. -/
def SetAfter (d id : Nat) (s : TimerState) : Prop :=
  d ≤ s.2 ∧ ∀ ev, s.1.deref id = some ev → d + ev.interval ≤ ev.when

/-- From a time `d` on that is the interval before the deadline, the event fires
only when its interval has passed since `d`. -/
theorem later_firings {d : Nat} (cs : List TimerCall) : ∀ {s : TimerState}, s.Valid →
    s.SetAfter d id → Guarded call Regular s cs →
    ∀ f ∈ firingsOf id s cs, d + f.ev.interval ≤ f.start := by
  induction cs with
  | nil => exact fun _ _ _ f hf => absurd hf List.not_mem_nil
  | cons c cs ih =>
    intro s hs hd hg f hf
    have hlife := life_of_call hs id hg.1
    have hle : d ≤ (s.call c).2 := hd.1.trans hg.1.clock_le
    have ih := fun hnew => @ih (s.call c) (hs.call hg.1) ⟨hle, hnew⟩ hg.2 f
    have hold := hd.2
    have hclk := hd.1
    rw [firingsOf_cons, List.mem_append] at hf
    generalize (s.fired c).filter _ = fs at hlife hf
    generalize (s.call c).1.deref id = new at hlife ih
    generalize s.1.deref id = old at hlife hold
    cases hlife with
    | stays =>
        rcases hf with hf | hf
        · cases hf
        · exact ih hold hf
    | sets _ hnow hinterval hwhen =>
        rcases hf with hf | hf
        · cases hf
        · refine ih (fun ev hev => ?_) hf
          cases hev
          omega
    | removed =>
        rcases hf with hf | hf
        · cases hf
        · exact ih (fun ev hev => absurd hev (by simp)) hf
    | @fires ev now clock finish hnow hclock hfinish hdue hwrap =>
        have hev := hold ev rfl
        rcases hf with hf | hf
        · rw [List.mem_singleton.mp hf]
          exact hev.trans hdue
        · refine ih (fun ev' hev' => ?_) hf
          split at hev'
          · cases hev'
          · rename_i h1
            cases hev'
            have hadd := addMillSecToNowMillSec_of_lt (hwrap h1)
            unfold TimeEvent.rearmed
            dsimp only
            omega

/-- Two firings of an event are its interval apart. -/
theorem firings_apart (cs : List TimerCall) : ∀ {s : TimerState}, s.Valid →
    Guarded call Regular s cs →
    (firingsOf id s cs).Pairwise fun f g => f.done + g.ev.interval ≤ g.start := by
  induction cs with
  | nil => exact fun _ _ => List.Pairwise.nil
  | cons c cs ih =>
    intro s hs hg
    have hrest := ih (hs.call hg.1) hg.2
    have hlater := fun d hd => @later_firings id d cs (s.call c) (hs.call hg.1) hd hg.2
    have hlife := life_of_call hs id hg.1
    rw [firingsOf_cons]
    generalize (s.fired c).filter _ = fs at hlife ⊢
    generalize hnew : (s.call c).1.deref id = new at hlife
    generalize s.1.deref id = old at hlife
    cases hlife with
    | stays => exact hrest
    | sets => exact hrest
    | removed => exact hrest
    | @fires ev now clock finish hnow hclock hfinish hdue hwrap =>
        refine List.pairwise_cons.mpr ⟨hlater (clock id) ⟨hfinish, fun ev' hev' => ?_⟩, hrest⟩
        rw [hnew] at hev'
        split at hev'
        · cases hev'
        · rename_i h1
          cases hev'
          exact (addMillSecToNowMillSec_of_lt (hwrap h1)).ge

end

/-! ## Whole runs -/

/-- A holder with no events; the static `sTimeEventId` may have been used. -/
def initial (n : Nat) : TimerState := (⟨[], n⟩, 0)

/-- The state a run reaches. -/
def after (n : Nat) (calls : List TimerCall) : TimerState := calls.foldl call (initial n)

/-- Timers fire when and as often as they should, after a run of calls. -/
structure FiresRight (n : Nat) (calls : List TimerCall) : Prop where
  /-- The ids in the list are distinct. -/
  ids : ((after n calls).1.eventList.map TimeEvent.id).Nodup
  /-- A pass calls exactly the events whose deadline has come, once each, and
  returns their number. -/
  pass : ∀ before now clock finish since, calls = before ++ .handleFired now clock finish :: since →
    (TimeEventHolder.firedLoop now clock (after n before).1.eventList).2
      = ((after n before).1.eventList.filter fun ev => ev.when ≤ now,
          ((after n before).1.eventList.filter fun ev => ev.when ≤ now).length)
  /-- A new event with a count, if it is not updated, fires at most that often,
  and is in the list exactly until it has fired that often or is removed. -/
  counted : ∀ before now interval callback count since,
    calls = before ++ .create now interval callback count :: since →
    NeverUpdated ((after n before).1.timeEventId + 1)
      ((after n before).call (.create now interval callback count)) since → 0 < count →
    let fs := firingsOf ((after n before).1.timeEventId + 1)
      ((after n before).call (.create now interval callback count)) since
    (fs.length : Int) ≤ count ∧
      (((after n calls).1.deref ((after n before).1.timeEventId + 1)).isSome ↔
        .remove ((after n before).1.timeEventId + 1) ∉ since ∧ (fs.length : Int) < count)
  /-- One with a negative count is in the list until it is removed. -/
  forever : ∀ before now interval callback count since,
    calls = before ++ .create now interval callback count :: since →
    NeverUpdated ((after n before).1.timeEventId + 1)
      ((after n before).call (.create now interval callback count)) since → count < 0 →
    (((after n calls).1.deref ((after n before).1.timeEventId + 1)).isSome ↔
      .remove ((after n before).1.timeEventId + 1) ∉ since)
  /-- An event does not fire before its interval has passed since it was created,
  or last updated. -/
  notBefore : ∀ before c since id now interval count, calls = before ++ c :: since →
    (after n before).Sets id now interval count c →
    NeverUpdated id ((after n before).call c) since →
    ∀ f ∈ firingsOf id ((after n before).call c) since, now + interval ≤ f.start
  /-- Two firings of an event are its interval apart. -/
  apart : ∀ id,
    (firingsOf id (initial n) calls).Pairwise fun f g => f.done + g.ev.interval ≤ g.start

/-- A call that gives an event a deadline gives it the interval from `now` on. -/
theorem set_of_sets {s : TimerState} {id now interval : Nat} {count : Int} {c : TimerCall}
    (hset : s.Sets id now interval count c) (hc : s.Regular c) :
    ∃ ev, (s.call c).1.deref id = some ev ∧ ev.interval = interval ∧ ev.when = now + interval ∧
      now ≤ (s.call c).2 := by
  cases hset with
  | create callback hid =>
      rw [deref_create, if_pos hid]
      exact ⟨_, rfl, rfl, addMillSecToNowMillSec_of_lt hc.2.2, Nat.le_refl _⟩
  | update h =>
      obtain ⟨ev, hev⟩ := Option.isSome_iff_exists.mp h
      rw [deref_update, if_pos rfl, hev]
      exact ⟨_, rfl, rfl, addMillSecToNowMillSec_of_lt hc.2.2, Nat.le_refl _⟩

/-- At a call of a run the state is valid, and the run goes on from there. -/
theorem at_call {n : Nat} {before since : List TimerCall} {c : TimerCall}
    (h : Guarded call Regular (initial n) (before ++ c :: since)) :
    (after n before).Valid ∧ (after n before).Regular c ∧
      Guarded call Regular ((after n before).call c) since := by
  obtain ⟨hc, hsince⟩ := h.drop before (c :: since)
  exact ⟨Guarded.invariant (fun _ _ hs => hs.call) before (.start n 0) (h.take before _), hc,
    hsince⟩

theorem after_append_cons (n : Nat) (before : List TimerCall) (c : TimerCall)
    (since : List TimerCall) :
    after n (before ++ c :: since) = since.foldl call ((after n before).call c) := by
  rw [after, after, List.foldl_append, List.foldl_cons]

/-- **Timers fire when and as often as they should**, in every run with a clock
that does not go back, counts that are not 0 and sums that do not wrap. -/
theorem timers_fire_right (n : Nat) (calls : List TimerCall)
    (h : Guarded call Regular (initial n) calls) : FiresRight n calls where
  ids := (Guarded.invariant (fun _ _ hs => hs.call) calls (Valid.start n 0) h).ids
  pass := by
    rintro before now clock finish since rfl
    obtain ⟨hs, -, -⟩ := at_call h
    rw [TimeEventHolder.firedLoop_eq now clock hs.counts]
  counted := by
    rintro before now interval callback count since rfl hu hpos
    obtain ⟨hs, hc, hsince⟩ := at_call h
    have hnew := deref_created (after n before) now interval callback count
    rw [after_append_cons]
    exact counted since (hs.call hc) hnew hpos hsince hu
  forever := by
    rintro before now interval callback count since rfl hu hneg
    obtain ⟨hs, hc, hsince⟩ := at_call h
    have hnew := deref_created (after n before) now interval callback count
    rw [after_append_cons]
    exact forever since (hs.call hc) hnew hneg hsince hu
  notBefore := by
    rintro before c since id now interval count rfl hset hu f hf
    obtain ⟨hs, hc, hsince⟩ := at_call h
    obtain ⟨ev, hnew, hinterval, hwhen, hclk⟩ := set_of_sets hset hc
    have hlater := later_firings since (hs.call hc) ⟨hclk, fun ev' hev' => ?_⟩ hsince f hf
    · rw [interval_stays since (hs.call hc) hnew hsince hu f hf, hinterval] at hlater
      exact hlater
    · rw [hnew] at hev'
      cases hev'
      omega
  apart := fun id => firings_apart calls (.start n 0) h

/-- An event that fires twice, ten milliseconds apart: the pass at 15 comes too
early for it, and the one at 40 too late. -/
def twiceRun : List TimerCall :=
  [.create 0 10 (.byValue [97]) 2, .handleFired 10 (fun _ => 12) 13,
    .handleFired 15 (fun _ => 15) 15,
    .handleFired 22 (fun _ => 22) 22, .handleFired 40 (fun _ => 40) 40]

theorem timers_fire_right_twice :
    FiresRight 0 twiceRun ∧ (firingsOf 1 (initial 0) twiceRun).map Firing.start = [10, 22] := by
  refine ⟨timers_fire_right 0 twiceRun ?_, by decide⟩
  refine ⟨⟨by decide, by decide, by decide⟩, ⟨by decide, fun _ => by simp, by decide⟩,
    ⟨by decide, fun _ => by simp, by decide⟩, ⟨by decide, fun _ => by simp, by decide⟩,
    ⟨by decide, fun _ => by simp, by decide⟩, trivial⟩

end TimerState

end LiteKV
