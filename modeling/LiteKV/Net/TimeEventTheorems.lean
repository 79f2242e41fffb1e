/-
LiteKV.Net.TimeEventTheorems — how long the loop sleeps.

The nearest event is found by its distance from the clock in `uint64_t`, so
an event that is overdue looks almost 2^64 ms away: the search passes over
it, and if it is the only one the loop sleeps 50 ms with a timer due.
`wakesInTime_iff` says for which lists and clocks the timeout is right.
-/
import LiteKV.Net.TimeEvent

namespace LiteKV

namespace TimeEventHolder

/-! ## The nearest event -/

/-- The event can fire, and none that can is nearer. -/
structure Nearest (t : TimeEventHolder) (now : Nat) (ev : TimeEvent) : Prop where
  mem : ev ∈ t.eventList
  fires : ev.count ≠ 0
  least : ∀ ev' ∈ t.eventList, ev'.count ≠ 0 → ev.diff now ≤ ev'.diff now

/-- The loop of `FindNearestTimeEvent`: it ends with a distance that none of the
events is below, and that is the one it started with or an event's. -/
theorem foldl_nearer (now : Nat) (es : List TimeEvent) : ∀ best : Nat × Option TimeEvent,
    (es.foldl (nearer now) best).1 ≤ best.1 ∧
      (∀ ev ∈ es, ev.count ≠ 0 → (es.foldl (nearer now) best).1 ≤ ev.diff now) ∧
      (es.foldl (nearer now) best = best ∨
        ∃ ev ∈ es, ev.count ≠ 0 ∧ ev.diff now < best.1 ∧
          es.foldl (nearer now) best = (ev.diff now, some ev)) := by
  induction es with
  | nil => intro best; simp
  | cons it es ih =>
    intro best
    have hstep : nearer now best it = best ∧ (it.count ≠ 0 → best.1 ≤ it.diff now) ∨
        nearer now best it = (it.diff now, some it) ∧ it.count ≠ 0 ∧ it.diff now < best.1 := by
      unfold nearer TimeEvent.cannotFire
      by_cases hc : it.count = 0
      · simp [hc]
      · by_cases hlt : it.diff now < best.1
        · simp [hc, hlt]
        · simp [hc, hlt, Nat.le_of_not_lt hlt]
    obtain ⟨hle, hall, hcases⟩ := ih (nearer now best it)
    rw [List.foldl_cons]
    rcases hstep with ⟨hsame, hit⟩ | ⟨hnew, hc, hlt⟩
    · rw [hsame] at hle hall hcases ⊢
      refine ⟨hle, fun ev hev hcev => ?_, ?_⟩
      · rcases List.mem_cons.mp hev with rfl | hev
        · exact hle.trans (hit hcev)
        · exact hall ev hev hcev
      · rcases hcases with h | ⟨ev, hev, h⟩
        · exact Or.inl h
        · exact Or.inr ⟨ev, List.mem_cons_of_mem _ hev, h⟩
    · rw [hnew] at hle hall hcases ⊢
      refine ⟨hle.trans hlt.le, fun ev hev hcev => ?_, Or.inr ?_⟩
      · rcases List.mem_cons.mp hev with rfl | hev
        · exact hle
        · exact hall ev hev hcev
      · rcases hcases with h | ⟨ev, hev, hcev, hltev, h⟩
        · exact ⟨it, List.mem_cons_self, hc, hlt, h⟩
        · exact ⟨ev, List.mem_cons_of_mem _ hev, hcev, hltev.trans hlt, h⟩

/-- What is left of the loop, started with any distance. -/
theorem foldl_nearer_cases (t : TimeEventHolder) (now far : Nat) :
    (t.eventList.foldl (nearer now) (far, none)).2 = none ∧
        (∀ ev ∈ t.eventList, ev.count ≠ 0 → far ≤ ev.diff now) ∨
      ∃ ev, (t.eventList.foldl (nearer now) (far, none)).2 = some ev ∧ t.Nearest now ev ∧
        ev.diff now < far := by
  obtain ⟨-, hall, heq | ⟨ev, hev, hc, hlt, heq⟩⟩ := foldl_nearer now t.eventList (far, none)
  · rw [heq] at hall ⊢
    exact Or.inl ⟨rfl, hall⟩
  · rw [heq] at hall ⊢
    exact Or.inr ⟨ev, rfl, ⟨hev, hc, hall⟩, hlt⟩

theorem exists_nearest {t : TimeEventHolder} {ev : TimeEvent} (hev : ev ∈ t.eventList)
    (hc : ev.count ≠ 0) (now : Nat) : ∃ near, t.Nearest now near := by
  rcases t.foldl_nearer_cases now (2 ^ 64) with ⟨-, hall⟩ | ⟨near, -, hnear, -⟩
  · have hlt : ev.diff now < 2 ^ 64 := Nat.mod_lt _ (by decide)
    exact absurd (hall ev hev hc) (Nat.not_le.mpr hlt)
  · exact ⟨near, hnear⟩

theorem Nearest.diff_eq {t : TimeEventHolder} {now : Nat} {ev ev' : TimeEvent}
    (h : t.Nearest now ev) (h' : t.Nearest now ev') : ev.diff now = ev'.diff now :=
  Nat.le_antisymm (h.least ev' h'.mem h'.fires) (h'.least ev h.mem h.fires)

/-- The timeout is 50 when every event that can fire is too far away, and else
the low half of the least distance. -/
theorem timeoutMs_cases (t : TimeEventHolder) (now : Nat) :
    t.timeoutMs now = 50 ∧ (∀ ev ∈ t.eventList, ev.count ≠ 0 → 2 ^ 63 - 1 ≤ ev.diff now) ∨
      ∃ ev, t.Nearest now ev ∧ ev.diff now < 2 ^ 63 - 1 ∧
        t.timeoutMs now = DList.toInt32 (ev.diff now) := by
  rcases t.foldl_nearer_cases now (2 ^ 63 - 1) with ⟨heq, hall⟩ | ⟨ev, heq, hnear, hlt⟩
  · have h50 : t.howLongTillNextFired now = 50 := by
      rw [howLongTillNextFired, findNearestTimeEvent, heq]
    rw [timeoutMs, h50]
    exact Or.inl ⟨by decide, hall⟩
  · have hdiff : t.howLongTillNextFired now = ev.diff now := by
      rw [howLongTillNextFired, findNearestTimeEvent, heq]
    rw [timeoutMs, hdiff]
    exact Or.inr ⟨ev, hnear, hlt, rfl⟩

/-! ## Sleeping until the next timer -/

/-- The loop does not sleep past a timer: the timeout is not negative, no event
that can fire comes before it ends, and it is 50 only if no event can fire. -/
structure WakesInTime (t : TimeEventHolder) (now : Nat) : Prop where
  nonneg : 0 ≤ t.timeoutMs now
  notPast : ∀ ev ∈ t.eventList, ev.count ≠ 0 → t.timeoutMs now ≤ max ((ev.when : Int) - now) 0
  idle : t.timeoutMs now = 50 → ∀ ev ∈ t.eventList, ev.count = 0

/-- The least distance is below `INT64_MAX`, its low half is a positive `int` and
is not 50; and it is 0 or no event that can fire is overdue. -/
def InReach (t : TimeEventHolder) (now : Nat) : Prop :=
  ∀ ev, t.Nearest now ev →
    ev.diff now < 2 ^ 63 - 1 ∧ ev.diff now % 2 ^ 32 < 2 ^ 31 ∧ ev.diff now % 2 ^ 32 ≠ 50 ∧
      (ev.diff now % 2 ^ 32 = 0 ∨ ∀ ev' ∈ t.eventList, ev'.count ≠ 0 → now ≤ ev'.when)

theorem toInt32_nonneg_iff (n : Nat) : 0 ≤ DList.toInt32 n ↔ n % 2 ^ 32 < 2 ^ 31 := by
  unfold DList.toInt32
  omega

theorem toInt32_of_lt {n : Nat} (h : n % 2 ^ 32 < 2 ^ 31) :
    DList.toInt32 n = (n % 2 ^ 32 : Nat) := by
  unfold DList.toInt32
  omega

/-- An event that is not overdue is as far away as its `uint64_t` distance says. -/
theorem diff_of_le {now : Nat} {ev : TimeEvent} (hwhen : ev.when < 2 ^ 64) (h : now ≤ ev.when) :
    (ev.diff now : Int) = ev.when - now := by
  unfold TimeEvent.diff
  omega

/-- **The loop wakes in time exactly when the least distance is in reach.** The
clock and the deadlines are `uint64_t`. -/
theorem wakesInTime_iff (t : TimeEventHolder) (now : Nat)
    (hwhen : ∀ ev ∈ t.eventList, ev.when < 2 ^ 64) : t.WakesInTime now ↔ t.InReach now := by
  constructor
  · intro h ev hnear
    rcases t.timeoutMs_cases now with ⟨h50, -⟩ | ⟨ev₀, hnear₀, hlt, heq⟩
    · exact absurd (h.idle h50 ev hnear.mem) hnear.fires
    · rw [hnear₀.diff_eq hnear] at hlt heq
      have hnonneg := h.nonneg
      rw [heq, toInt32_nonneg_iff] at hnonneg
      rw [toInt32_of_lt hnonneg] at heq
      refine ⟨hlt, hnonneg, fun h50 => ?_, ?_⟩
      · rw [h50] at heq
        exact hnear.fires (h.idle heq ev hnear.mem)
      · by_contra hnot
        obtain ⟨hne, hover⟩ := not_or.mp hnot
        refine hover fun ev' hev' hc' => ?_
        have hle := h.notPast ev' hev' hc'
        omega
  · intro h
    rcases t.timeoutMs_cases now with ⟨h50, hfar⟩ | ⟨ev, hnear, -, heq⟩
    · have hnone : ∀ ev ∈ t.eventList, ev.count = 0 := by
        intro ev hev
        by_contra hc
        obtain ⟨near, hnear⟩ := exists_nearest hev hc now
        exact absurd (hfar near hnear.mem hnear.fires) (Nat.not_le.mpr (h near hnear).1)
      exact ⟨by omega, fun ev hev hc => absurd (hnone ev hev) hc, fun _ => hnone⟩
    · obtain ⟨hlt, hint, h50, hover⟩ := h ev hnear
      rw [toInt32_of_lt hint] at heq
      refine ⟨by omega, fun ev' hev' hc' => ?_, fun h => absurd (heq.symm.trans h) (by omega)⟩
      rcases hover with h0 | hahead
      · omega
      · have hleast := hnear.least ev' hev' hc'
        have hdiff := diff_of_le (hwhen ev' hev') (hahead ev' hev' hc')
        omega

end TimeEventHolder

/-- A holder with one event for each deadline, each to fire once. -/
def holderOf (deadlines : List Nat) : TimeEventHolder :=
  ⟨deadlines.map fun d => ⟨d, d, 1000, .byValue [97], 1⟩, 0⟩

/-- An event ten milliseconds ahead is waited for. -/
theorem wakesInTime_iff_ahead : (holderOf [1010]).WakesInTime 1000 := by
  refine (TimeEventHolder.wakesInTime_iff _ _ (by decide)).mpr fun ev hnear => ?_
  obtain rfl := List.mem_singleton.mp hnear.mem
  decide

/-- With one event, a millisecond overdue, the loop sleeps for 50 ms; with one
more, an hour ahead, it sleeps for the hour; and for one that is thirty days
ahead the timeout is negative, which is no timeout at all. -/
theorem loop_oversleeps :
    (holderOf [1000]).timeoutMs 1001 = 50 ∧ ¬ (holderOf [1000]).WakesInTime 1001 ∧
      (holderOf [1000, 3601001]).timeoutMs 1001 = 3600000 ∧
      ¬ (holderOf [1000, 3601001]).WakesInTime 1001 ∧
      (holderOf [2592001000]).timeoutMs 1000 = -1702967296 ∧
      ¬ (holderOf [2592001000]).WakesInTime 1000 := by
  have hover : (holderOf [1000]).timeoutMs 1001 = 50 := by decide
  have hhour : (holderOf [1000, 3601001]).timeoutMs 1001 = 3600000 := by decide
  have hdays : (holderOf [2592001000]).timeoutMs 1000 = -1702967296 := by decide
  refine ⟨hover, fun h => ?_, hhour, fun h => ?_, hdays, fun h => ?_⟩
  · have hle := h.notPast ⟨1000, 1000, 1000, .byValue [97], 1⟩ (by decide) (by decide)
    rw [hover] at hle
    exact absurd hle (by decide)
  · have hle := h.notPast ⟨1000, 1000, 1000, .byValue [97], 1⟩ (by decide) (by decide)
    rw [hhour] at hle
    exact absurd hle (by decide)
  · have hnonneg := h.nonneg
    rw [hdays] at hnonneg
    exact absurd hnonneg (by decide)

end LiteKV
