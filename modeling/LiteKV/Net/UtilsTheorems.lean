/-
LiteKV.Net.UtilsTheorems — which results of `read` and `send` the socket
helpers survive.

The next transfer goes to the right place while the size of the last one is
the running total: before the first transfer and after one. A second
transfer from there is still right, and nothing may be transferred after it.
An interrupted call moves the place in front of the buffer.

For `ReadToBuf` the wrong places show in the bytes: with three transfers the
last byte that is counted was never written. For `WriteFromBuf` a transfer
from the wrong place sends a byte again, or the one in front of the buffer.
-/
import LiteKV.Net.Utils

namespace LiteKV

open IoResult

/-- The results a loop gets to while it still has `room` bytes to transfer. -/
def consumed : Nat → List IoResult → List IoResult
  | _, [] => []
  | room, r :: rs =>
      if room = 0 then []
      else
        match r with
        | .count more => .count more :: consumed (room - (more + 1)) rs
        | .eintr => .eintr :: consumed room rs
        | .closed => [.closed]
        | .eagain => [.eagain]

/-- `ReadToBuf` transfers the bytes it claims, into its buffer. -/
def ReadsExactly (len : Nat) (results : List IoResult) : Prop :=
  ∀ (stream : Nat → UInt8) (mem : Memory),
    let out := readToBuf stream mem len results
    (∀ i < out.total, out.mem i = stream i) ∧ ∀ c ∈ out.calls, 0 ≤ c.1 ∧ c.1 + c.2 ≤ len

/-- `WriteFromBuf` transfers the bytes it claims. -/
def WritesExactly (len : Nat) (results : List IoResult) : Prop :=
  ∀ mem : Memory,
    let out := writeFromBuf mem len results
    out.sent = (List.range out.total).map fun (i : Nat) => mem i

theorem consumed_zero {room : Nat} (h : room = 0) (rs : List IoResult) : consumed room rs = [] := by
  subst h
  cases rs with
  | nil => rfl
  | cons r rs => cases r <;> rfl

theorem consumed_count {room more : Nat} (h : room ≠ 0) (rs : List IoResult) :
    consumed room (.count more :: rs) = .count more :: consumed (room - (more + 1)) rs := by
  rw [consumed, if_neg h]

theorem consumed_eintr {room : Nat} (h : room ≠ 0) (rs : List IoResult) :
    consumed room (.eintr :: rs) = .eintr :: consumed room rs := by
  rw [consumed, if_neg h]

/-! ## `ReadToBuf` -/

theorem readLoop_done {stream : Nat → UInt8} {len : Nat} {s : ReadRun} (h : ¬s.total < len)
    (rs : List IoResult) : readLoop stream len rs s = s := by
  cases rs with
  | nil => rw [readLoop, if_neg h]
  | cons r rs => cases r <;> rw [readLoop, if_neg h]

/-- The room left by a delivery. -/
theorem ReadRun.room_deliver (s : ReadRun) (stream : Nat → UInt8) (len more : Nat) :
    len - ((s.call len).deliver stream (min (more + 1) (len - s.total))).total
      = len - s.total - (more + 1) := by
  change len - (s.total + min (more + 1) (len - s.total)) = _
  omega

section

variable (stream : Nat → UInt8) (len : Nat)

theorem readLoop_calls (rs : List IoResult) : ∀ s : ReadRun,
    ∀ c ∈ s.calls, c ∈ (readLoop stream len rs s).calls := by
  induction rs with
  | nil =>
      intro s c hc
      rw [readLoop]
      split
      · exact List.mem_append_left _ hc
      · exact hc
  | cons r rs ih =>
      intro s c hc
      have hcall : c ∈ (s.call len).calls := List.mem_append_left _ hc
      by_cases hlt : s.total < len
      · cases r with
        | count more =>
            rw [readLoop, if_pos hlt]
            exact ih _ c hcall
        | closed =>
            rw [readLoop, if_pos hlt]
            exact hcall
        | eintr =>
            rw [readLoop, if_pos hlt]
            exact ih _ c hcall
        | eagain =>
            rw [readLoop, if_pos hlt]
            exact hcall
      · rw [readLoop_done hlt]
        exact hc

/-- A loop that is not finished makes a call. -/
theorem readLoop_first (rs : List IoResult) {s : ReadRun} (h : s.total < len) :
    (s.last, len - s.total) ∈ (readLoop stream len rs s).calls := by
  have hcall : (s.last, len - s.total) ∈ (s.call len).calls :=
    List.mem_append_right _ List.mem_cons_self
  cases rs with
  | nil =>
      rw [readLoop, if_pos h]
      exact hcall
  | cons r rs =>
      cases r with
      | count more =>
          rw [readLoop, if_pos h]
          exact readLoop_calls stream len rs _ _ hcall
      | closed =>
          rw [readLoop, if_pos h]
          exact hcall
      | eintr =>
          rw [readLoop, if_pos h]
          exact readLoop_calls stream len rs _ _ hcall
      | eagain =>
          rw [readLoop, if_pos h]
          exact hcall

/-- After an interrupted call the next one starts in front of the buffer. -/
theorem readLoop_eintr (rs : List IoResult) : ∀ {s : ReadRun},
    .eintr ∈ consumed (len - s.total) rs →
    ∃ n, ((-1 : Int), n) ∈ (readLoop stream len rs s).calls := by
  induction rs with
  | nil =>
      intro s h
      cases h
  | cons r rs ih =>
      intro s h
      by_cases hlt : s.total < len
      · cases r with
        | count more =>
            rw [consumed_count (by omega)] at h
            rw [readLoop, if_pos hlt]
            refine ih ?_
            rw [ReadRun.room_deliver]
            simpa using h
        | closed =>
            rw [consumed, if_neg (by omega)] at h
            simp at h
        | eintr =>
            rw [readLoop, if_pos hlt]
            exact ⟨_, readLoop_first stream len rs (s := { s.call len with last := -1 }) hlt⟩
        | eagain =>
            rw [consumed, if_neg (by omega)] at h
            simp at h
      · rw [consumed_zero (by omega)] at h
        cases h

/-- The next transfer ends before the last byte that will be counted, and that
byte was never written. -/
structure Behind (s : ReadRun) : Prop where
  counted : 1 ≤ s.total
  within : s.total ≤ len
  last : s.last + 1 ≤ s.total
  untouched : ∀ p : Int, s.total - 1 ≤ p → p < len → s.mem p = 0

variable {stream len}

theorem Behind.deliver {s : ReadRun} (h : Behind len s) {n : Nat} (hn : 1 ≤ n)
    (hfit : s.total + n ≤ len) : Behind len ((s.call len).deliver stream n) := by
  refine ⟨Nat.le_add_right_of_le h.counted, hfit, ?_, fun p hp hlen => ?_⟩
  · have := h.counted
    change (n : Int) + 1 ≤ ((s.total + n : Nat) : Int)
    omega
  · have hlast := h.last
    change ((s.total + n : Nat) : Int) - 1 ≤ p at hp
    change (if s.last ≤ p ∧ p < s.last + n then _ else s.mem p) = 0
    rw [if_neg (by omega)]
    exact h.untouched p (by omega) hlen

/-- Such a run never writes the last byte it counts. -/
theorem Behind.readLoop (rs : List IoResult) : ∀ {s : ReadRun}, Behind len s →
    Behind len (readLoop stream len rs s) := by
  induction rs with
  | nil =>
      intro s h
      rw [LiteKV.readLoop]
      split
      · exact ⟨h.counted, h.within, h.last, h.untouched⟩
      · exact h
  | cons r rs ih =>
      intro s h
      by_cases hlt : s.total < len
      · cases r with
        | count more =>
            rw [LiteKV.readLoop, if_pos hlt]
            exact ih (h.deliver (by omega) (by omega))
        | closed =>
            rw [LiteKV.readLoop, if_pos hlt]
            exact ⟨h.counted, h.within, h.last, h.untouched⟩
        | eintr =>
            rw [LiteKV.readLoop, if_pos hlt]
            exact ih ⟨h.counted, h.within, by change (-1 : Int) + 1 ≤ s.total; omega, h.untouched⟩
        | eagain =>
            rw [LiteKV.readLoop, if_pos hlt]
            exact ⟨h.counted, h.within, h.last, h.untouched⟩
      · rw [readLoop_done hlt]
        exact h

/-- A run that has put every byte in its place, and has not left the buffer. -/
structure ReadRun.Good (stream : Nat → UInt8) (len : Nat) (s : ReadRun) : Prop where
  within : s.total ≤ len
  bytes : ∀ i < s.total, s.mem i = stream i
  ranges : ∀ c ∈ s.calls, 0 ≤ c.1 ∧ c.1 + c.2 ≤ len

theorem ReadRun.Good.call {s : ReadRun} (h : s.Good stream len) (h0 : 0 ≤ s.last)
    (hl : s.last ≤ s.total) : (s.call len).Good stream len := by
  refine ⟨h.within, h.bytes, fun c hc => ?_⟩
  obtain hc | hc := List.mem_append.mp hc
  · exact h.ranges c hc
  · have hw := h.within
    rw [List.mem_singleton] at hc
    subst hc
    exact ⟨h0, by omega⟩

theorem ReadRun.Good.deliver {s : ReadRun} (h : s.Good stream len) (hl : s.last = s.total) {n : Nat}
    (hfit : s.total + n ≤ len) : ((s.call len).deliver stream n).Good stream len := by
  refine ⟨hfit, fun i hi => ?_, (h.call (by omega) (by omega)).ranges⟩
  change (if s.last ≤ (i : Int) ∧ (i : Int) < s.last + n then
    stream (s.total + ((i : Int) - s.last).toNat) else s.mem i) = stream i
  change i < s.total + n at hi
  by_cases hnew : s.total ≤ i
  · rw [if_pos (by omega)]
    congr 1
    omega
  · rw [if_neg (by omega)]
    exact h.bytes i (by omega)

/-- No transfer is left. -/
theorem ReadRun.Good.readLoop_stop (rs : List IoResult) {s : ReadRun} (h : s.Good stream len)
    (h0 : 0 ≤ s.last) (hl : s.last ≤ s.total) (heintr : .eintr ∉ consumed (len - s.total) rs)
    (hcount : (consumed (len - s.total) rs).countP isCount = 0) :
    (readLoop stream len rs s).Good stream len := by
  by_cases hlt : s.total < len
  · cases rs with
    | nil =>
        rw [readLoop, if_pos hlt]
        exact h.call h0 hl
    | cons r rs =>
        cases r with
        | count more =>
            rw [consumed_count (by omega)] at hcount
            simp [isCount] at hcount
        | closed =>
            rw [readLoop, if_pos hlt]
            exact h.call h0 hl
        | eintr =>
            rw [consumed_eintr (by omega)] at heintr
            simp at heintr
        | eagain =>
            rw [readLoop, if_pos hlt]
            exact h.call h0 hl
  · rw [readLoop_done hlt]
    exact h

/-- From a state whose next transfer goes to the right place, with one transfer
left, or with two when nothing has been transferred yet. -/
theorem ReadRun.Good.readLoop_aligned (rs : List IoResult) : ∀ (k : Nat) {s : ReadRun},
    s.Good stream len → s.last = s.total → .eintr ∉ consumed (len - s.total) rs →
    (consumed (len - s.total) rs).countP isCount ≤ k → (k ≤ 1 ∨ (k = 2 ∧ s.total = 0)) →
    (readLoop stream len rs s).Good stream len := by
  induction rs with
  | nil =>
      intro k s h hl heintr hcount _
      exact h.readLoop_stop [] (by omega) (by omega) heintr rfl
  | cons r rs ih =>
      intro k s h hl heintr hcount hk
      by_cases hlt : s.total < len
      · cases r with
        | count more =>
            rw [consumed_count (by omega), ← ReadRun.room_deliver s stream] at heintr hcount
            rw [List.countP_cons_of_pos rfl] at hcount
            rw [LiteKV.readLoop, if_pos hlt]
            have hgood := h.deliver hl (n := min (more + 1) (len - s.total)) (by omega)
            have heintr' := fun hmem => heintr (List.mem_cons_of_mem _ hmem)
            obtain hk | ⟨rfl, hz⟩ := hk
            · refine hgood.readLoop_stop rs (Int.natCast_nonneg _) ?_ heintr' (by omega)
              change ((min (more + 1) (len - s.total) : Nat) : Int) ≤ (s.total + _ : Nat)
              omega
            · refine ih 1 hgood ?_ heintr' (by omega) (.inl (Nat.le_refl 1))
              change ((min (more + 1) (len - s.total) : Nat) : Int) = (s.total + _ : Nat)
              omega
        | closed => exact h.readLoop_stop _ (by omega) (by omega) heintr (by
            rw [consumed, if_neg (by omega)]; rfl)
        | eintr =>
            rw [consumed_eintr (by omega)] at heintr
            simp at heintr
        | eagain => exact h.readLoop_stop _ (by omega) (by omega) heintr (by
            rw [consumed, if_neg (by omega)]; rfl)
      · rw [readLoop_done hlt]
        exact h

/-- One transfer; the bytes behind it stay as they are. -/
theorem readLoop_count (stream : Nat → UInt8) {s : ReadRun} (h : s.total < len) (more : Nat)
    (rs : List IoResult) {q : Int} (hq : ∀ p, q ≤ p → p < len → s.mem p = 0) :
    ∃ s' : ReadRun, readLoop stream len (.count more :: rs) s = readLoop stream len rs s' ∧
      s'.total = s.total + min (more + 1) (len - s.total) ∧
      s'.last = (min (more + 1) (len - s.total) : Nat) ∧
      ∀ p, q ≤ p → s.last + (min (more + 1) (len - s.total) : Nat) ≤ p → p < len →
        s'.mem p = 0 := by
  refine ⟨(s.call len).deliver stream (min (more + 1) (len - s.total)), ?_, rfl, rfl, ?_⟩
  · rw [readLoop, if_pos h]
  · intro p hp hl hlen
    change (if s.last ≤ p ∧ p < s.last + (min (more + 1) (len - s.total) : Nat) then _
      else s.mem p) = 0
    rw [if_neg (by omega)]
    exact hq p hp hlen

end

/-- Without an interrupted call, a transfer that is left comes next. -/
theorem consumed_next {room : Nat} {rs : List IoResult} (heintr : .eintr ∉ consumed room rs)
    (hcount : 0 < (consumed room rs).countP isCount) :
    room ≠ 0 ∧ ∃ more rs', rs = .count more :: rs' := by
  have hroom : room ≠ 0 := by
    intro h
    rw [consumed_zero h] at hcount
    simp at hcount
  refine ⟨hroom, ?_⟩
  cases rs with
  | nil => simp [consumed] at hcount
  | cons r rs =>
      cases r with
      | count more => exact ⟨more, rs, rfl⟩
      | closed =>
          rw [consumed, if_neg hroom] at hcount
          simp [isCount] at hcount
      | eintr =>
          rw [consumed_eintr hroom] at heintr
          simp at heintr
      | eagain =>
          rw [consumed, if_neg hroom] at hcount
          simp [isCount] at hcount

/-- Three transfers put the third one into the wrong place. -/
theorem readLoop_three {len : Nat} {results : List IoResult}
    (heintr : .eintr ∉ consumed len results) (hcount : 2 < (consumed len results).countP isCount)
    (stream : Nat → UInt8) (mem : Memory) :
    Behind len (readToBuf stream mem len results) := by
  obtain ⟨h1, a, rs, rfl⟩ := consumed_next heintr (by omega)
  rw [consumed_count h1] at heintr hcount
  rw [List.countP_cons_of_pos rfl] at hcount
  have heintr₁ : .eintr ∉ consumed (len - (a + 1)) rs := fun h => heintr (List.mem_cons_of_mem _ h)
  obtain ⟨h2, b, rs, rfl⟩ := consumed_next heintr₁ (by omega)
  rw [consumed_count h2] at heintr₁ hcount
  rw [List.countP_cons_of_pos rfl] at hcount
  have heintr₂ : .eintr ∉ consumed (len - (a + 1) - (b + 1)) rs :=
    fun h => heintr₁ (List.mem_cons_of_mem _ h)
  obtain ⟨h3, c, rs, rfl⟩ := consumed_next heintr₂ (by omega)
  have hzero : ∀ p : Int, 0 ≤ p → p < len → mem.zeroed len p = 0 :=
    fun p h0 hl => if_pos ⟨h0, hl⟩
  obtain ⟨s₁, e₁, ht₁, hl₁, hz₁⟩ := readLoop_count stream
    (s := ⟨0, 0, mem.zeroed len, []⟩) (by change 0 < len; omega) a _ hzero
  dsimp only at ht₁ hl₁ hz₁
  -- there is room behind the first two transfers, so they are whole
  have hmin₁ : min (a + 1) (len - 0) = a + 1 := by omega
  rw [hmin₁] at ht₁ hl₁ hz₁
  rw [Nat.zero_add] at ht₁
  obtain ⟨s₂, e₂, ht₂, hl₂, hz₂⟩ := readLoop_count stream (s := s₁) (by omega) b
    (.count c :: rs) (q := ((a + 1 : Nat) : Int)) fun p hp hlen => hz₁ p (by omega) (by omega) hlen
  have hmin₂ : min (b + 1) (len - s₁.total) = b + 1 := by omega
  rw [hmin₂, hl₁] at hz₂
  rw [hmin₂, ht₁] at ht₂
  rw [hmin₂] at hl₂
  obtain ⟨s₃, e₃, ht₃, hl₃, hz₃⟩ := readLoop_count stream (s := s₂) (by omega) c rs
    (q := ((a + b + 2 : Nat) : Int)) fun p hp hlen => hz₂ p (by omega) (by omega) hlen
  rw [hl₂] at hz₃
  rw [readToBuf, e₁, e₂, e₃]
  refine Behind.readLoop rs ⟨by omega, by omega, by omega, fun p hp hlen => ?_⟩
  exact hz₃ p (by omega) (by omega) hlen

/-- `ReadToBuf` is right without interrupted calls and for two transfers. -/
theorem readsExactly_iff (len : Nat) (results : List IoResult) :
    ReadsExactly len results ↔
      .eintr ∉ consumed len results ∧ (consumed len results).countP isCount ≤ 2 := by
  constructor
  · intro h
    have heintr : .eintr ∉ consumed len results := by
      intro hmem
      obtain ⟨n, hn⟩ := readLoop_eintr (fun _ => 0) len results
        (s := ⟨0, 0, Memory.zeroed (fun _ => 0) len, []⟩) hmem
      have hstart : (0 : Int) ≤ -1 := ((h (fun _ => 0) fun _ => 0).2 _ hn).1
      omega
    refine ⟨heintr, ?_⟩
    by_contra hcount
    have hbehind := readLoop_three heintr (by omega) (fun _ => 1) fun _ => 0
    have hlast := (h (fun _ => 1) fun _ => 0).1
      ((readToBuf (fun _ => 1) (fun _ => 0) len results).total - 1)
        (by have := hbehind.counted; omega)
    have hcounted := hbehind.counted
    have hwithin := hbehind.within
    rw [hbehind.untouched _ (by omega) (by omega)] at hlast
    exact absurd hlast (by decide)
  · rintro ⟨heintr, hcount⟩ stream mem
    have hgood : (readToBuf stream mem len results).Good stream len := by
      refine ReadRun.Good.readLoop_aligned results 2 ⟨Nat.zero_le len, ?_, ?_⟩ rfl heintr hcount
        (.inr ⟨rfl, rfl⟩)
      · exact fun i hi => absurd hi (Nat.not_lt_zero i)
      · exact fun c hc => absurd hc List.not_mem_nil
    exact ⟨hgood.bytes, hgood.ranges⟩

/-! ## `WriteFromBuf` -/

/-- Positive counts come first, and there are at most `k`. -/
def LeadingCounts (k : Nat) (results : List IoResult) : Prop :=
  (results.takeWhile isCount).length ≤ k ∧ (results.dropWhile isCount).countP isCount = 0

@[simp] theorem leadingCounts_count {k more : Nat} {rs : List IoResult} :
    LeadingCounts (k + 1) (.count more :: rs) ↔ LeadingCounts k rs := by
  rw [LeadingCounts, LeadingCounts, List.takeWhile_cons_of_pos rfl, List.dropWhile_cons_of_pos rfl,
    List.length_cons, Nat.add_le_add_iff_right]

theorem leadingCounts_other {k : Nat} {r : IoResult} (h : r.isCount = false) {rs : List IoResult} :
    LeadingCounts k (r :: rs) ↔ rs.countP isCount = 0 := by
  simp [LeadingCounts, h]

theorem leadingCounts_zero {rs : List IoResult} : LeadingCounts 0 rs ↔ rs.countP isCount = 0 := by
  induction rs with
  | nil => simp [LeadingCounts]
  | cons r rs ih =>
      cases hr : r.isCount with
      | true => simp [LeadingCounts, hr]
      | false =>
          rw [leadingCounts_other hr]
          simp [hr]

section

variable {mem : Memory} {len : Nat}

theorem writeLoop_done {s : WriteRun} (h : ¬s.total < len) (rs : List IoResult) :
    writeLoop mem len rs s = s := by
  cases rs with
  | nil => rw [writeLoop]
  | cons r rs => cases r <;> rw [writeLoop, if_neg h]

theorem WriteRun.room_accept (s : WriteRun) (mem : Memory) (len more : Nat) :
    len - (s.accept mem (min (more + 1) (len - s.total))).total = len - s.total - (more + 1) := by
  change len - (s.total + min (more + 1) (len - s.total)) = _
  omega

/-- The bytes sent so far stay sent. -/
theorem writeLoop_grows (rs : List IoResult) : ∀ s : WriteRun,
    s.sent <+: (writeLoop mem len rs s).sent ∧ s.total ≤ (writeLoop mem len rs s).total := by
  induction rs with
  | nil =>
      intro s
      rw [writeLoop]
      exact ⟨List.prefix_refl _, Nat.le_refl _⟩
  | cons r rs ih =>
      intro s
      by_cases hlt : s.total < len
      · cases r with
        | count more =>
            rw [writeLoop, if_pos hlt]
            obtain ⟨hp, ht⟩ := ih (s.accept mem (min (more + 1) (len - s.total)))
            exact ⟨(List.prefix_append _ _).trans hp, Nat.le_trans (Nat.le_add_right _ _) ht⟩
        | closed =>
            rw [writeLoop, if_pos hlt]
            exact ih { s with last := 0 }
        | eintr =>
            rw [writeLoop, if_pos hlt]
            exact ih { s with last := -1 }
        | eagain =>
            rw [writeLoop, if_pos hlt]
            exact ⟨List.prefix_refl _, Nat.le_refl _⟩
      · rw [writeLoop_done hlt]
        exact ⟨List.prefix_refl _, Nat.le_refl _⟩

/-- Without a transfer nothing is sent. -/
theorem writeLoop_stop (rs : List IoResult) (hclosed : .closed ∉ rs) : ∀ {s : WriteRun},
    (consumed (len - s.total) rs).countP isCount = 0 →
    (writeLoop mem len rs s).sent = s.sent ∧ (writeLoop mem len rs s).total = s.total := by
  induction rs with
  | nil =>
      intro s _
      rw [writeLoop]
      exact ⟨rfl, rfl⟩
  | cons r rs ih =>
      intro s h
      have hclosed' : .closed ∉ rs := fun hmem => hclosed (List.mem_cons_of_mem _ hmem)
      by_cases hlt : s.total < len
      · cases r with
        | count more =>
            rw [consumed_count (by omega)] at h
            simp [isCount] at h
        | closed => exact absurd List.mem_cons_self hclosed
        | eintr =>
            rw [consumed_eintr (by omega)] at h
            rw [writeLoop, if_pos hlt]
            exact ih hclosed' (s := { s with last := -1 }) (by simpa [isCount] using h)
        | eagain =>
            rw [writeLoop, if_pos hlt]
            exact ⟨rfl, rfl⟩
      · rw [writeLoop_done hlt]
        exact ⟨rfl, rfl⟩

/-- The bytes sent are those of the buffer, from its beginning. -/
def WriteRun.Sends (mem : Memory) (s : WriteRun) : Prop :=
  s.sent = (List.range s.total).map fun (i : Nat) => mem i

theorem WriteRun.Sends.accept {s : WriteRun} (h : s.Sends mem) (hl : s.last = s.total) (n : Nat) :
    (s.accept mem n).Sends mem := by
  unfold Sends at h ⊢
  change s.sent ++ _ = (List.range (s.total + n)).map _
  rw [h, hl, List.range_add, List.map_append, List.map_map]
  congr 1

theorem WriteRun.Sends.writeLoop_stop {rs : List IoResult} (hclosed : .closed ∉ rs) {s : WriteRun}
    (h : s.Sends mem) (hcount : (consumed (len - s.total) rs).countP isCount = 0) :
    (writeLoop mem len rs s).Sends mem := by
  obtain ⟨hsent, htotal⟩ := @LiteKV.writeLoop_stop mem len rs hclosed s hcount
  rw [Sends, hsent, htotal]
  exact h

/-- From a state whose next transfer starts at the right place, with one transfer
left, or with two when nothing has been transferred yet. -/
theorem WriteRun.Sends.writeLoop_aligned (rs : List IoResult) (hclosed : .closed ∉ rs) :
    ∀ (k : Nat) {s : WriteRun}, s.Sends mem → s.last = s.total →
    LeadingCounts k (consumed (len - s.total) rs) → (k = 1 ∨ (k = 2 ∧ s.total = 0)) →
    (writeLoop mem len rs s).Sends mem := by
  induction rs with
  | nil =>
      intro k s h _ _ _
      exact h
  | cons r rs ih =>
      intro k s h hl hlead hk
      have hclosed' : .closed ∉ rs := fun hmem => hclosed (List.mem_cons_of_mem _ hmem)
      by_cases hlt : s.total < len
      · cases r with
        | count more =>
            rw [consumed_count (by omega), ← WriteRun.room_accept s mem] at hlead
            rw [writeLoop, if_pos hlt]
            have hsends := h.accept hl (min (more + 1) (len - s.total))
            obtain rfl | ⟨rfl, hz⟩ := hk
            · rw [leadingCounts_count, leadingCounts_zero] at hlead
              exact hsends.writeLoop_stop hclosed' hlead
            · refine ih hclosed' 1 hsends ?_ (leadingCounts_count.mp hlead) (.inl rfl)
              change ((min (more + 1) (len - s.total) : Nat) : Int) = (s.total + _ : Nat)
              omega
        | closed => exact absurd List.mem_cons_self hclosed
        | eintr =>
            refine h.writeLoop_stop hclosed ?_
            rw [consumed_eintr (by omega)] at hlead ⊢
            rw [leadingCounts_other rfl] at hlead
            simpa [isCount] using hlead
        | eagain =>
            refine h.writeLoop_stop hclosed ?_
            rw [consumed, if_neg (by omega)]
            rfl
      · rw [writeLoop_done hlt]
        exact h

/-- A transfer from the wrong place sends a byte that is not the next one. -/
theorem writeLoop_misplaced (rs : List IoResult) (hclosed : .closed ∉ rs) : ∀ {s : WriteRun},
    s.sent.length = s.total → s.last ≠ s.total → (∀ p : Int, p ≠ s.total → mem p = 0) →
    0 < (consumed (len - s.total) rs).countP isCount →
    (writeLoop mem len rs s).sent[s.total]? = some 0 ∧
    s.total < (writeLoop mem len rs s).total := by
  induction rs with
  | nil =>
      intro s _ _ _ h
      simp [consumed] at h
  | cons r rs ih =>
      intro s hlen hlast hmem h
      have hclosed' : .closed ∉ rs := fun hmem => hclosed (List.mem_cons_of_mem _ hmem)
      by_cases hlt : s.total < len
      · cases r with
        | count more =>
            rw [writeLoop, if_pos hlt]
            obtain ⟨n, hn⟩ : ∃ n, min (more + 1) (len - s.total) = n + 1 :=
              ⟨min (more + 1) (len - s.total) - 1, by omega⟩
            rw [hn]
            obtain ⟨⟨more, hsent⟩, ht⟩ := @writeLoop_grows mem len rs
              (s.accept mem (n + 1))
            refine ⟨?_, by change s.total + (n + 1) ≤ _ at ht; omega⟩
            have hfirst : (s.accept mem (n + 1)).sent[s.total]? = some 0 := by
              change (s.sent ++ _)[s.total]? = some 0
              rw [List.getElem?_append_right (by omega), hlen, Nat.sub_self, List.getElem?_map,
                List.getElem?_range (by omega)]
              simp [hmem s.last hlast]
            rw [← hsent, List.getElem?_append_left, hfirst]
            change s.total < (s.sent ++ _).length
            simp
            omega
        | closed => exact absurd List.mem_cons_self hclosed
        | eintr =>
            rw [consumed_eintr (by omega)] at h
            rw [writeLoop, if_pos hlt]
            exact ih hclosed' (s := { s with last := -1 }) hlen
              (by change (-1 : Int) ≠ s.total; omega) hmem (by simpa [isCount] using h)
        | eagain =>
            rw [consumed, if_neg (by omega)] at h
            simp [isCount] at h
      · rw [consumed_zero (by omega)] at h
        simp at h

/-- A run with a transfer too many sends a byte that is not the next one, at a
place that does not depend on the memory. -/
theorem writeLoop_missends (len : Nat) (rs : List IoResult) (hclosed : .closed ∉ rs) :
    ∀ (k total : Nat), ¬LeadingCounts k (consumed (len - total) rs) →
    ((k = 1 ∧ total ≠ 0) ∨ (k = 2 ∧ total = 0)) →
    ∃ P : Nat, ∀ (mem : Memory) (sent : Bytes), sent.length = total →
      (∀ p : Int, p ≠ P → mem p = 0) →
      (writeLoop mem len rs ⟨total, total, sent⟩).sent[P]? = some 0 ∧
        P < (writeLoop mem len rs ⟨total, total, sent⟩).total := by
  induction rs with
  | nil =>
      intro k total hlead _
      exact absurd ⟨Nat.zero_le k, rfl⟩ hlead
  | cons r rs ih =>
      intro k total hlead hk
      have hclosed' : .closed ∉ rs := fun hmem => hclosed (List.mem_cons_of_mem _ hmem)
      by_cases hlt : total < len
      · cases r with
        | count more =>
            rw [consumed_count (by omega)] at hlead
            have hroom :
                len - total - (more + 1) = len - (total + min (more + 1) (len - total)) := by
              omega
            rw [hroom] at hlead
            obtain ⟨rfl, hz⟩ | ⟨rfl, rfl⟩ := hk
            · -- the second transfer: the next one starts at the wrong place
              rw [leadingCounts_count, leadingCounts_zero] at hlead
              refine ⟨total + min (more + 1) (len - total), fun mem sent hlen hmem => ?_⟩
              rw [writeLoop, if_pos hlt]
              refine writeLoop_misplaced rs hclosed'
                (s := WriteRun.accept ⟨total, total, sent⟩ mem (min (more + 1) (len - total)))
                ?_ ?_ hmem (by
                  change 0 < (consumed (len - (total + min (more + 1) (len - total))) rs).countP _
                  omega)
              · simp [WriteRun.accept, hlen]
              · change ((min (more + 1) (len - total) : Nat) : Int) ≠ (total + _ : Nat)
                omega
            · obtain ⟨P, hP⟩ := ih hclosed' 1 _ (fun h => hlead (leadingCounts_count.mpr h))
                (.inl ⟨rfl, by omega⟩)
              refine ⟨P, fun mem sent hlen hmem => ?_⟩
              rw [writeLoop, if_pos hlt]
              have hnext := hP mem
                (WriteRun.accept ⟨0, 0, sent⟩ mem (min (more + 1) (len - 0))).sent
                (by simp [WriteRun.accept, hlen]) hmem
              simpa [WriteRun.accept] using hnext
        | closed => exact absurd List.mem_cons_self hclosed
        | eintr =>
            rw [consumed_eintr (by omega), leadingCounts_other rfl] at hlead
            refine ⟨total, fun mem sent hlen hmem => ?_⟩
            rw [writeLoop, if_pos hlt]
            exact writeLoop_misplaced rs hclosed' (s := ⟨total, -1, sent⟩) hlen
              (by change (-1 : Int) ≠ total; omega) hmem (by dsimp only; omega)
        | eagain =>
            rw [consumed, if_neg (by omega), leadingCounts_other rfl] at hlead
            exact absurd rfl hlead
      · rw [consumed_zero (by omega)] at hlead
        exact absurd ⟨Nat.zero_le k, rfl⟩ hlead

end

/-- `WriteFromBuf` is right when its transfers come first and are at most two. -/
theorem writesExactly_iff (len : Nat) {results : List IoResult} (hclosed : .closed ∉ results) :
    WritesExactly len results ↔ LeadingCounts 2 (consumed len results) := by
  constructor
  · intro h
    by_contra hlead
    obtain ⟨P, hP⟩ := writeLoop_missends len results hclosed 2 0 hlead (.inr ⟨rfl, rfl⟩)
    obtain ⟨hsent, hlt⟩ := hP (fun p => if p = P then 1 else 0) [] rfl fun p hp => if_neg hp
    have hall := h fun p => if p = P then 1 else 0
    dsimp only [writeFromBuf] at hall
    change (writeLoop _ len results ⟨0, 0, []⟩).sent[P]? = some 0 at hsent
    change P < (writeLoop _ len results ⟨0, 0, []⟩).total at hlt
    rw [hall, List.getElem?_map, List.getElem?_range hlt] at hsent
    simp at hsent
  · intro hlead mem
    exact WriteRun.Sends.writeLoop_aligned results hclosed 2 (s := ⟨0, 0, []⟩) rfl rfl hlead
      (.inr ⟨rfl, rfl⟩)

/-- **The socket helpers transfer the bytes they claim** exactly when the results
they get to have their positive counts in front, at most two of them, and for
`ReadToBuf` no interrupted call. -/
theorem transfers_iff (len : Nat) (reads : List IoResult) {sends : List IoResult}
    (hclosed : .closed ∉ sends) :
    (ReadsExactly len reads ↔
      .eintr ∉ consumed len reads ∧ (consumed len reads).countP isCount ≤ 2) ∧
    (WritesExactly len sends ↔ LeadingCounts 2 (consumed len sends)) :=
  ⟨readsExactly_iff len reads, writesExactly_iff len hclosed⟩

/-- Two partial transfers in each direction. -/
theorem transfers_iff_two :
    .closed ∉ [count 1, count 3] ∧ ReadsExactly 6 [count 1, count 3] ∧
      WritesExactly 6 [count 1, count 3] := by
  have hsend : .closed ∉ [count 1, count 3] := by decide
  obtain ⟨hread, hwrite⟩ := transfers_iff 6 [count 1, count 3] hsend
  exact ⟨hsend, hread.mpr (by decide), hwrite.mpr ⟨by decide, by decide⟩⟩

/-- Three reads of one byte: the third byte is put on the second one's place. An
interrupted read: the next one writes in front of the buffer. Three sends of
one byte: the second byte is sent twice. -/
theorem partial_transfers_overlap :
    ¬ReadsExactly 3 [count 0, count 0, count 0] ∧ ¬ReadsExactly 1 [eintr, count 0] ∧
      ¬WritesExactly 3 [count 0, count 0, count 0] := by
  refine ⟨fun h => ?_, fun h => ?_, fun h => ?_⟩
  · exact absurd ((h (fun _ => 1) fun _ => 0).1 2 (by decide)) (by decide)
  · exact absurd ((h (fun _ => 1) fun _ => 0).2 (-1, 1) (by decide)).1 (by decide)
  · exact absurd (h fun p => if p = 2 then 1 else 0) (by decide)

end LiteKV
