/-
LiteKV.Net.WaitTheorems — which beginnings of a request can be completed.

`missing` reads the bytes like the parser does and adds up what is still to
come: the rest of a line end, the rest of an argument, and six bytes
(`$0\r\n\r\n`) for every argument that has not begun. It finds nothing for a
negative count or length, and for a byte other than `\r` where a line should
end.

For a beginning that waits, the count is exact. `…_needs` are the lower
bounds: whatever completes the piece has at least that many bytes.
`…_completes` give a continuation of exactly that length. The bound on the
size of a buffer matters here: cast to `size_t`, a negative length is a
length that no buffer holds.
-/
import LiteKV.Net.ParserTheorems

namespace LiteKV

open CommandCache Command

/-- `std::vector<char>::max_size()`. -/
def maxBuffer : Nat := 2 ^ 63 - 1

/-! ## What is missing -/

/-- The bytes missing to a line end, of which `s` is there. -/
def missingCrlf (s : Bytes) : Option Nat :=
  if s = [] then some 2 else if s = [13] then some 1 else none

/-- The bytes missing to a number with its line end, and behind it. -/
def missingLine (s : Bytes) (behind : Nat → Nat) : Option Nat :=
  if (strtoll s).1 < 0 then none
  else (missingCrlf (s.drop (strtoll s).2)).map fun m => m + behind (strtoll s).1.toNat

/-- The bytes missing to `n` bytes and their line end. -/
def missingBytes (n : Int) (s : Bytes) : Option Nat :=
  if n < 0 then none
  else if s.length < n.toNat then some (n.toNat - s.length + 2)
  else missingCrlf (s.drop n.toNat)

/-- The bytes missing to an argument that has begun. -/
def missingArg (s : Bytes) : Option Nat :=
  if s.drop 1 = [] then some 5
  else
    match numLine (s.drop 1) with
    | .error _ => missingLine (s.drop 1) fun n => n + 2
    | .ok (n, used) => missingBytes n ((s.drop 1).drop used)

/-- The bytes missing to `n` arguments; none behind an error. -/
def missingItems : Nat → Bytes → Option Nat
  | 0, _ => some 0
  | n + 1, s =>
      if s = [] then some (6 * (n + 1))
      else
        match scanArg s with
        | .error true => some 0
        | .error false => (missingArg s).map fun m => m + 6 * n
        | .ok (_, used) => missingItems n (s.drop used)

/-- The bytes missing to a request; none behind an error. -/
def missing (r : Bytes) : Option Nat :=
  if r = [] then some 4
  else if r.head? ≠ some 42 then some 0
  else
    match numLine (r.drop 1) with
    | .error true => some 0
    | .error false => missingLine (r.drop 1) fun n => 6 * n
    | .ok (n, used) => if n < 0 then none else missingItems n.toNat (r.drop (1 + used))

/-! ## Line ends -/

theorem missingCrlf_needs {s t : Bytes} (hs : s.length < 2) (h : (s ++ t).take 2 = crlf) :
    missingCrlf s = some (2 - s.length) := by
  unfold missingCrlf
  cases s with
  | nil => rfl
  | cons b s =>
      have hnil : s = [] := by
        rw [List.length_cons] at hs
        exact List.length_eq_zero_iff.mp (by omega)
      subst hnil
      have hb : b = 13 := by
        have := congrArg List.head? h
        simpa [crlf] using this
      simp [hb]

theorem missingCrlf_completes {s : Bytes} {m : Nat} (h : missingCrlf s = some m) :
    s ++ crlf.drop s.length = crlf ∧ (crlf.drop s.length).length = m ∧ s.length + m = 2 := by
  unfold missingCrlf at h
  by_cases hnil : s = []
  · rw [if_pos hnil] at h
    cases h
    subst hnil
    exact ⟨rfl, rfl, rfl⟩
  · rw [if_neg hnil] at h
    by_cases h13 : s = [13]
    · rw [if_pos h13] at h
      cases h
      subst h13
      exact ⟨rfl, rfl, rfl⟩
    · rw [if_neg h13] at h
      cases h

/-- A line that waits has its number and less than a line end behind it. -/
theorem numLine_waits {s : Bytes} (h : numLine s = .error false) :
    (strtoll s).2 ≠ 0 ∧ (s.drop (strtoll s).2).length < 2 := by
  unfold numLine at h
  dsimp only at h
  by_cases hz : (strtoll s).2 = 0
  · simp [hz] at h
  · rw [if_neg hz] at h
    by_cases hc : (s.drop (strtoll s).2).take 2 = crlf
    · simp [hc] at h
    · rw [if_pos hc, Except.error.injEq, decide_eq_false_iff_not] at h
      exact ⟨hz, by omega⟩

/-- The number and the length of a line that is read. -/
theorem numLine_ok {s : Bytes} {n : Int} {used : Nat} (h : numLine s = .ok (n, used)) :
    (strtoll s).2 ≠ 0 ∧ (s.drop (strtoll s).2).take 2 = crlf ∧ n = (strtoll s).1 ∧
      used = (strtoll s).2 + 2 := by
  unfold numLine at h
  dsimp only at h
  by_cases hz : (strtoll s).2 = 0
  · simp [hz] at h
  · rw [if_neg hz] at h
    by_cases hc : (s.drop (strtoll s).2).take 2 = crlf
    · rw [if_neg (not_not_intro hc)] at h
      cases h
      exact ⟨hz, hc, rfl, rfl⟩
    · simp [hc] at h

/-- Whatever completes a line: its number is not smaller. -/
theorem numLine_needs {s t : Bytes} (h : numLine s = .error false) {n : Int} {used : Nat}
    (hok : numLine (s ++ t) = .ok (n, used)) (hn : 0 ≤ n) :
    0 ≤ (strtoll s).1 ∧ (strtoll s).1 ≤ n ∧
      ∃ m, missingCrlf (s.drop (strtoll s).2) = some m ∧ s.length + m ≤ used := by
  obtain ⟨hz, hshort⟩ := numLine_waits h
  obtain ⟨-, hcrlf, rfl, rfl⟩ := numLine_ok hok
  have hused := strtoll_used_le s
  have hlen := List.length_drop (i := (strtoll s).2) (l := s)
  obtain ⟨hmono, hsign, hval⟩ := strtoll_append_le hz t
  refine ⟨?_, hval hn, ?_⟩
  · by_contra hneg
    have := hsign (by omega)
    omega
  · by_cases hrest : s.drop (strtoll s).2 = []
    · rw [hrest]
      rw [hrest, List.length_nil] at hlen
      exact ⟨2, rfl, by omega⟩
    · have hpos := List.length_pos_iff.mpr hrest
      have hsame : strtoll (s ++ t) = strtoll s := strtoll_append hz (.inl (by omega))
      rw [hsame, List.drop_append_of_le_length hused] at hcrlf
      refine ⟨_, missingCrlf_needs hshort hcrlf, ?_⟩
      rw [hsame]
      omega

/-- The rest of its line end completes a line. -/
theorem numLine_completes {s : Bytes} (h : numLine s = .error false) {m : Nat}
    (hm : missingCrlf (s.drop (strtoll s).2) = some m) :
    ∃ t, t.length = m ∧ ∀ t', numLine (s ++ (t ++ t')) = .ok ((strtoll s).1, s.length + m) := by
  obtain ⟨hz, hshort⟩ := numLine_waits h
  obtain ⟨hcrlf, hlen, hm⟩ := missingCrlf_completes hm
  have hused := strtoll_used_le s
  have hdrop := List.length_drop (i := (strtoll s).2) (l := s)
  refine ⟨_, hlen, fun t' => ?_⟩
  have hsame : strtoll (s ++ (crlf.drop (s.drop (strtoll s).2).length ++ t')) = strtoll s := by
    refine strtoll_append hz ?_
    by_cases hrest : s.drop (strtoll s).2 = []
    · rw [hrest]
      exact .inr (noDigitStart_crlf t')
    · have hpos := List.length_pos_iff.mpr hrest
      exact .inl (by omega)
  unfold numLine
  dsimp only
  rw [hsame, if_neg hz, List.drop_append_of_le_length hused, ← List.append_assoc, hcrlf,
    take_two_crlf, if_neg (not_not_intro rfl)]
  have : (strtoll s).2 + 2 = s.length + m := by omega
  rw [this]

/-! ## Arguments -/

theorem toSizeT_of_nonneg {n : Int} (h0 : 0 ≤ n) (h : n < 2 ^ 63) :
    ParseState.toSizeT n = n.toNat := by
  rw [ParseState.toSizeT]
  omega

/-- A negative length, cast, is larger than any buffer. -/
theorem maxBuffer_lt_toSizeT {n : Int} (hl : -2 ^ 63 ≤ n) (h : n < 0) :
    maxBuffer < ParseState.toSizeT n := by
  rw [ParseState.toSizeT, maxBuffer]
  omega

/-- The bytes of an argument that is read, with its length. -/
theorem takeArg_ok {n : Int} {used : Nat} {s arg : Bytes} {u : Nat}
    (h : takeArg n used s = .ok (arg, u)) :
    ParseState.toSizeT n ≤ s.length ∧ (s.drop (ParseState.toSizeT n)).take 2 = crlf ∧
      u = used + ParseState.toSizeT n + 2 := by
  unfold takeArg at h
  dsimp only at h
  by_cases hl : s.length < ParseState.toSizeT n
  · simp [hl] at h
  · rw [if_neg hl] at h
    by_cases hc : (s.drop (ParseState.toSizeT n)).take 2 = crlf
    · rw [if_neg (not_not_intro hc)] at h
      cases h
      exact ⟨by omega, hc, rfl⟩
    · simp [hc] at h

theorem missingBytes_needs {n : Int} (hl : -2 ^ 63 ≤ n) (hu : n < 2 ^ 63) {used : Nat}
    {s t arg : Bytes} {u : Nat} (h : takeArg n used s = .error false)
    (hok : takeArg n used (s ++ t) = .ok (arg, u)) (hfit : (s ++ t).length ≤ maxBuffer) :
    ∃ m, missingBytes n s = some m ∧ used + s.length + m ≤ u := by
  obtain ⟨hlen, hcrlf, rfl⟩ := takeArg_ok hok
  have h0 : 0 ≤ n := by
    by_contra hneg
    have := maxBuffer_lt_toSizeT hl (by omega)
    omega
  rw [toSizeT_of_nonneg h0 hu] at hlen hcrlf ⊢
  unfold missingBytes
  rw [if_neg (by omega)]
  by_cases hshort : s.length < n.toNat
  · rw [if_pos hshort]
    exact ⟨_, rfl, by omega⟩
  · rw [if_neg hshort]
    rw [List.drop_append_of_le_length (by omega)] at hcrlf
    have hdrop := List.length_drop (i := n.toNat) (l := s)
    have hless : (s.drop n.toNat).length < 2 := by
      unfold takeArg at h
      dsimp only at h
      rw [toSizeT_of_nonneg h0 hu, if_neg hshort] at h
      by_cases hc : (s.drop n.toNat).take 2 = crlf
      · simp [hc] at h
      · rw [if_pos hc, Except.error.injEq, decide_eq_false_iff_not] at h
        omega
    exact ⟨_, missingCrlf_needs hless hcrlf, by omega⟩

theorem missingBytes_completes {n : Int} (hu : n < 2 ^ 63) (used : Nat) {s : Bytes} {m : Nat}
    (hm : missingBytes n s = some m) :
    ∃ t arg, t.length = m ∧
      ∀ t', takeArg n used (s ++ (t ++ t')) = .ok (arg, used + s.length + m) := by
  unfold missingBytes at hm
  by_cases hneg : n < 0
  · simp [hneg] at hm
  rw [if_neg hneg] at hm
  unfold takeArg
  rw [toSizeT_of_nonneg (by omega) hu]
  dsimp only
  by_cases hshort : s.length < n.toNat
  · rw [if_pos hshort] at hm
    cases hm
    refine ⟨List.replicate (n.toNat - s.length) 0 ++ crlf,
      s ++ List.replicate (n.toNat - s.length) 0, by simp [crlf], fun t' => ?_⟩
    have hsplit : s ++ (List.replicate (n.toNat - s.length) 0 ++ crlf ++ t')
        = (s ++ List.replicate (n.toNat - s.length) 0) ++ (crlf ++ t') := by simp
    have hlen : (s ++ List.replicate (n.toNat - s.length) (0 : UInt8)).length = n.toNat := by
      simp only [List.length_append, List.length_replicate]
      omega
    rw [hsplit, List.drop_left' hlen, List.take_left' hlen, take_two_crlf,
      if_neg (by rw [List.length_append]; omega), if_neg (not_not_intro rfl)]
    congr 2
    omega
  · rw [if_neg hshort] at hm
    obtain ⟨hcrlf, hlen, hsum⟩ := missingCrlf_completes hm
    have hdrop := List.length_drop (i := n.toNat) (l := s)
    refine ⟨_, s.take n.toNat, hlen, fun t' => ?_⟩
    rw [if_neg (by rw [List.length_append]; omega), List.drop_append_of_le_length (by omega),
      ← List.append_assoc, hcrlf, take_two_crlf, if_neg (not_not_intro rfl),
      List.take_append_of_le_length (by omega)]
    congr 2
    omega

/-- An argument that waits: its `$` alone, or a piece of its length or of its
bytes. -/
theorem scanArg_waits {s : Bytes} (h : scanArg s = .error false) :
    ∃ s₁, s = 36 :: s₁ ∧ (s₁ = [] ∨ numLine s₁ = .error false ∨
      ∃ n used, numLine s₁ = .ok (n, used) ∧
        takeArg n (1 + used) (s₁.drop used) = .error false) := by
  rw [scanArg_eq] at h
  by_cases h36 : s.head? = some 36
  · obtain ⟨b, s₁, rfl⟩ : ∃ b s', s = b :: s' := by
      cases s with
      | nil => cases h36
      | cons b s => exact ⟨b, s, rfl⟩
    cases h36
    refine ⟨s₁, rfl, ?_⟩
    rw [List.head?_cons, if_neg (not_not_intro rfl), List.drop_succ_cons, List.drop_zero] at h
    by_cases hnil : s₁ = []
    · exact .inl hnil
    · rw [if_neg hnil] at h
      cases hline : numLine s₁ with
      | error bad =>
          rw [hline] at h
          cases h
          exact .inr (.inl rfl)
      | ok x =>
          rw [hline] at h
          exact .inr (.inr ⟨x.1, x.2, rfl, h⟩)
  · simp [h36] at h

/-- The length line of an argument behind a `$`. -/
theorem scanArg_cons {s₁ : Bytes} (h : s₁ ≠ []) : scanArg (36 :: s₁)
    = (numLine s₁).bind fun x => takeArg x.1 (1 + x.2) (s₁.drop x.2) := by
  rw [scanArg_eq, List.head?_cons, if_neg (not_not_intro rfl), List.drop_succ_cons, List.drop_zero,
    if_neg h]

theorem numLine_range {s : Bytes} {n : Int} {used : Nat} (h : numLine s = .ok (n, used)) :
    -2 ^ 63 ≤ n ∧ n < 2 ^ 63 := by
  obtain ⟨-, -, rfl, -⟩ := numLine_ok h
  exact strtoll_fits s

theorem missingArg_needs {s t arg : Bytes} {u : Nat} (h : scanArg s = .error false)
    (hok : scanArg (s ++ t) = .ok (arg, u)) (hfit : (s ++ t).length ≤ maxBuffer) :
    ∃ m, missingArg s = some m ∧ s.length + m ≤ u := by
  obtain ⟨s₁, rfl, hcase⟩ := scanArg_waits h
  obtain ⟨-, hsix, -⟩ := scanArg_append hok []
  unfold missingArg
  rw [List.drop_succ_cons, List.drop_zero]
  by_cases hnil : s₁ = []
  · rw [if_pos hnil]
    subst hnil
    exact ⟨5, rfl, hsix⟩
  rw [if_neg hnil]
  rw [List.cons_append] at hok hfit
  rw [List.length_cons] at hfit
  obtain ⟨-, x, hline', htake'⟩ := scanArg_ok hok
  rw [List.drop_succ_cons, List.drop_zero] at hline' htake'
  obtain hnil' | hline | ⟨n, used, hline, htake⟩ := hcase
  · exact absurd hnil' hnil
  · obtain ⟨hlen', -, hu'⟩ := takeArg_ok htake'
    have hrange := numLine_range hline'
    have h0 : 0 ≤ x.1 := by
      by_contra hneg
      have := maxBuffer_lt_toSizeT hrange.1 (by omega)
      rw [List.length_drop] at hlen'
      omega
    rw [toSizeT_of_nonneg h0 hrange.2] at hu'
    obtain ⟨hs0, hsn, m, hm, hmu⟩ := numLine_needs hline hline' h0
    rw [hline]
    dsimp only
    unfold missingLine
    rw [if_neg (by omega), hm]
    refine ⟨m + ((strtoll s₁).1.toNat + 2), rfl, ?_⟩
    rw [List.length_cons]
    omega
  · obtain ⟨hsame, -, hused⟩ := numLine_append hline t
    rw [hsame] at hline'
    cases hline'
    rw [List.drop_append_of_le_length hused] at htake'
    have hrange := numLine_range hline
    obtain ⟨m, hm, hmu⟩ := missingBytes_needs hrange.1 hrange.2 htake htake' (by
      rw [List.length_append] at hfit ⊢
      rw [List.length_drop]
      omega)
    rw [hline]
    rw [List.length_drop] at hmu
    exact ⟨m, hm, by rw [List.length_cons]; omega⟩

theorem missingBytes_nil {n : Int} (h : 0 ≤ n) : missingBytes n [] = some (n.toNat + 2) := by
  unfold missingBytes
  rw [if_neg (by omega)]
  by_cases h0 : n.toNat = 0
  · simp [h0, missingCrlf]
  · rw [List.length_nil, if_pos (by omega)]
    rfl

/-- A line that waits with a number that is not negative. -/
theorem missingLine_eq_some {s : Bytes} {behind : Nat → Nat} {m : Nat}
    (h : missingLine s behind = some m) :
    0 ≤ (strtoll s).1 ∧ ∃ k, missingCrlf (s.drop (strtoll s).2) = some k ∧
      m = k + behind (strtoll s).1.toNat := by
  unfold missingLine at h
  by_cases hneg : (strtoll s).1 < 0
  · simp [hneg] at h
  · rw [if_neg hneg] at h
    obtain ⟨k, hk, rfl⟩ := Option.map_eq_some_iff.mp h
    exact ⟨by omega, k, hk, rfl⟩

theorem missingArg_completes {s : Bytes} (h : scanArg s = .error false) {m : Nat}
    (hm : missingArg s = some m) :
    ∃ t arg, t.length = m ∧ ∀ t', scanArg (s ++ (t ++ t')) = .ok (arg, s.length + m) := by
  obtain ⟨s₁, rfl, hcase⟩ := scanArg_waits h
  unfold missingArg at hm
  rw [List.drop_succ_cons, List.drop_zero] at hm
  by_cases hnil : s₁ = []
  · rw [if_pos hnil] at hm
    cases hm
    subst hnil
    exact ⟨(itemString []).drop 1, [], rfl, fun t' => scanArg_item (by decide) t'⟩
  rw [if_neg hnil] at hm
  have hne : ∀ t, s₁ ++ t ≠ [] := fun t hn => hnil (List.append_eq_nil_iff.mp hn).1
  obtain hnil' | hline | ⟨n, used, hline, htake⟩ := hcase
  · exact absurd hnil' hnil
  · rw [hline] at hm
    obtain ⟨h0, k, hk, rfl⟩ := missingLine_eq_some hm
    obtain ⟨t₁, ht₁, hline'⟩ := numLine_completes hline hk
    obtain ⟨t₂, arg, ht₂, htake'⟩ := missingBytes_completes (strtoll_fits s₁).2
      (1 + (s₁.length + k)) (missingBytes_nil h0)
    refine ⟨t₁ ++ t₂, arg, by rw [List.length_append, ht₁, ht₂], fun t' => ?_⟩
    rw [List.cons_append, scanArg_cons (hne _), List.append_assoc t₁, hline']
    change takeArg (strtoll s₁).1 (1 + (s₁.length + k)) (List.drop (s₁.length + k) _) = _
    rw [← List.append_assoc s₁, List.drop_left' (by rw [List.length_append, ht₁]),
      ← List.nil_append t₂, List.append_assoc, htake']
    rw [List.length_nil, List.length_cons]
    congr 2
    omega
  · rw [hline] at hm
    obtain ⟨t, arg, ht, htake'⟩ := missingBytes_completes (numLine_range hline).2
      (1 + used) hm
    refine ⟨t, arg, ht, fun t' => ?_⟩
    obtain ⟨hline', -, hused⟩ := numLine_append hline (t ++ t')
    rw [List.cons_append, scanArg_cons (hne _), hline']
    change takeArg n (1 + used) (List.drop used _) = _
    rw [List.drop_append_of_le_length hused, htake', List.length_drop, List.length_cons]
    congr 2
    omega

/-! ## The arguments of a request -/

/-- Arguments that are read take six bytes each at least. -/
theorem attemptItems_six (n : Nat) : ∀ {s : Bytes} {args : List Bytes} {used : Nat},
    attemptItems n s = .request args used → 6 * n ≤ used ∧ used ≤ s.length := by
  induction n with
  | zero =>
      intro s args used h
      cases h
      simp
  | succ n ih =>
      intro s args used h
      obtain ⟨arg, u, as, more, hscan, hrest, -, rfl⟩ := attemptItems_request h
      obtain ⟨-, hsix, hu⟩ := scanArg_append hscan []
      obtain ⟨h1, h2⟩ := ih hrest
      rw [List.length_drop] at h2
      omega

/-- Where the arguments of a request wait. -/
theorem attemptItems_waits {n : Nat} {s : Bytes} (h : attemptItems (n + 1) s = .waits) :
    s = [] ∨ (s ≠ [] ∧ scanArg s = .error false) ∨
      ∃ arg u, s ≠ [] ∧ scanArg s = .ok (arg, u) ∧ attemptItems n (s.drop u) = .waits := by
  rw [attemptItems] at h
  by_cases hs : s = []
  · exact .inl hs
  · rw [if_neg hs] at h
    cases hscan : scanArg s with
    | error bad =>
        cases bad with
        | true => simp [hscan] at h
        | false => exact .inr (.inl ⟨hs, rfl⟩)
    | ok x =>
        obtain ⟨arg, u⟩ := x
        refine .inr (.inr ⟨arg, u, hs, rfl, ?_⟩)
        cases hrest : attemptItems n (s.drop u) with
        | request as more => simp [hscan, hrest] at h
        | malformed => simp [hscan, hrest] at h
        | waits => rfl

/-- Behind an argument that is read. -/
theorem attemptItems_cons {n : Nat} {s arg : Bytes} {u : Nat} (hscan : scanArg s = .ok (arg, u))
    {args : List Bytes} {more : Nat} (hrest : attemptItems n (s.drop u) = .request args more) :
    attemptItems (n + 1) s = .request (arg :: args) (u + more) := by
  have hs : s ≠ [] := by
    rintro rfl
    cases hscan
  rw [attemptItems, if_neg hs, hscan]
  dsimp only
  rw [hrest]

/-- Empty arguments are the shortest. -/
theorem attemptItems_empty (n : Nat) :
    (items (List.replicate n [])).length = 6 * n ∧ ∀ t, ∃ args used,
      attemptItems n (items (List.replicate n []) ++ t) = .request args used := by
  induction n with
  | zero => exact ⟨rfl, fun t => ⟨[], 0, rfl⟩⟩
  | succ n ih =>
      obtain ⟨hlen, hread⟩ := ih
      rw [List.replicate_succ, items_cons]
      refine ⟨?_, fun t => ?_⟩
      · rw [List.length_append, hlen]
        simp [itemString, natToString, natDigits, crlf]
        omega
      · obtain ⟨args, used, hargs⟩ := hread t
        have hscan := scanArg_item (a := []) (by decide) (items (List.replicate n []) ++ t)
        rw [List.append_assoc]
        refine ⟨[] :: args, (itemString []).length + used, attemptItems_cons hscan ?_⟩
        rw [List.drop_left]
        exact hargs

theorem missingItems_needs (n : Nat) : ∀ {s t : Bytes} {args : List Bytes} {u : Nat},
    attemptItems n s = .waits → attemptItems n (s ++ t) = .request args u →
    (s ++ t).length ≤ maxBuffer → ∃ m, missingItems n s = some m ∧ s.length + m ≤ u := by
  induction n with
  | zero =>
      intro s t args u h
      cases h
  | succ n ih =>
      intro s t args u h hok hfit
      obtain ⟨arg, used, as, more, hscan', hrest', -, rfl⟩ := attemptItems_request hok
      obtain ⟨hsix, -⟩ := attemptItems_six _ hok
      obtain ⟨hmore, -⟩ := attemptItems_six _ hrest'
      obtain rfl | ⟨hs, hscan⟩ | ⟨arg', u', hs, hscan, hrest⟩ := attemptItems_waits h
      · exact ⟨_, if_pos rfl, by rw [List.length_nil]; omega⟩
      · obtain ⟨m, hm, hmu⟩ := missingArg_needs hscan hscan' hfit
        rw [missingItems, if_neg hs, hscan]
        dsimp only
        rw [hm]
        exact ⟨m + 6 * n, rfl, by omega⟩
      · obtain ⟨hsame, -, hu'⟩ := scanArg_append hscan t
        rw [hsame] at hscan'
        cases hscan'
        rw [List.drop_append_of_le_length hu'] at hrest'
        obtain ⟨m, hm, hmu⟩ := ih hrest hrest' (by
          rw [List.length_append] at hfit ⊢
          rw [List.length_drop]
          omega)
        rw [missingItems, if_neg hs, hscan]
        rw [List.length_drop] at hmu
        exact ⟨m, hm, by omega⟩

theorem missingItems_completes (n : Nat) : ∀ {s : Bytes} {m : Nat},
    attemptItems n s = .waits → missingItems n s = some m →
    ∃ t, t.length = m ∧ ∃ args u, attemptItems n (s ++ t) = .request args u := by
  induction n with
  | zero =>
      intro s m h
      cases h
  | succ n ih =>
      intro s m h hm
      obtain rfl | ⟨hs, hscan⟩ | ⟨arg, u, hs, hscan, hrest⟩ := attemptItems_waits h
      · obtain ⟨hlen, hread⟩ := attemptItems_empty (n + 1)
        cases hm
        refine ⟨_, hlen, ?_⟩
        simpa using hread []
      · rw [missingItems, if_neg hs, hscan] at hm
        obtain ⟨k, hk, rfl⟩ := Option.map_eq_some_iff.mp hm
        obtain ⟨t, arg, ht, hread⟩ := missingArg_completes hscan hk
        obtain ⟨hlen, hrest⟩ := attemptItems_empty n
        obtain ⟨args, u, hargs⟩ := hrest []
        refine ⟨t ++ items (List.replicate n []), by rw [List.length_append, ht, hlen],
          arg :: args, s.length + k + u, attemptItems_cons (hread _) ?_⟩
        rw [← List.append_assoc, List.drop_left' (by rw [List.length_append, ht])]
        rw [List.append_nil] at hargs
        exact hargs
      · rw [missingItems, if_neg hs, hscan] at hm
        obtain ⟨t, ht, args, more, hargs⟩ := ih hrest hm
        obtain ⟨hsame, -, hu⟩ := scanArg_append hscan t
        refine ⟨t, ht, arg :: args, u + more, attemptItems_cons hsame ?_⟩
        rw [List.drop_append_of_le_length hu]
        exact hargs

/-- Nothing is missing where the loop does not wait. -/
theorem missingItems_reported (n : Nat) : ∀ {s : Bytes}, attemptItems n s ≠ .waits →
    missingItems n s = some 0 := by
  induction n with
  | zero =>
      intro s _
      rfl
  | succ n ih =>
      intro s h
      rw [attemptItems] at h
      rw [missingItems]
      by_cases hs : s = []
      · simp [hs] at h
      · rw [if_neg hs] at h ⊢
        cases hscan : scanArg s with
        | error bad =>
            cases bad with
            | true => rfl
            | false => simp [hscan] at h
        | ok x =>
            obtain ⟨arg, u⟩ := x
            refine ih fun hwaits => h ?_
            rw [hscan]
            dsimp only
            rw [hwaits]

/-! ## A request -/

theorem attempt_request {r : Bytes} {args : List Bytes} {u : Nat}
    (h : attempt r = .request args u) :
    ∃ s n used more, r = 42 :: s ∧ numLine s = .ok (n, used) ∧ 0 ≤ n ∧
      attemptItems n.toNat (s.drop used) = .request args more ∧ u = 1 + used + more := by
  cases r with
  | nil => cases h
  | cons b s =>
      unfold attempt at h
      rw [if_neg (List.cons_ne_nil b s)] at h
      by_cases h42 : b = 42
      · subst h42
        rw [List.head?_cons, if_neg (not_not_intro rfl), List.drop_succ_cons, List.drop_zero] at h
        cases hline : numLine s with
        | error bad => cases bad <;> simp [hline] at h
        | ok x =>
            obtain ⟨n, used⟩ := x
            rw [hline] at h
            dsimp only at h
            by_cases hneg : n < 0
            · simp [hneg] at h
            · rw [if_neg hneg, Nat.add_comm 1 used, List.drop_succ_cons] at h
              cases hrest : attemptItems n.toNat (s.drop used) with
              | request as more =>
                  rw [hrest] at h
                  cases h
                  exact ⟨s, n, used, more, rfl, hline, by omega, hrest, by omega⟩
              | malformed => simp [hrest] at h
              | waits => simp [hrest] at h
      · simp [h42] at h

theorem attempt_of_items {s : Bytes} {n : Int} {used : Nat} (hline : numLine s = .ok (n, used))
    (hn : 0 ≤ n) {args : List Bytes} {more : Nat}
    (h : attemptItems n.toNat (s.drop used) = .request args more) :
    attempt (42 :: s) = .request args (1 + used + more) := by
  unfold attempt
  rw [if_neg (List.cons_ne_nil 42 s), List.head?_cons, if_neg (not_not_intro rfl),
    List.drop_succ_cons, List.drop_zero, hline]
  dsimp only
  rw [if_neg (by omega), Nat.add_comm 1 used, List.drop_succ_cons, h]

/-- Where a request waits. -/
theorem attempt_waits {r : Bytes} (h : attempt r = .waits) :
    r = [] ∨ ∃ s, r = 42 :: s ∧ (numLine s = .error false ∨
      ∃ n used, numLine s = .ok (n, used) ∧
        (n < 0 ∨ (0 ≤ n ∧ attemptItems n.toNat (s.drop used) = .waits))) := by
  cases r with
  | nil => exact .inl rfl
  | cons b s =>
      unfold attempt at h
      rw [if_neg (List.cons_ne_nil b s)] at h
      by_cases h42 : b = 42
      · subst h42
        refine .inr ⟨s, rfl, ?_⟩
        rw [List.head?_cons, if_neg (not_not_intro rfl), List.drop_succ_cons, List.drop_zero] at h
        cases hline : numLine s with
        | error bad =>
            cases bad with
            | true => simp [hline] at h
            | false => exact .inl rfl
        | ok x =>
            obtain ⟨n, used⟩ := x
            rw [hline] at h
            dsimp only at h
            refine .inr ⟨n, used, rfl, ?_⟩
            by_cases hneg : n < 0
            · exact .inl hneg
            · rw [if_neg hneg, Nat.add_comm 1 used, List.drop_succ_cons] at h
              refine .inr ⟨by omega, ?_⟩
              cases hrest : attemptItems n.toNat (s.drop used) with
              | request as more => simp [hrest] at h
              | malformed => simp [hrest] at h
              | waits => rfl
      · simp [h42] at h

/-- `missing`, behind a `*` and a piece of the count. -/
theorem missing_of_waits {s : Bytes} (h : numLine s = .error false) :
    missing (42 :: s) = missingLine s fun n => 6 * n := by
  unfold missing
  rw [if_neg (List.cons_ne_nil 42 s), List.head?_cons, if_neg (not_not_intro rfl),
    List.drop_succ_cons, List.drop_zero, h]

/-- `missing`, behind a whole count. -/
theorem missing_of_ok {s : Bytes} {n : Int} {used : Nat} (h : numLine s = .ok (n, used)) :
    missing (42 :: s) = if n < 0 then none else missingItems n.toNat (s.drop used) := by
  unfold missing
  rw [if_neg (List.cons_ne_nil 42 s), List.head?_cons, if_neg (not_not_intro rfl),
    List.drop_succ_cons, List.drop_zero, h]
  dsimp only
  rw [Nat.add_comm 1 used, List.drop_succ_cons]

theorem missing_needs {r t : Bytes} (h : attempt r = .waits) {args : List Bytes} {u : Nat}
    (hok : attempt (r ++ t) = .request args u) (hfit : (r ++ t).length ≤ maxBuffer) :
    ∃ m, missing r = some m ∧ r.length + m ≤ (r ++ t).length := by
  obtain ⟨s', n', used', more, hr, hline', hn', hrest', -⟩ := attempt_request hok
  obtain ⟨hsix, hmore⟩ := attemptItems_six _ hrest'
  obtain ⟨-, hthree, hused'⟩ := numLine_append hline' []
  rw [List.length_drop] at hmore
  rw [hr, List.length_cons] at hfit ⊢
  obtain rfl | ⟨s, rfl, hcase⟩ := attempt_waits h
  · exact ⟨4, rfl, by rw [List.length_nil]; omega⟩
  · rw [List.cons_append] at hr
    cases hr
    obtain hline | ⟨n, used, hline, hneg | ⟨hn, hrest⟩⟩ := hcase
    · obtain ⟨h0, hle, m, hm, hmu⟩ := numLine_needs hline hline' hn'
      rw [missing_of_waits hline, missingLine, if_neg (by omega), hm]
      refine ⟨m + 6 * (strtoll s).1.toNat, rfl, ?_⟩
      rw [List.length_cons]
      omega
    · rw [(numLine_append hline t).1] at hline'
      cases hline'
      omega
    · obtain ⟨hsame, -, hused⟩ := numLine_append hline t
      rw [hsame] at hline'
      cases hline'
      rw [List.drop_append_of_le_length hused] at hrest'
      obtain ⟨m, hm, hmu⟩ := missingItems_needs _ hrest hrest' (by
        rw [List.length_append] at hfit ⊢
        rw [List.length_drop]
        omega)
      rw [missing_of_ok hline, if_neg (by omega), hm]
      rw [List.length_drop] at hmu
      exact ⟨m, rfl, by rw [List.length_cons]; omega⟩

theorem missing_completes {r : Bytes} {m : Nat} (h : attempt r = .waits)
    (hm : missing r = some m) :
    ∃ t, t.length = m ∧ ∃ args u, attempt (r ++ t) = .request args u := by
  obtain rfl | ⟨s, rfl, hcase⟩ := attempt_waits h
  · cases hm
    exact ⟨ascii "*0\r\n", rfl, [], 4, by decide +kernel⟩
  · obtain hline | ⟨n, used, hline, hneg | ⟨hn, hrest⟩⟩ := hcase
    · rw [missing_of_waits hline] at hm
      obtain ⟨h0, k, hk, rfl⟩ := missingLine_eq_some hm
      obtain ⟨t, ht, hread⟩ := numLine_completes hline hk
      obtain ⟨hlen, hitems⟩ := attemptItems_empty (strtoll s).1.toNat
      obtain ⟨args, used, hargs⟩ := hitems []
      rw [List.append_nil] at hargs
      refine ⟨t ++ items (List.replicate (strtoll s).1.toNat []),
        by rw [List.length_append, ht, hlen], args, 1 + (s.length + k) + used, ?_⟩
      refine attempt_of_items (hread _) h0 ?_
      rw [← List.append_assoc, List.drop_left' (by rw [List.length_append, ht])]
      exact hargs
    · rw [missing_of_ok hline, if_pos hneg] at hm
      cases hm
    · rw [missing_of_ok hline, if_neg (by omega)] at hm
      obtain ⟨t, ht, args, more, hargs⟩ := missingItems_completes _ hrest hm
      obtain ⟨hsame, -, hused⟩ := numLine_append hline t
      refine ⟨t, ht, args, 1 + used + more, attempt_of_items hsame hn ?_⟩
      rw [List.drop_append_of_le_length hused]
      exact hargs

/-- Nothing is missing where the parser does not wait. -/
theorem missing_reported {r : Bytes} (h : attempt r ≠ .waits) : missing r = some 0 := by
  unfold attempt at h
  unfold missing
  by_cases hnil : r = []
  · simp [hnil] at h
  rw [if_neg hnil] at h ⊢
  by_cases h42 : r.head? = some 42
  · rw [if_neg (not_not_intro h42)] at h ⊢
    cases hline : numLine (r.drop 1) with
    | error bad =>
        cases bad with
        | true => rfl
        | false =>
            rw [hline] at h
            exact absurd rfl h
    | ok x =>
        obtain ⟨n, used⟩ := x
        rw [hline] at h
        dsimp only at h ⊢
        by_cases hneg : n < 0
        · simp [hneg] at h
        · rw [if_neg hneg] at h ⊢
          refine missingItems_reported _ fun hwaits => h ?_
          rw [hwaits]
  · rw [if_pos h42]

/-! ## Waiting is justified -/

/-- What the parser owes its caller: a request that is handed on has an opcode
and was consumed, and a beginning that waits has a continuation that is
handed on. -/
def ParsesSoundly (b : Buffer) : Prop :=
  let out := ParseState.tryParseFromBuffer ⟨b, .clear, false⟩
  (out.2 = true → out.1.cache.argc = out.1.cache.argv.length ∧ 1 ≤ out.1.cache.argv.length ∧
    out.1.buffer.readable.length < b.readable.length) ∧
  (out.2 = false → out.1.err = false → ∃ t, (b.readable ++ t).length ≤ maxBuffer ∧
    (ParseState.tryParseFromBuffer ⟨b.append t, .clear, false⟩).2 = true)

/-- A whole count line that says zero. -/
def ZeroCount (r : Bytes) : Prop := r.head? = some 42 ∧ ∃ used, numLine (r.drop 1) = .ok (0, used)

/-- A beginning that waits can be completed exactly when what is missing fits. -/
theorem waits_iff {b : Buffer} (h : attempt b.readable = .waits) :
    (∃ t, (b.readable ++ t).length ≤ maxBuffer ∧
      (ParseState.tryParseFromBuffer ⟨b.append t, .clear, false⟩).2 = true) ↔
    ∃ m, missing b.readable = some m ∧ b.readable.length + m ≤ maxBuffer := by
  constructor
  · rintro ⟨t, hfit, htrue⟩
    have hout := tryParse_attempt (b.append t)
    rw [Buffer.readable_append] at hout
    cases ha : attempt (b.readable ++ t) with
    | request args u =>
        obtain ⟨m, hm, hle⟩ := missing_needs h ha hfit
        exact ⟨m, hm, by omega⟩
    | malformed =>
        rw [ha, Outcome] at hout
        rw [hout] at htrue
        cases htrue
    | waits =>
        rw [ha] at hout
        obtain ⟨cache, hout⟩ := hout
        rw [hout] at htrue
        cases htrue
  · rintro ⟨m, hm, hfit⟩
    obtain ⟨t, ht, args, u, hargs⟩ := missing_completes h hm
    refine ⟨t, by rw [List.length_append, ht]; exact hfit, ?_⟩
    have hout := tryParse_attempt (b.append t)
    rw [Buffer.readable_append, hargs, Outcome] at hout
    rw [hout]

/-- A request is handed on without an opcode exactly for the count zero. -/
theorem request_usable_iff {b : Buffer} {args : List Bytes} {u : Nat}
    (h : attempt b.readable = .request args u) :
    (1 ≤ args.length ∧ (b.readable.drop u).length < b.readable.length) ↔
      ¬ZeroCount b.readable := by
  obtain ⟨s, n, used, more, hr, hline, hn, hrest, rfl⟩ := attempt_request h
  have hlen := attemptItems_length _ hrest
  rw [hr, hlen, ZeroCount, List.head?_cons, List.drop_succ_cons, List.drop_zero, hline]
  constructor
  · rintro ⟨hpos, -⟩ ⟨-, used', hzero⟩
    cases hzero
    exact absurd hpos (by decide)
  · intro hno
    refine ⟨?_, by rw [List.length_drop, List.length_cons]; omega⟩
    by_contra hzero
    have hn0 : n = 0 := by omega
    subst hn0
    exact hno ⟨rfl, used, rfl⟩

/-- The count zero is handed on. -/
theorem attempt_of_zeroCount {r : Bytes} (h : ZeroCount r) : ∃ u, attempt r = .request [] u := by
  obtain ⟨h42, used, hline⟩ := h
  cases r with
  | nil => cases h42
  | cons b s =>
      cases h42
      exact ⟨1 + used + 0, attempt_of_items hline (Int.le_refl 0) rfl⟩

theorem not_zeroCount {r : Bytes} (h : ∀ u, attempt r ≠ .request [] u) : ¬ZeroCount r := by
  intro hz
  obtain ⟨u, hu⟩ := attempt_of_zeroCount hz
  exact h u hu

/-- **The parser never stalls** exactly when the count is not zero and what is
missing to the request fits into a buffer; a negative count or length, or a
byte other than `\r` where a line should end, cannot be completed at all. -/
theorem parsesSoundly_iff (b : Buffer) (hlen : b.readable.length ≤ maxBuffer) :
    ParsesSoundly b ↔ ¬ZeroCount b.readable ∧
      ∃ m, missing b.readable = some m ∧ b.readable.length + m ≤ maxBuffer := by
  have hout := tryParse_attempt b
  unfold ParsesSoundly
  cases ha : attempt b.readable with
  | request args u =>
      have hm := missing_reported (by rw [ha]; exact Attempt.noConfusion)
      rw [ha, Outcome] at hout
      rw [hout, hm]
      have hiff := request_usable_iff ha
      rw [← Buffer.readable_forward] at hiff
      constructor
      · rintro ⟨huse, -⟩
        exact ⟨hiff.mp (huse rfl).2, 0, rfl, hlen⟩
      · rintro ⟨hno, -⟩
        exact ⟨fun _ => ⟨rfl, hiff.mpr hno⟩, fun hfalse => Bool.noConfusion hfalse⟩
  | malformed =>
      have hm := missing_reported (by rw [ha]; exact Attempt.noConfusion)
      have hno := not_zeroCount fun u => by rw [ha]; exact Attempt.noConfusion
      rw [ha, Outcome] at hout
      rw [hout, hm]
      exact ⟨fun _ => ⟨hno, 0, rfl, hlen⟩,
        fun _ => ⟨fun htrue => Bool.noConfusion htrue, fun _ herr => Bool.noConfusion herr⟩⟩
  | waits =>
      have hno := not_zeroCount fun u => by rw [ha]; exact Attempt.noConfusion
      have hiff := waits_iff ha
      rw [ha] at hout
      obtain ⟨cache, hout⟩ := hout
      rw [hout]
      constructor
      · rintro ⟨-, hwait⟩
        exact ⟨hno, hiff.mp (hwait rfl rfl)⟩
      · rintro ⟨-, hfits⟩
        exact ⟨fun htrue => Bool.noConfusion htrue, fun _ _ => hiff.mpr hfits⟩

/-- Half a header line waits for the other half. -/
theorem parsesSoundly_iff_half :
    (Buffer.new.append (ascii "*2\r")).readable.length ≤ maxBuffer ∧
      ParsesSoundly (Buffer.new.append (ascii "*2\r")) := by
  have hlen : (Buffer.new.append (ascii "*2\r")).readable.length ≤ maxBuffer := by decide +kernel
  refine ⟨hlen, (parsesSoundly_iff _ hlen).mpr ⟨?_, 13, by decide +kernel, by decide +kernel⟩⟩
  rintro ⟨-, used, hline⟩
  have hwait :
      numLine (List.drop 1 (Buffer.new.append (ascii "*2\r")).readable) = .error false := by
    decide +kernel
  rw [hwait] at hline
  cases hline

/-- A beginning that waits and cannot be completed. -/
theorem not_parsesSoundly {b : Buffer} (h : attempt b.readable = .waits)
    (hm : missing b.readable = none) : ¬ParsesSoundly b := by
  rintro ⟨-, hwait⟩
  have hout := tryParse_attempt b
  rw [h] at hout
  obtain ⟨cache, hout⟩ := hout
  rw [hout] at hwait
  obtain ⟨m, hm', -⟩ := (waits_iff h).mp (hwait rfl rfl)
  rw [hm] at hm'
  cases hm'

/-- The count zero is dispatched without an opcode. A negative count, a negative
length and a stray byte make the parser wait for bytes that cannot help. -/
theorem parser_stalls :
    ¬ParsesSoundly (Buffer.new.append (ascii "*0\r\n")) ∧
      ¬ParsesSoundly (Buffer.new.append (ascii "*-1\r\n")) ∧
      ¬ParsesSoundly (Buffer.new.append (ascii "*1\r\n$-1\r\n")) ∧
      ¬ParsesSoundly (Buffer.new.append (ascii "*1x")) := by
  refine ⟨?_, not_parsesSoundly (by decide +kernel) (by decide +kernel),
    not_parsesSoundly (by decide +kernel) (by decide +kernel),
    not_parsesSoundly (by decide +kernel) (by decide +kernel)⟩
  rintro ⟨huse, -⟩
  exact absurd (huse (by decide +kernel)).2.1 (by decide +kernel)

end LiteKV
