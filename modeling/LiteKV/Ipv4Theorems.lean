/-
LiteKV.Ipv4Theorems — which strings `ValidateIpv4` takes.

Every string is a row of decimals up to 255, each with a dot behind it, and a
rest that is such a decimal or does not start with one: `exists_row`. The loop
counts the row, modulo 256, and one more if the rest is such a decimal. It
does not look at the rest otherwise: so a quad with a dot behind it is taken,
and with anything behind the dot that does not start with such a decimal, and
so are 260 decimals, `Overread`. The dots tell these from a quad.
-/
import LiteKV.Config
import LiteKV.NumTheorems

namespace LiteKV

/-! ## Rows of decimals -/

/-- The text of a number up to 255. -/
def IsOctet (s : Bytes) : Prop := ∃ n ≤ 255, s = natToString n

/-- Each number with a dot behind it. -/
def dotted (nums : List Nat) : Bytes := nums.flatMap fun n => natToString n ++ [46]

/-- The numbers with single dots between them. -/
def joinDots (nums : List Nat) : Bytes := List.intercalate [46] (nums.map natToString)

/-- Four numbers up to 255, and nothing else. -/
def DottedQuad (s : Bytes) : Prop := ∃ a b c d : Nat, (a ≤ 255 ∧ b ≤ 255 ∧ c ≤ 255 ∧ d ≤ 255) ∧
  s = joinDots [a, b, c, d]

/-- What stands in front of the first dot. -/
def component (s : Bytes) : Bytes := s.takeWhile (· ≠ 46)

theorem joinDots_append_singleton (nums : List Nat) (n : Nat) :
    joinDots (nums ++ [n]) = dotted nums ++ natToString n := by
  induction nums with
  | nil => simp [joinDots, dotted]
  | cons m nums ih =>
      have hne : nums ++ [n] ≠ [] := by simp
      obtain ⟨k, ks, hk⟩ := List.exists_cons_of_ne_nil hne
      rw [joinDots] at ih
      rw [dotted, List.flatMap_cons, joinDots, List.cons_append, List.map_cons, hk, List.map_cons,
        List.intercalate_cons_cons, ← List.map_cons, ← hk, ih, dotted]
      simp

theorem not_dot_of_isDigit {b : UInt8} (h : isDigit b = true) : b ≠ 46 := by
  rintro rfl
  exact absurd h (by decide)

theorem natToString_no_dot (n : Nat) : ∀ b ∈ natToString n, decide (b ≠ 46) = true :=
  fun b hb => decide_eq_true (not_dot_of_isDigit (natToString_all_digit n b hb))

theorem component_natToString (n : Nat) : component (natToString n) = natToString n :=
  List.takeWhile_eq_self_iff.mpr (natToString_no_dot n)

theorem component_append_dot (n : Nat) (rest : Bytes) :
    component (natToString n ++ 46 :: rest) = natToString n := by
  rw [component, List.takeWhile_append_of_pos (natToString_no_dot n), List.takeWhile_cons,
    if_neg (by decide), List.append_nil]

/-! ## The loop -/

theorem getline_append_dot (n : Nat) (rest : Bytes) :
    getline 46 (natToString n ++ 46 :: rest) = some (natToString n, rest) := by
  have hne : natToString n ++ 46 :: rest ≠ [] := by simp
  have hdrop : (natToString n ++ 46 :: rest).dropWhile (· ≠ 46) = 46 :: rest := by
    rw [List.dropWhile_append_of_pos (natToString_no_dot n), List.dropWhile_cons,
      if_neg (by decide)]
  rw [getline, if_neg hne, hdrop]
  show some (component (natToString n ++ 46 :: rest), rest) = _
  rw [component_append_dot]

theorem getline_natToString (n : Nat) : getline 46 (natToString n) = some (natToString n, []) := by
  have hdrop : (natToString n).dropWhile (· ≠ 46) = [] :=
    List.dropWhile_eq_nil_iff.mpr (natToString_no_dot n)
  rw [getline, if_neg (natToString_ne_nil n), hdrop]
  show some (component (natToString n), []) = _
  rw [component_natToString]

theorem canConvertToInt32_octet {n : Nat} (hn : n ≤ 255) :
    canConvertToInt32 (natToString n) = some (n : Int) := by
  rw [canConvertToInt32_eq_some, intToString_natCast]
  exact ⟨⟨by omega, by omega⟩, rfl⟩

/-- A number up to 255 is counted. -/
theorem ipv4Loop_octet {fuel n : Nat} (hn : n ≤ 255) {ss rest : Bytes} (cnt : Int8)
    (hget : getline 46 ss = some (natToString n, rest)) :
    ipv4Loop (fuel + 1) ss cnt = ipv4Loop fuel rest (cnt + 1) := by
  have hrange : ¬ (0 > (n : Int) ∨ (n : Int) > 255) := by omega
  rw [ipv4Loop, hget]
  simp only [canConvertToInt32_octet hn, if_neg hrange]

/-- Anything else ends the loop. -/
theorem ipv4Loop_stop (fuel : Nat) {ss : Bytes} (cnt : Int8) (h : ¬ IsOctet (component ss)) :
    ipv4Loop (fuel + 1) ss cnt = some cnt := by
  rw [ipv4Loop, getline]
  by_cases hnil : ss = []
  · rw [if_pos hnil]
  · rw [if_neg hnil]
    cases hconv : canConvertToInt32 (component ss) with
    | none =>
        rw [component] at hconv
        simp only [hconv]
    | some val =>
        obtain ⟨-, htext⟩ := canConvertToInt32_eq_some.mp hconv
        have hrange : 0 > val ∨ val > 255 := by
          by_contra hrange
          refine h ⟨val.toNat, by omega, ?_⟩
          rw [htext, ← intToString_natCast, Int.toNat_of_nonneg (by omega)]
        rw [component] at hconv
        simp only [hconv, if_pos hrange]

/-- A row is counted, and the loop goes on behind it. -/
theorem ipv4Loop_dotted : ∀ (nums : List Nat) (fuel : Nat) (rest : Bytes) (cnt : Int8),
    (∀ n ∈ nums, n ≤ 255) → ipv4Loop (fuel + nums.length) (dotted nums ++ rest) cnt
      = ipv4Loop fuel rest (cnt + Int8.ofNat nums.length)
  | [], fuel, rest, cnt, _ => by
      show ipv4Loop fuel rest cnt = ipv4Loop fuel rest (cnt + 0)
      rw [Int8.add_zero]
  | n :: nums, fuel, rest, cnt, h => by
      have hget : getline 46 (dotted (n :: nums) ++ rest)
          = some (natToString n, dotted nums ++ rest) := by
        rw [dotted, List.flatMap_cons, List.append_assoc, List.append_assoc]
        exact getline_append_dot n _
      have hcnt : cnt + 1 + Int8.ofNat nums.length = cnt + Int8.ofNat (nums.length + 1) := by
        rw [Int8.ofNat_add, Int8.add_assoc, Int8.add_comm 1]
        rfl
      rw [List.length_cons, ← Nat.add_assoc, ipv4Loop_octet (h n List.mem_cons_self) cnt hget,
        ipv4Loop_dotted nums fuel rest _ fun m hm => h m (List.mem_cons_of_mem n hm), hcnt]

/-! ## What is accepted -/

theorem int8_ofNat_eq_four (k : Nat) : Int8.ofNat k = 4 ↔ k % 256 = 4 := by
  rw [← Int8.toInt_inj, Int8.toInt_ofNat', show (4 : Int8).toInt = 4 from rfl,
    show Int8.size = 256 from rfl, Int.bmod_def]
  omega

theorem length_dotted_ge (nums : List Nat) : nums.length ≤ (dotted nums).length := by
  induction nums with
  | nil => exact Nat.le_refl 0
  | cons n nums ih =>
      rw [dotted, List.flatMap_cons, List.length_append, List.length_append, List.length_singleton,
        List.length_cons]
      rw [dotted] at ih
      omega

section

variable {nums : List Nat} (hnums : ∀ n ∈ nums, n ≤ 255)

include hnums

/-- A row, and a decimal behind it. -/
theorem validateIpv4_octet {n : Nat} (hn : n ≤ 255) :
    validateIpv4 (dotted nums ++ natToString n) = true ↔ (nums.length + 1) % 256 = 4 := by
  have hlen := length_dotted_ge nums
  have hpos : 0 < (natToString n).length := List.length_pos_of_ne_nil (natToString_ne_nil n)
  obtain ⟨fuel, hfuel⟩ : ∃ fuel, (dotted nums ++ natToString n).length + 1
      = fuel + 1 + 1 + nums.length := ⟨(dotted nums ++ natToString n).length - 1 - nums.length, by
    rw [List.length_append]
    omega⟩
  have hend : ¬ IsOctet (component []) := by
    rintro ⟨m, -, hm⟩
    exact natToString_ne_nil m hm.symm
  have hcount : (0 : Int8) + Int8.ofNat nums.length + 1 = Int8.ofNat (nums.length + 1) := by
    rw [Int8.zero_add, Int8.ofNat_add]
    rfl
  rw [validateIpv4, hfuel, ipv4Loop_dotted nums _ _ _ hnums,
    ipv4Loop_octet hn _ (getline_natToString n), ipv4Loop_stop fuel _ hend, hcount, beq_iff_eq,
    Option.some.injEq, int8_ofNat_eq_four]

/-- A row, and something else behind it. -/
theorem validateIpv4_stop {rest : Bytes} (hrest : ¬ IsOctet (component rest)) :
    validateIpv4 (dotted nums ++ rest) = true ↔ nums.length % 256 = 4 := by
  have hlen := length_dotted_ge nums
  obtain ⟨fuel, hfuel⟩ : ∃ fuel, (dotted nums ++ rest).length + 1 = fuel + 1 + nums.length :=
    ⟨(dotted nums ++ rest).length - nums.length, by
      rw [List.length_append]
      omega⟩
  rw [validateIpv4, hfuel, ipv4Loop_dotted nums _ _ _ hnums, ipv4Loop_stop fuel _ hrest,
    Int8.zero_add, beq_iff_eq, Option.some.injEq, int8_ofNat_eq_four]

end

/-- Every string is a row, and a decimal or something else behind it. -/
theorem exists_row (s : Bytes) : ∃ nums rest, (∀ n ∈ nums, n ≤ 255) ∧ s = dotted nums ++ rest ∧
    (IsOctet rest ∨ ¬ IsOctet (component rest)) := by
  by_cases hstop : ¬ IsOctet (component s)
  · exact ⟨[], s, (fun n hn => absurd hn List.not_mem_nil), rfl, Or.inr hstop⟩
  · obtain ⟨n, hn, hcomp⟩ := not_not.mp hstop
    have hsplit : s = component s ++ s.dropWhile (· ≠ 46) := List.takeWhile_append_dropWhile.symm
    cases hdrop : s.dropWhile (· ≠ 46) with
    | nil =>
        rw [hdrop, List.append_nil] at hsplit
        exact ⟨[], s, (fun n hn => absurd hn List.not_mem_nil), rfl,
          Or.inl ⟨n, hn, hsplit.trans hcomp⟩⟩
    | cons dot tail =>
        have hdot : dot = 46 := by
          have hhead := List.head?_dropWhile_not (fun b : UInt8 => decide (b ≠ 46)) s
          rw [hdrop] at hhead
          simpa using hhead
        have hlt : tail.length < s.length := by
          have := congrArg List.length hsplit
          rw [List.length_append, hdrop, List.length_cons] at this
          omega
        obtain ⟨nums, rest, hnums, htail, hrest⟩ := exists_row tail
        refine ⟨n :: nums, rest, fun m hm => ?_, ?_, hrest⟩
        · rcases List.mem_cons.mp hm with rfl | hm
          · exact hn
          · exact hnums m hm
        · rw [hsplit, hdrop, hcomp, hdot, htail, dotted, dotted, List.flatMap_cons]
          simp
termination_by s.length

/-- A row of four, 260, 516, .. decimals, and either nothing behind more than
four of them, or a dot and something that does not start with one more. -/
def Overread (s : Bytes) : Prop := ∃ nums : List Nat, (∀ n ∈ nums, n ≤ 255) ∧
  nums.length % 256 = 4 ∧
  (nums.length ≠ 4 ∧ s = joinDots nums ∨
    ∃ rest, s = joinDots nums ++ 46 :: rest ∧ ¬ IsOctet (component rest))

/-- A row that is not empty ends with a number. -/
theorem joinDots_eq_of_ne_nil {nums : List Nat} (h : nums ≠ []) : ∃ front n, nums = front ++ [n] ∧
    joinDots nums = dotted front ++ natToString n :=
  ⟨nums.dropLast, nums.getLast h, (List.dropLast_append_getLast h).symm, by
    rw [← joinDots_append_singleton, List.dropLast_append_getLast h]⟩

theorem joinDots_append_dot {nums : List Nat} (h : nums ≠ []) (rest : Bytes) :
    joinDots nums ++ 46 :: rest = dotted nums ++ rest := by
  obtain ⟨front, n, rfl, hjoin⟩ := joinDots_eq_of_ne_nil h
  rw [hjoin, dotted, dotted, List.flatMap_append]
  simp

theorem ne_nil_of_length_mod {nums : List Nat} (h : nums.length % 256 = 4) : nums ≠ [] := by
  rintro rfl
  exact absurd h (by decide)

/-- What the function accepts. -/
theorem validateIpv4_iff (s : Bytes) : validateIpv4 s = true ↔ DottedQuad s ∨ Overread s := by
  constructor
  · intro h
    obtain ⟨nums, rest, hnums, rfl, hoct | hstop⟩ := exists_row s
    · obtain ⟨n, hn, rfl⟩ := hoct
      rw [validateIpv4_octet hnums hn] at h
      have hlen : (nums ++ [n]).length = nums.length + 1 := by simp
      by_cases hfour : nums.length = 3
      · obtain ⟨a, b, c, rfl⟩ := List.length_eq_three.mp hfour
        refine Or.inl ⟨a, b, c, n, ⟨hnums a (by simp), hnums b (by simp), hnums c (by simp), hn⟩,
          ?_⟩
        exact (joinDots_append_singleton [a, b, c] n).symm
      · refine Or.inr ⟨nums ++ [n], fun m hm => ?_, by rw [hlen, h], Or.inl ⟨by omega, ?_⟩⟩
        · rcases List.mem_append.mp hm with hm | hm
          · exact hnums m hm
          · rw [List.mem_singleton.mp hm]
            exact hn
        · rw [joinDots_append_singleton]
    · rw [validateIpv4_stop hnums hstop] at h
      refine Or.inr ⟨nums, hnums, h, Or.inr ⟨rest, ?_, hstop⟩⟩
      rw [joinDots_append_dot (ne_nil_of_length_mod h)]
  · rintro (⟨a, b, c, d, ⟨ha, hb, hc, hd⟩, rfl⟩ |
      ⟨nums, hnums, hlen, ⟨-, rfl⟩ | ⟨rest, rfl, hstop⟩⟩)
    · have hrow : ∀ n ∈ [a, b, c], n ≤ 255 := by simp [ha, hb, hc]
      rw [show joinDots [a, b, c, d] = _ from joinDots_append_singleton [a, b, c] d,
        validateIpv4_octet hrow hd]
      rfl
    · obtain ⟨front, n, rfl, hjoin⟩ := joinDots_eq_of_ne_nil (ne_nil_of_length_mod hlen)
      rw [hjoin, validateIpv4_octet (fun m hm => hnums m (List.mem_append_left _ hm))
        (hnums n (List.mem_append_right _ List.mem_cons_self))]
      simpa using hlen
    · rw [joinDots_append_dot (ne_nil_of_length_mod hlen), validateIpv4_stop hnums hstop]
      exact hlen

/-! ## The dots -/

theorem count_dot_natToString (n : Nat) : (natToString n).count 46 = 0 :=
  List.count_eq_zero.mpr fun h => not_dot_of_isDigit (natToString_all_digit n 46 h) rfl

theorem count_dot_dotted (nums : List Nat) : (dotted nums).count 46 = nums.length := by
  induction nums with
  | nil => rfl
  | cons n nums ih =>
      rw [dotted, List.flatMap_cons, List.count_append, List.count_append, count_dot_natToString,
        ← dotted, ih, List.length_cons]
      simp
      omega

/-- A quad has three dots; everything else that is accepted has more. -/
theorem DottedQuad.not_overread {s : Bytes} (hquad : DottedQuad s) : ¬ Overread s := by
  obtain ⟨a, b, c, d, -, rfl⟩ := hquad
  have hthree : (joinDots [a, b, c, d]).count 46 = 3 := by
    rw [show joinDots [a, b, c, d] = _ from joinDots_append_singleton [a, b, c] d,
      List.count_append, count_dot_dotted, count_dot_natToString]
    rfl
  rintro ⟨nums, -, hlen, ⟨hfour, hs⟩ | ⟨rest, hs, -⟩⟩
  · obtain ⟨front, n, rfl, hjoin⟩ := joinDots_eq_of_ne_nil (ne_nil_of_length_mod hlen)
    rw [hs, hjoin, List.count_append, count_dot_dotted, count_dot_natToString] at hthree
    rw [List.length_append, List.length_singleton] at hlen hfour
    omega
  · rw [hs, joinDots_append_dot (ne_nil_of_length_mod hlen), List.count_append,
      count_dot_dotted] at hthree
    omega

/-- **`ValidateIpv4` accepts exactly the dotted quads, but for** the strings it
overreads: on those, and on no others, its answer is wrong. -/
theorem validateIpv4_exact_iff (s : Bytes) :
    (validateIpv4 s = true ↔ DottedQuad s) ↔ ¬ Overread s := by
  rw [validateIpv4_iff]
  constructor
  · intro h hover
    exact (h.mp (Or.inr hover)).not_overread hover
  · intro hover
    exact or_iff_left hover

/-- A quad with a dot behind it, or with a word behind that. -/
theorem validateIpv4_trailing_dot :
    (validateIpv4 (ascii "1.2.3.4.") = true ∧ ¬ DottedQuad (ascii "1.2.3.4.")) ∧
      validateIpv4 (ascii "1.2.3.4.x") = true ∧ ¬ DottedQuad (ascii "1.2.3.4.x") := by
  have hover (rest : Bytes) (hrest : ¬ IsOctet (component rest)) :
      Overread (joinDots [1, 2, 3, 4] ++ 46 :: rest) :=
    ⟨[1, 2, 3, 4], by decide, rfl, Or.inr ⟨rest, rfl, hrest⟩⟩
  have hdot : Overread (ascii "1.2.3.4.") := hover [] (by
    rintro ⟨n, -, hn⟩
    exact natToString_ne_nil n hn.symm)
  have hword : Overread (ascii "1.2.3.4.x") := hover (ascii "x") (by
    rintro ⟨n, -, hn⟩
    exact absurd (natToString_all_digit n 120 (hn ▸ by decide)) (by decide))
  exact ⟨⟨(validateIpv4_iff _).mpr (Or.inr hdot), fun h => h.not_overread hdot⟩,
    (validateIpv4_iff _).mpr (Or.inr hword), fun h => h.not_overread hword⟩

end LiteKV
