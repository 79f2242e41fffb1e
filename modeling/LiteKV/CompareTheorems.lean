/-
LiteKV.CompareTheorems — which of the comparisons are orders on byte strings.

`DynamicString`'s operators are: `memcmp` over the shorter length and then
the lengths is the lexicographic order of the bytes, `dynamicString_order`.
The other two comparisons of the source see a string up to its first NUL and
its length. `SKNodeComparator` compares the pair of the two in order, so it
is a total preorder; it is the order of the bytes exactly for the pairs of
`OrderedAlike`. `StaticString`'s operators combine the two parts each in its
own way, and agree only on the pairs of `Separated`.
-/
import LiteKV.Compare
import LiteKV.SkiplistTheorems

namespace LiteKV

open Lib

/-! ## The two C functions -/

/-- The bytes, as the numbers that are compared. -/
def bytesKey (d : Bytes) : List Nat := d.map UInt8.toNat

theorem bytesKey_inj {a b : Bytes} : bytesKey a = bytesKey b ↔ a = b :=
  (List.map_injective_iff.mpr fun _ _ h => UInt8.toNat_inj.mp h).eq_iff

theorem bytesKey_cons_lt {x y : UInt8} {a b : Bytes} :
    bytesKey (x :: a) < bytesKey (y :: b) ↔
    x.toNat < y.toNat ∨ x = y ∧ bytesKey a < bytesKey b := by
  rw [bytesKey, bytesKey, List.map_cons, List.map_cons, List.cons_lt_cons_iff, UInt8.toNat_inj]
  rfl

/-- The difference of two bytes that differ. -/
theorem toNat_sub_spec {x y : UInt8} (h : x ≠ y) :
    ((x.toNat : Int) - y.toNat < 0 ↔ x.toNat < y.toNat) ∧ ¬ (x.toNat : Int) - y.toNat = 0 := by
  have hne : x.toNat ≠ y.toNat := fun heq => h (UInt8.toNat_inj.mp heq)
  omega

theorem toNat_pos {x : UInt8} (h : ¬ x = 0) : 0 < x.toNat :=
  Nat.pos_of_ne_zero fun hx => h (UInt8.toNat_inj.mp hx)

/-- `memcmp` over the shorter length, then the lengths: the lexicographic order. -/
theorem memcmp_spec : ∀ a b : Bytes,
    (memcmp (min a.length b.length) a b < 0 ∨
        memcmp (min a.length b.length) a b = 0 ∧ a.length < b.length ↔ bytesKey a < bytesKey b) ∧
    (memcmp (min a.length b.length) a b = 0 ∧ a.length = b.length ↔ a = b)
  | [], [] => by decide
  | [], y :: b => by simp [memcmp, bytesKey]
  | x :: a, [] => by simp [memcmp, bytesKey]
  | x :: a, y :: b => by
      obtain ⟨hlt, heq⟩ := memcmp_spec a b
      have hmin : min (x :: a).length (y :: b).length = min a.length b.length + 1 := by
        simp only [List.length_cons]
        omega
      rw [hmin, memcmp, bytesKey_cons_lt, List.cons.injEq]
      simp only [List.headD_cons, List.tail_cons, List.length_cons, Nat.add_lt_add_iff_right,
        Nat.add_right_cancel_iff]
      by_cases hxy : x = y
      · subst hxy
        simp only [ne_eq, not_true_eq_false, if_false, lt_irrefl, true_and, false_or]
        exact ⟨hlt, heq⟩
      · obtain ⟨hsub, hne⟩ := toNat_sub_spec hxy
        simp [hxy, hsub, hne]

/-- `strcmp` compares the bytes in front of the first NUL. -/
theorem strcmp_spec : ∀ a b : Bytes,
    (strcmp a b < 0 ↔ bytesKey (cStr a) < bytesKey (cStr b)) ∧
    (strcmp a b = 0 ↔ cStr a = cStr b)
  | [], [] => by decide
  | [], y :: b => by
      rw [cStr_cons, strcmp, List.headD_cons]
      by_cases hy : y = 0
      · subst hy
        simp [cStr, bytesKey]
      · have hpos := toNat_pos hy
        rw [if_neg hy]
        simp only [cStr, bytesKey, List.takeWhile_nil, List.map_nil, List.map_cons,
          List.nil_lt_cons, reduceCtorEq]
        exact ⟨iff_true_intro (by omega), iff_false_intro (by omega)⟩
  | x :: a, [] => by
      rw [cStr_cons, strcmp, List.headD_nil]
      by_cases hx : x = 0
      · subst hx
        simp [cStr, bytesKey]
      · obtain ⟨hsub, hne⟩ := toNat_sub_spec hx
        simp only [ne_eq, hx, not_false_eq_true, if_true, if_false, hsub, hne]
        simp [cStr, bytesKey]
  | x :: a, y :: b => by
      obtain ⟨hlt, heq⟩ := strcmp_spec a b
      rw [cStr_cons, cStr_cons, strcmp, List.headD_cons, List.tail_cons]
      by_cases hxy : x = y
      · subst hxy
        by_cases hx : x = 0
        · -- both end here
          simp [hx]
        · simp only [ne_eq, not_true_eq_false, if_false, hx, bytesKey_cons_lt, List.cons.injEq,
            lt_irrefl, true_and, false_or]
          exact ⟨hlt, heq⟩
      · obtain ⟨hsub, hne⟩ := toNat_sub_spec hxy
        simp only [ne_eq, hxy, not_false_eq_true, if_true, hsub, hne]
        by_cases hx : x = 0
        · have hy : ¬ y = 0 := fun hy => hxy (hx.trans hy.symm)
          simp [hx, hy, toNat_pos hy, bytesKey]
        · by_cases hy : y = 0
          · simp [hx, hy, bytesKey]
          · simp only [hx, hy, if_false, bytesKey_cons_lt, hxy, false_and, or_false,
              List.cons.injEq, and_self]

/-! ## Keys -/

namespace StaticString

/-- `operator==` with the `strcmp` of the source. -/
theorem eq_strcmp (a b : StaticString) :
    a.eq b = (strcmp a.buf b.buf == 0 && a.length == b.length) := by
  have hzero : (cStr a.buf == cStr b.buf) = (strcmp a.buf b.buf == 0) := by
    rw [Bool.eq_iff_iff, beq_iff_eq, beq_iff_eq, (strcmp_spec a.buf b.buf).2]
  rw [eq, hzero]

theorem lt_iff {a b : StaticString} :
    a.lt b = true ↔ bytesKey (cStr a.buf) < bytesKey (cStr b.buf) := by
  rw [lt, decide_eq_true_eq, (strcmp_spec a.buf b.buf).1]

theorem gt_iff {a b : StaticString} :
    a.gt b = true ↔ bytesKey (cStr b.buf) < bytesKey (cStr a.buf) := by
  obtain ⟨hlt, heq⟩ := strcmp_spec a.buf b.buf
  rw [← bytesKey_inj] at heq
  rw [gt, decide_eq_true_eq, ← not_le, le_iff_lt_or_eq, ← hlt, ← heq]
  omega

/-- What the operators say of two keys, when they mean the same thing. -/
structure Coherent (a b : StaticString) : Prop where
  eq_iff : a.eq b = true ↔ a.length = b.length ∧ a.buf = b.buf
  ne_eq : a.ne b = !a.eq b
  exactlyOne : [a.lt b, a.eq b, a.gt b].count true = 1
  trans : ∀ c, a.lt b = true → b.lt c = true → a.lt c = true
  hash_eq : a.eq b = true → a.hash = b.hash

/-- The C strings differ, and the lengths do. -/
def Separated (a b : StaticString) : Prop := cStr a.buf ≠ cStr b.buf ∧ a.length ≠ b.length

theorem lt_trans {a b c : StaticString} (hab : a.lt b = true) (hbc : b.lt c = true) :
    a.lt c = true :=
  lt_iff.mpr ((lt_iff.mp hab).trans (lt_iff.mp hbc))

theorem coherent_self (a : StaticString) : a.Coherent a := by
  have hcmp : strcmp a.buf a.buf = 0 := (strcmp_spec a.buf a.buf).2.mpr rfl
  have heq : a.eq a = true := by simp [eq]
  refine ⟨by simp [heq], by simp [ne, heq, hcmp], ?_, fun c => lt_trans, fun _ => rfl⟩
  simp [lt, gt, heq, hcmp]

theorem Separated.coherent {a b : StaticString} (h : a.Separated b) : a.Coherent b := by
  obtain ⟨hstr, hlen⟩ := h
  have hcmp : strcmp a.buf b.buf ≠ 0 := fun h => hstr ((strcmp_spec a.buf b.buf).2.mp h)
  have heq : a.eq b = false := by simp [eq, hlen]
  have hbuf : a.buf ≠ b.buf := fun h => hstr (by rw [h])
  refine ⟨by simp [heq, hbuf], by simp [ne, heq, hcmp, hlen], ?_, fun c => lt_trans,
    fun h => absurd h (by simp [heq])⟩
  have hkey : bytesKey (cStr a.buf) ≠ bytesKey (cStr b.buf) := fun h => hstr (bytesKey_inj.mp h)
  rw [heq]
  rcases lt_or_gt_of_ne hkey with hlt | hgt
  · rw [lt_iff.mpr hlt, Bool.eq_false_iff.mpr (mt gt_iff.mp hlt.not_gt)]
    rfl
  · rw [gt_iff.mpr hgt, Bool.eq_false_iff.mpr (mt lt_iff.mp hgt.not_gt)]
    rfl

/-- **Key comparison is coherent for a key and itself, and for two keys that
differ both in front of the first NUL and in length; for no others.** -/
theorem coherent_iff (a b : StaticString) : a.Coherent b ↔ a = b ∨ a.Separated b := by
  constructor
  · intro h
    by_cases hab : a = b
    · exact Or.inl hab
    have hbuf : a.buf ≠ b.buf := fun heq => hab (congrArg mk heq)
    have heq : a.eq b = false := Bool.eq_false_iff.mpr fun heq => hbuf (h.eq_iff.mp heq).2
    have hne := h.ne_eq
    -- `!=` must be true, so both its tests are
    rw [heq, ne, Bool.not_false, Bool.and_eq_true, bne_iff_ne, bne_iff_ne] at hne
    exact Or.inr ⟨fun hstr => hne.1 ((strcmp_spec a.buf b.buf).2.mpr hstr), hne.2⟩
  · rintro (rfl | hsep)
    · exact coherent_self a
    · exact hsep.coherent

/-- Two keys of one byte are neither equal nor different, and two keys that
differ behind a NUL are equal. -/
theorem a_and_b_not_coherent :
    ¬ Coherent ⟨ascii "a"⟩ ⟨ascii "b"⟩ ∧ ¬ Coherent ⟨[97, 0, 98]⟩ ⟨[97, 0, 99]⟩ := by
  constructor
  · intro h
    exact absurd h.ne_eq (by decide)
  · intro h
    exact absurd h.eq_iff (by decide)

end StaticString

/-! ## `DynamicString` and `SKNodeComparator` -/

/-- **The operators of `DynamicString` are equality and the lexicographic order
of the bytes.** -/
theorem dynamicString_order (a b : DynamicString) :
    (a.eq b = true ↔ a.toStdString = b.toStdString) ∧ (a.ne b = !a.eq b) ∧
      (a.lt b = true ↔ bytesKey a.toStdString < bytesKey b.toStdString) ∧
      (a.gt b = true ↔ bytesKey b.toStdString < bytesKey a.toStdString) := by
  obtain ⟨hlt, heq⟩ := memcmp_spec a.toStdString b.toStdString
  refine ⟨?_, ?_, ?_, ?_⟩
  · rw [DynamicString.eq, Bool.and_eq_true, beq_iff_eq, beq_iff_eq, ← heq, and_comm]
    constructor
    · rintro ⟨hmem, hlen⟩
      exact ⟨by rwa [← hlen, min_self], hlen⟩
    · rintro ⟨hmem, hlen⟩
      exact ⟨by rwa [← hlen, min_self] at hmem, hlen⟩
  · rw [DynamicString.ne, DynamicString.eq, Bool.not_and]
    rfl
  · rw [DynamicString.lt, ← hlt]
    split <;> simp <;> omega
  · rw [← not_le, le_iff_lt_or_eq, bytesKey_inj, ← hlt, ← heq, DynamicString.gt]
    split <;> simp <;> omega

/-- In front of the first NUL the bytes decide. -/
theorem bytesKey_lt_of_cStr_ne : ∀ {a b : Bytes}, cStr a ≠ cStr b →
    (bytesKey a < bytesKey b ↔ bytesKey (cStr a) < bytesKey (cStr b))
  | [], [], h => absurd rfl h
  | [], y :: b, h => by
      rw [cStr_cons] at h ⊢
      by_cases hy : y = 0
      · exact absurd (by rw [if_pos hy]; rfl) h
      · simp [hy, bytesKey, cStr]
  | x :: a, [], h => by simp [bytesKey, cStr]
  | x :: a, y :: b, h => by
      rw [cStr_cons, cStr_cons] at h ⊢
      by_cases hx : x = 0
      · by_cases hy : y = 0
        · exact absurd (by rw [if_pos hx, if_pos hy]) h
        · rw [if_pos hx, if_neg hy, bytesKey_cons_lt]
          simp [hx, Ne.symm hy, toNat_pos hy, bytesKey]
      · by_cases hy : y = 0
        · rw [if_neg hx, if_pos hy, bytesKey_cons_lt]
          simp [hx, hy, bytesKey]
        · rw [if_neg hx, if_neg hy] at h ⊢
          rw [bytesKey_cons_lt, bytesKey_cons_lt]
          refine or_congr_right (and_congr_right fun hxy => ?_)
          exact bytesKey_lt_of_cStr_ne fun hab => h (by rw [hxy, hab])

/-- The lengths of two strings are in the order of their bytes. -/
def OrderedAlike (a b : Bytes) : Prop :=
  (a.length < b.length ↔ bytesKey a < bytesKey b) ∧ (b.length < a.length ↔ bytesKey b < bytesKey a)

/-- What the comparator sees of two strings orders them as their bytes do. -/
theorem dataKey_order_iff (a b : Bytes) :
    ((dataKey a < dataKey b ↔ bytesKey a < bytesKey b) ∧ (dataKey a = dataKey b ↔ a = b)) ↔
      cStr a ≠ cStr b ∨ OrderedAlike a b := by
  rw [dataKey_lt_iff, dataKey_eq_iff]
  show ((bytesKey (cStr a) < bytesKey (cStr b) ∨ bytesKey (cStr a) = bytesKey (cStr b) ∧
      a.length < b.length ↔ bytesKey a < bytesKey b) ∧
    (bytesKey (cStr a) = bytesKey (cStr b) ∧ a.length = b.length ↔ a = b)) ↔ _
  by_cases hstr : cStr a = cStr b
  · have hlen (h : a.length = b.length → a = b) : b.length < a.length ↔
        ¬ a.length < b.length ∧ ¬ a = b := by
      constructor
      · intro hlt
        exact ⟨by omega, fun hab => absurd hlt (by rw [hab]; exact lt_irrefl _)⟩
      · rintro ⟨hle, hne⟩
        have : a.length ≠ b.length := fun hlen => hne (h hlen)
        omega
    have hbytes : bytesKey b < bytesKey a ↔ ¬ bytesKey a < bytesKey b ∧ ¬ a = b := by
      rw [← not_le, le_iff_lt_or_eq, bytesKey_inj, not_or]
    simp only [hstr, lt_irrefl, false_or, true_and, ne_eq, not_true_eq_false, OrderedAlike]
    constructor
    · rintro ⟨hlt, heq⟩
      exact ⟨hlt, by rw [hlen heq.mp, hbytes, hlt]⟩
    · rintro ⟨hlt, hgt⟩
      refine ⟨hlt, fun heq => ?_, fun heq => by rw [heq]⟩
      rw [← bytesKey_inj]
      exact le_antisymm (not_lt.mp (hgt.not.mp (by omega))) (not_lt.mp (hlt.not.mp (by omega)))
  · have hkey : bytesKey (cStr a) ≠ bytesKey (cStr b) := fun h => hstr (bytesKey_inj.mp h)
    have hne : a ≠ b := fun h => hstr (by rw [h])
    simp [hstr, hkey, hne, bytesKey_lt_of_cStr_ne hstr]

/-- The comparator is the order on the score and the bytes of two elements. -/
structure SKElem.TotalAt (a b : SKElem) : Prop where
  zero_iff : skComparator a b = 0 ↔ a.score = b.score ∧ a.data.toStdString = b.data.toStdString
  swap : skComparator b a = -skComparator a b
  trans : ∀ c, skComparator a b ≤ 0 → skComparator b c ≤ 0 → skComparator a c ≤ 0
  lt_iff : a.score = b.score → (skComparator a b < 0 ↔ a.data.lt b.data = true)
  bothStored : a.score = b.score → a.data.toStdString ≠ b.data.toStdString → ∀ level level',
    ∃ s, Run.traceE Skiplist.step .new [.insert a level, .insert b level']
      = .ok (s, [some true, some true])

theorem signOf_neg {K : Type} [LinearOrder K] {x y : K} : signOf x y < 0 ↔ x < y := by
  unfold signOf
  split_ifs with h1 h2 <;> simp [h1]

theorem signOf_swap {K : Type} [LinearOrder K] (x y : K) : signOf y x = -signOf x y := by
  unfold signOf
  rcases lt_trichotomy x y with h | rfl | h
  · simp [h, h.not_gt, h.ne']
  · simp
  · simp [h, h.not_gt, h.ne']

theorem signOf_nonpos {K : Type} [LinearOrder K] {x y : K} : signOf x y ≤ 0 ↔ x ≤ y := by
  rw [← not_lt, ← not_lt]
  exact signOf_pos.not

theorem SKElem.key_eq_iff {a b : SKElem} : a.key = b.key ↔
    a.score = b.score ∧ dataKey a.data.toStdString = dataKey b.data.toStdString := by
  rw [SKElem.key, SKElem.key, toLex_inj, Prod.mk.injEq, Int64.toInt_inj]

theorem SKElem.key_lt_iff {a b : SKElem} (h : a.score = b.score) : a.key < b.key ↔
    dataKey a.data.toStdString < dataKey b.data.toStdString := by
  rw [SKElem.key, SKElem.key, Prod.Lex.toLex_lt_toLex, h]
  simp

theorem skComparator_swap (a b : SKElem) : skComparator b a = -skComparator a b := by
  rw [skComparator_eq, skComparator_eq, signOf_swap]

theorem skComparator_trans {a b c : SKElem} (hab : skComparator a b ≤ 0)
    (hbc : skComparator b c ≤ 0) : skComparator a c ≤ 0 := by
  rw [skComparator_eq, signOf_nonpos] at *
  exact hab.trans hbc

/-- Two elements that are not equal for the comparator are both inserted. -/
theorem SKElem.bothInserted {a b : SKElem} (h : skComparator b a ≠ 0)
    (level level' : Skiplist.RandomLevel) :
    ∃ s, Run.traceE Skiplist.step .new [.insert a level, .insert b level']
      = .ok (s, [some true, some true]) := by
  obtain ⟨s, hrun, -⟩ := Skiplist.run_represents [.insert a level, .insert b level']
  refine ⟨s, hrun.trans ?_⟩
  simp [Run.trace, Skiplist.setStep, h]

/-- **The skiplist's order on two elements is the order on score and bytes
exactly if** the scores differ, or the bytes in front of the first NUL do, or
the lengths are in the order of the bytes. -/
theorem totalAt_iff (a b : SKElem) : a.TotalAt b ↔ a.score ≠ b.score ∨
    cStr a.data.toStdString ≠ cStr b.data.toStdString ∨
    OrderedAlike a.data.toStdString b.data.toStdString := by
  have hbytes := (dynamicString_order a.data b.data).2.2.1
  have hzero : skComparator a b = 0 ↔
      a.score = b.score ∧ dataKey a.data.toStdString = dataKey b.data.toStdString := by
    rw [skComparator_eq, signOf_zero, SKElem.key_eq_iff]
  have hneg (hs : a.score = b.score) : skComparator a b < 0 ↔
      dataKey a.data.toStdString < dataKey b.data.toStdString := by
    rw [skComparator_eq, signOf_neg, SKElem.key_lt_iff hs]
  rw [← dataKey_order_iff]
  constructor
  · intro h
    by_cases hs : a.score = b.score
    · refine Or.inr ⟨by rw [← hneg hs, h.lt_iff hs, hbytes], ?_⟩
      have hiff := h.zero_iff
      rw [hzero] at hiff
      simpa only [hs, true_and] using hiff
    · exact Or.inl hs
  · intro h
    have hdata (hs : a.score = b.score) := h.resolve_left (not_not_intro hs)
    have hzero' : skComparator a b = 0 ↔
        a.score = b.score ∧ a.data.toStdString = b.data.toStdString :=
      hzero.trans (and_congr_right fun hs => (hdata hs).2)
    refine ⟨hzero', skComparator_swap a b, fun c => skComparator_trans,
      fun hs => by rw [hneg hs, hbytes, (hdata hs).1], fun hs hne level level' => ?_⟩
    refine SKElem.bothInserted (fun heq => hne (hzero'.mp ?_).2) level level'
    rw [← neg_eq_zero, ← skComparator_swap, heq]

/-- Two members with a NUL in them: the second one is taken for the first. -/
theorem nul_members_not_totalAt :
    ¬ SKElem.TotalAt ⟨1, some [97, 0, 98]⟩ ⟨1, some [97, 0, 99]⟩ := by
  intro h
  exact absurd h.zero_iff (by decide)

end LiteKV
