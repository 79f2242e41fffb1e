/-
LiteKV.StrAllocTheorems — which failed allocations `DynamicString` survives.

`Append` sets `alloc_` to what it asks of `realloc` before it knows the
answer. When the answer is null the block stays as it was and `alloc_` is too
large for good: every later write trusts it. All other allocations are looked
at first: a null from `malloc` leaves no buffer, and `Shrink` sets `alloc_`
behind its test. So an object is `Sound` after every call of a run exactly
if no append of the run has to grow the block and cannot, `GrowthFails`.

`Inv` is the invariant, in which `alloc_` is the size of the block and not
only below it; there is one lemma for each function.
-/
import LiteKV.StrAlloc

namespace LiteKV.RawString

open Lib Lib.Region Lib.Run

/-! ## What is to hold -/

/-- The bookkeeping of a buffer: the string and its NUL fit into `alloc_`, and
`alloc_` into the block. -/
def Sound (s : RawString) : Prop := ∀ block ∈ s.buf,
  s.len + 1 ≤ s.alloc ∧ s.alloc ≤ block.length ∧ block[s.len]? = some 0

/-- The string and its NUL fit into the block, whose size is `alloc_`. -/
structure Roomy (s : RawString) (block : Bytes) : Prop where
  size : s.alloc = block.length
  fits : s.len + 1 ≤ s.alloc
  small : s.alloc ≤ 2 ^ 23

/-- The state between two calls. -/
structure Inv (s : RawString) : Prop where
  null : s.buf = none → s.len = 0
  roomy : ∀ block ∈ s.buf, s.Roomy block
  nul : ∀ block ∈ s.buf, block[s.len]? = some 0

theorem Inv.sound {s : RawString} (h : s.Inv) : s.Sound := by
  intro block hblock
  have hroomy := h.roomy block hblock
  exact ⟨hroomy.fits, Nat.le_of_eq hroomy.size, h.nul block hblock⟩

theorem inv_null {s : RawString} (hbuf : s.buf = none) (hlen : s.len = 0) : s.Inv := by
  refine ⟨fun _ => hlen, fun block h => ?_, fun block h => ?_⟩
  all_goals
    rw [hbuf] at h
    cases h

theorem inv_new : new.Inv := inv_null rfl rfl

theorem inv_some {s : RawString} {block : Bytes} (hbuf : s.buf = some block)
    (hroomy : s.Roomy block) (hnul : block[s.len]? = some 0) : s.Inv := by
  refine ⟨fun h => ?_, fun b hb => ?_, fun b hb => ?_⟩
  · rw [hbuf] at h
    cases h
  · rw [hbuf] at hb
    cases hb
    exact hroomy
  · rw [hbuf] at hb
    cases hb
    exact hnul

theorem toStdString_some {s : RawString} {block : Bytes} (h : s.buf = some block) :
    s.toStdString = block.take s.len := by rw [toStdString, h]

theorem toStdString_null {s : RawString} (h : s.buf = none) : s.toStdString = [] := by
  rw [toStdString, h]

theorem Roomy.freeBytes {s : RawString} {block : Bytes} (h : s.Roomy block) :
    s.freeBytes = block.length - s.len - 1 := by
  have := h.size
  have := h.fits
  have := h.small
  rw [RawString.freeBytes]
  omega

/-! ## Appending -/

/-- The bytes and the NUL fit: they are put behind the string. -/
theorem put_spec {s : RawString} {block : Bytes} (hroomy : s.Roomy block) (str : Bytes)
    (hfit : s.len + str.length + 1 ≤ block.length) :
    ∃ s', s.put block str = .ok s' ∧ s'.Inv ∧ s'.toStdString = block.take s.len ++ str := by
  obtain ⟨b₁, hb₁, hlen₁, -, htake₁, -⟩ :=
    store_ok block s.len str (by omega)
  obtain ⟨b₂, hb₂, hlen₂, htake₂, hnul, -⟩ :=
    store_ok b₁ (s.len + str.length) [0] (by rw [List.length_singleton]; omega)
  have hlast : b₂[s.len + str.length]? = some 0 := by
    have htake := congrArg (fun l : Bytes => l[s.len + str.length]?) hnul
    have hfront : (b₁.take (s.len + str.length)).length = s.len + str.length := by
      rw [List.length_take]
      omega
    rw [List.getElem?_take_of_lt (by rw [List.length_singleton]; omega),
      List.getElem?_append_right (by omega), hfront, Nat.sub_self] at htake
    exact htake
  refine ⟨⟨s.len + str.length, s.alloc, some b₂⟩, ?_, inv_some rfl ⟨?_, ?_, hroomy.small⟩ hlast, ?_⟩
  · rw [put, hb₁, ok_bind, hb₂, ok_bind]
  · rw [hlen₂, hlen₁]
    exact hroomy.size
  · rw [hroomy.size]
    exact hfit
  · rw [toStdString_some rfl, htake₂, htake₁]

/-- An append into a buffer has to grow it, and cannot. -/
def GrowthFailsAt (s : RawString) (realloced : Answer UInt8) (str : Bytes) : Prop :=
  realloced = none ∧ s.freeBytes < str.length

/-- Into a buffer. -/
theorem appendTo_spec {s : RawString} {block str : Bytes} (hroomy : s.Roomy block)
    (hshort : s.len + str.length < 2 ^ 22) {realloced : Answer UInt8}
    (hok : ¬ s.GrowthFailsAt realloced str) :
    ∃ s', s.appendTo block realloced str = .ok s' ∧ s'.Inv ∧
      s'.toStdString = block.take s.len ++ str := by
  have hfree := hroomy.freeBytes
  have hsize := hroomy.size
  have hfits := hroomy.fits
  rw [appendTo]
  by_cases hroom : s.freeBytes ≥ str.length
  · rw [if_pos hroom]
    exact put_spec hroomy str (by omega)
  · rw [if_neg hroom]
    cases realloced with
    | none => exact absurd ⟨rfl, Nat.not_le.mp hroom⟩ hok
    | some junk =>
        obtain ⟨tmp, htmp, hlen, hkeep⟩ :=
          realloc_some junk block (grown (s.len + str.length))
        have hgrown : grown (s.len + str.length) = (s.len + str.length) * 3 / 2 + 1 := rfl
        simp only [htmp]
        have htmpRoomy : Roomy ⟨s.len, grown (s.len + str.length), some tmp⟩ tmp :=
          ⟨hlen.symm, by dsimp only; omega, by dsimp only; omega⟩
        obtain ⟨s', hs', hinv, hstr⟩ := put_spec htmpRoomy str (by dsimp only; omega)
        refine ⟨s', hs', hinv, hstr.trans ?_⟩
        rw [hkeep s.len (by omega)]

/-- Into the memory `malloc` has given for it. -/
theorem appendTo_fresh (junk : Nat → UInt8) {str : Bytes} (hshort : str.length < 2 ^ 22)
    (realloced : Answer UInt8) : ∃ block s', malloc (some junk) (str.length + 1) = some block ∧
      appendTo ⟨0, str.length + 1, some block⟩ block realloced str = .ok s' ∧ s'.Inv ∧
        s'.toStdString = str := by
  obtain ⟨block, hblock, hsize⟩ := malloc_some junk (str.length + 1)
  have hroomy : Roomy ⟨0, str.length + 1, some block⟩ block :=
    ⟨hsize.symm, by dsimp only; omega, by dsimp only; omega⟩
  have hgrow : ¬ GrowthFailsAt ⟨0, str.length + 1, some block⟩ realloced str := by
    rintro ⟨-, hfree⟩
    rw [hroomy.freeBytes] at hfree
    dsimp only at hfree
    omega
  obtain ⟨s', hs', hinv, hstr⟩ := appendTo_spec hroomy (by dsimp only; omega) hgrow
  exact ⟨block, s', hblock, hs', hinv, hstr⟩

/-- The failed growth leaves an object that is not sound. -/
theorem appendTo_unsound {s : RawString} {block str : Bytes} (hbuf : s.buf = some block)
    (hroomy : s.Roomy block) {realloced : Answer UInt8} (hfails : s.GrowthFailsAt realloced str) :
    ∃ s', s.appendTo block realloced str = .ok s' ∧ ¬ s'.Sound := by
  obtain ⟨rfl, hfree⟩ := hfails
  have hfree' := hroomy.freeBytes
  refine ⟨⟨s.len, grown (s.len + str.length), s.buf⟩, ?_, fun h => ?_⟩
  · rw [appendTo, if_neg (Nat.not_le.mpr hfree)]
    rfl
  · have hle : grown (s.len + str.length) ≤ block.length := (h block hbuf).2.1
    have hgrown : grown (s.len + str.length) = (s.len + str.length) * 3 / 2 + 1 := rfl
    have := hroomy.fits
    have := hroomy.size
    omega

/-- The failure of an allocation that `alloc_` does not survive. -/
def GrowthFails (s : RawString) : Call → Prop
  | .append str _ realloced => s.buf ≠ none ∧ s.GrowthFailsAt realloced str
  | .reset str _ realloced => s.buf ≠ none ∧ GrowthFailsAt { s with len := 0 } realloced str
  | _ => False

/-- `Append`, and what it leaves. -/
theorem append_spec {s : RawString} (h : s.Inv) {str : Bytes}
    (hshort : s.len + str.length < 2 ^ 22) (malloced : Answer UInt8) {realloced : Answer UInt8}
    (hok : ¬ (s.buf ≠ none ∧ s.GrowthFailsAt realloced str)) :
    ∃ s', s.append malloced realloced str = .ok s' ∧ s'.Inv ∧
      (malloced ≠ none → s'.toStdString = s.toStdString ++ str) := by
  rw [append]
  cases hbuf : s.buf with
  | some block =>
      have hgrow : ¬ s.GrowthFailsAt realloced str :=
        fun hf => hok ⟨by rw [hbuf]; exact Option.some_ne_none block, hf⟩
      obtain ⟨s', hs', hinv, hstr⟩ := appendTo_spec (h.roomy block hbuf) hshort hgrow
      exact ⟨s', hs', hinv, fun _ => by rw [hstr, toStdString_some hbuf]⟩
  | none =>
      have hlen := h.null hbuf
      cases malloced with
      | none => exact ⟨_, rfl, inv_null rfl hlen, fun hne => absurd rfl hne⟩
      | some junk =>
          obtain ⟨block, s', hblock, hs', hinv, hstr⟩ :=
            appendTo_fresh junk (show str.length < 2 ^ 22 by omega) realloced
          refine ⟨s', ?_, hinv, fun _ => ?_⟩
          · simp only [hblock, hlen]
            exact hs'
          · rw [hstr, toStdString_null hbuf, List.nil_append]

/-! ## The other calls -/

/-- `Clear` on a buffer: the string is empty, and the buffer as large as it was. -/
theorem clear_spec {s : RawString} {block : Bytes} (h : s.Inv) (hbuf : s.buf = some block) :
    ∃ block', s.clear = .ok ⟨0, s.alloc, some block'⟩ ∧ Inv ⟨0, s.alloc, some block'⟩ := by
  have hroomy := h.roomy block hbuf
  have hsize := hroomy.size
  have hfits := hroomy.fits
  obtain ⟨len, alloc, buf⟩ := s
  dsimp only at hbuf hsize hfits
  subst hbuf
  rw [clear]
  by_cases hlen : len = 0
  · subst hlen
    exact ⟨block, if_pos (Or.inl rfl), h⟩
  · obtain ⟨b₁, hb₁, hlen₁, -⟩ := store_ok block 0 (List.replicate alloc 0)
      (by rw [List.length_replicate]; omega)
    obtain ⟨b₂, hb₂, hlen₂, -, hnul, -⟩ := store_ok b₁ 0 [0] (by rw [List.length_singleton]; omega)
    have hfirst : b₂[0]? = some 0 := by
      have htake := congrArg (fun l : Bytes => l[0]?) hnul
      rw [List.getElem?_take_of_lt (by rw [List.length_singleton]; omega)] at htake
      exact htake
    refine ⟨b₂, ?_, inv_some rfl ⟨?_, ?_, hroomy.small⟩ hfirst⟩
    · simp only [if_neg (show ¬ (len = 0 ∨ alloc = 0) by omega), hb₁, ok_bind, hb₂]
    · rw [hlen₂, hlen₁]
      exact hsize
    · dsimp only
      omega

/-- `Reset`, and what it leaves. -/
theorem reset_spec {s : RawString} (h : s.Inv) {str : Bytes} (hshort : str.length < 2 ^ 22)
    (malloced : Answer UInt8) {realloced : Answer UInt8}
    (hok : ¬ (s.buf ≠ none ∧ GrowthFailsAt { s with len := 0 } realloced str)) :
    ∃ s', s.reset malloced realloced str = .ok s' ∧ s'.Inv ∧
      (malloced ≠ none → s'.toStdString = str) := by
  rw [reset]
  cases hbuf : s.buf with
  | some block =>
      obtain ⟨block', hclear, hinv⟩ := clear_spec h hbuf
      have hgrow : ¬ GrowthFailsAt ⟨0, s.alloc, some block'⟩ realloced str :=
        fun hf => hok ⟨by rw [hbuf]; exact Option.some_ne_none block, hf⟩
      obtain ⟨s', hs', hinv', hstr⟩ := appendTo_spec (hinv.roomy block' rfl)
        (by dsimp only; omega) hgrow
      refine ⟨s', ?_, hinv', fun _ => hstr⟩
      simp only [hclear, ok_bind]
      exact hs'
  | none =>
      cases malloced with
      | none => exact ⟨s, rfl, h, fun hne => absurd rfl hne⟩
      | some junk =>
          obtain ⟨block, s', hblock, hs', hinv, hstr⟩ := appendTo_fresh junk hshort realloced
          -- the memory is not set yet, but `Clear` has nothing to do
          have hclear : clear ⟨0, str.length + 1, some block⟩
              = .ok ⟨0, str.length + 1, some block⟩ := by
            rw [clear]
            exact if_pos (Or.inl rfl)
          refine ⟨s', ?_, hinv, fun _ => hstr⟩
          simp only [hblock, h.null hbuf, hclear, ok_bind]
          exact hs'

/-- `Shrink` keeps the string, and cannot break anything. -/
theorem shrink_spec {s : RawString} (h : s.Inv) (realloced : Answer UInt8) :
    (s.shrink realloced).Inv ∧ (s.shrink realloced).toStdString = s.toStdString := by
  rw [shrink]
  cases hbuf : s.buf with
  | none => exact ⟨h, rfl⟩
  | some block =>
      have hroomy := h.roomy block hbuf
      have hsize := hroomy.size
      have hfits := hroomy.fits
      cases realloced with
      | none => exact ⟨h, rfl⟩
      | some junk =>
          obtain ⟨tmp, htmp, hlen, hkeep⟩ :=
            realloc_some junk block (s.len + 1)
          have hnul : tmp[s.len]? = some 0 := by
            have htake := congrArg (fun l : Bytes => l[s.len]?) (hkeep (s.len + 1) (by omega))
            rw [List.getElem?_take_of_lt (Nat.lt_succ_self _),
              List.getElem?_take_of_lt (Nat.lt_succ_self _), h.nul block hbuf] at htake
            exact htake
          simp only [htmp]
          refine ⟨inv_some rfl ⟨hlen.symm, Nat.le_refl _, ?_⟩ hnul, ?_⟩
          · have := hroomy.small
            dsimp only
            omega
          · rw [toStdString_some hbuf, toStdString_some rfl]
            exact hkeep s.len (by omega)

/-- The copy is of the same length, the same size and the same string. -/
theorem copy_spec {s : RawString} (h : s.Inv) (junk : Nat → UInt8) :
    ∃ s', s.copy junk = .ok s' ∧ s'.Inv ∧ s'.toStdString = s.toStdString := by
  rw [copy]
  cases hbuf : s.buf with
  | none => exact ⟨new, rfl, inv_new, by rw [toStdString_null hbuf]; rfl⟩
  | some block =>
      have hroomy := h.roomy block hbuf
      have hsize := hroomy.size
      have hfits := hroomy.fits
      have hstr : (block.take s.len).length = s.len := by
        rw [List.length_take]
        omega
      obtain ⟨mem, hmem, hlen⟩ := malloc_some junk s.alloc
      have hcopy : Roomy ⟨0, s.alloc, some mem⟩ mem :=
        ⟨hlen.symm, by dsimp only; omega, hroomy.small⟩
      obtain ⟨s', hs', hinv, hcontents⟩ := put_spec hcopy (block.take s.len)
        (by dsimp only; omega)
      refine ⟨s', ?_, hinv, ?_⟩
      · cases hmem
        rw [← hs', put, hstr, Nat.zero_add]
      · rw [hcontents, toStdString_some hbuf, List.take_zero, List.nil_append]

/-! ## Runs -/

/-- What the calls do to the string. -/
def absCall (contents : Bytes) : Call → Bytes
  | .append str _ _ => contents ++ str
  | .clear => []
  | .reset str _ _ => str
  | .shrink _ => contents
  | .copy _ => contents

/-- A byte string as a machine. -/
def absStep (contents : Bytes) (c : Call) : Bytes × Bytes :=
  (absCall contents c, absCall contents c)

/-- The length is such that the growth factor is exact. -/
def Short (s : RawString) : Call → Prop
  | .append str _ _ => s.len + str.length < 2 ^ 22
  | .reset str _ _ => str.length < 2 ^ 22
  | _ => True

instance (s : RawString) : ∀ c : Call, Decidable (s.Short c)
  | .append str _ _ => inferInstanceAs (Decidable (s.len + str.length < 2 ^ 22))
  | .reset str _ _ => inferInstanceAs (Decidable (str.length < 2 ^ 22))
  | .clear => .isTrue trivial
  | .shrink _ => .isTrue trivial
  | .copy _ => .isTrue trivial

/-- No allocation of the call fails. -/
def Call.Answered : Call → Prop
  | .append _ malloced realloced => malloced ≠ none ∧ realloced ≠ none
  | .reset _ malloced realloced => malloced ≠ none ∧ realloced ≠ none
  | .shrink realloced => realloced ≠ none
  | _ => True

theorem clear_toStdString {s : RawString} (h : s.Inv) :
    ∃ s', s.clear = .ok s' ∧ s'.Inv ∧ s'.toStdString = [] := by
  cases hbuf : s.buf with
  | none =>
      refine ⟨s, ?_, h, toStdString_null hbuf⟩
      rw [clear]
      simp only [hbuf]
  | some block =>
      obtain ⟨block', hclear, hinv⟩ := clear_spec h hbuf
      exact ⟨_, hclear, hinv, (toStdString_some rfl).trans List.take_zero⟩

/-- A call without a failed growth keeps the invariant, and is what it is to
be when all its allocations succeed. -/
theorem call_spec {s : RawString} (h : s.Inv) (c : Call) (hshort : s.Short c)
    (hok : ¬ s.GrowthFails c) :
    ∃ s', s.call c = .ok s' ∧ s'.Inv ∧
      (c.Answered → s'.toStdString = absCall s.toStdString c) := by
  cases c with
  | append str malloced realloced =>
      obtain ⟨s', hs', hinv, hstr⟩ := append_spec h hshort malloced hok
      exact ⟨s', hs', hinv, fun hc => hstr hc.1⟩
  | clear =>
      obtain ⟨s', hs', hinv, hstr⟩ := clear_toStdString h
      exact ⟨s', hs', hinv, fun _ => hstr⟩
  | reset str malloced realloced =>
      obtain ⟨s', hs', hinv, hstr⟩ := reset_spec h hshort malloced hok
      exact ⟨s', hs', hinv, fun hc => hstr hc.1⟩
  | shrink realloced =>
      obtain ⟨hinv, hstr⟩ := shrink_spec h realloced
      exact ⟨_, rfl, hinv, fun _ => hstr⟩
  | copy junk =>
      obtain ⟨s', hs', hinv, hstr⟩ := copy_spec h junk
      exact ⟨s', hs', hinv, fun _ => hstr⟩

/-- A failed growth makes `alloc_` larger than the block. -/
theorem call_unsound {s : RawString} (h : s.Inv) {c : Call} (hfails : s.GrowthFails c) :
    ∃ s', s.call c = .ok s' ∧ ¬ s'.Sound := by
  cases c with
  | append str malloced realloced =>
      obtain ⟨block, hbuf⟩ := Option.ne_none_iff_exists'.mp hfails.1
      obtain ⟨s', hs', hbad⟩ := appendTo_unsound hbuf (h.roomy block hbuf) hfails.2
      refine ⟨s', ?_, hbad⟩
      rw [call, append]
      simp only [hbuf]
      exact hs'
  | reset str malloced realloced =>
      obtain ⟨block, hbuf⟩ := Option.ne_none_iff_exists'.mp hfails.1
      obtain ⟨block', hclear, hinv⟩ := clear_spec h hbuf
      obtain ⟨s', hs', hbad⟩ := appendTo_unsound rfl (hinv.roomy block' rfl) hfails.2
      refine ⟨s', ?_, hbad⟩
      rw [call, reset]
      simp only [hbuf, hclear, ok_bind]
      exact hs'
  | clear => exact hfails.elim
  | shrink realloced => exact hfails.elim
  | copy junk => exact hfails.elim

theorem growthFails_not_answered {s : RawString} {c : Call} (h : s.GrowthFails c) :
    ¬ c.Answered := by
  cases c with
  | append str malloced realloced => exact fun hc => hc.2 h.2.1
  | reset str malloced realloced => exact fun hc => hc.2 h.2.1
  | clear => exact h.elim
  | shrink realloced => exact h.elim
  | copy junk => exact h.elim

/-- Without failures a call is that of the byte string. -/
theorem answered_step (s : RawString) (contents : Bytes) (c : Call)
    (h : s.Inv ∧ s.toStdString = contents) (hc : s.Short c ∧ c.Answered) :
    ∃ s', step s c = .ok (s', (absStep contents c).2) ∧
      s'.Inv ∧ s'.toStdString = (absStep contents c).1 := by
  obtain ⟨hinv, rfl⟩ := h
  obtain ⟨s', hs', hinv', hstr⟩ := call_spec hinv c hc.1 fun hf => growthFails_not_answered hf hc.2
  have hcontents := hstr hc.2
  refine ⟨s', ?_, hinv', hcontents⟩
  rw [step, hs', ok_bind, hcontents]
  rfl

/-- And so is a run. -/
theorem answered_run (calls : List Call) (hshort : GuardedE step Short new calls)
    (hall : ∀ c ∈ calls, c.Answered) :
    ∃ s, traceE step new calls = .ok (s, (trace absStep [] calls).2) ∧
      s.toStdString = (trace absStep [] calls).1 := by
  obtain ⟨s, hs, -, hstr⟩ := traceE_simulates
    (fun (s : RawString) contents => s.Inv ∧ s.toStdString = contents) answered_step calls new []
    ⟨inv_new, rfl⟩ (hshort.and_forall hall)
  exact ⟨s, hs, hstr⟩

/-- **`DynamicString` survives every failed allocation but one.** In a run
whose lengths stay below `2 ^ 22`, every call writes inside its block and
leaves a sound object exactly if no append has to grow the block and gets
null for it. Without failures the object is the byte string of its calls. -/
theorem survives_iff (calls : List Call) (hshort : GuardedE step Short new calls) :
    ((∀ pre post, calls = pre ++ post → ∃ s os, traceE step new pre = .ok (s, os) ∧ s.Sound) ↔
      GuardedE step (fun s c => ¬ s.GrowthFails c) new calls) ∧
    ((∀ c ∈ calls, c.Answered) →
      ∃ s, traceE step new calls = .ok (s, (trace absStep [] calls).2) ∧
        s.toStdString = (trace absStep [] calls).1) := by
  refine ⟨?_, answered_run calls hshort⟩
  refine guardedE_iff (fun _ => Inv.sound) ?_ ?_ calls new inv_new hshort
  · intro s c h hc hok
    obtain ⟨s', hs', hinv, -⟩ := call_spec h c hc hok
    exact ⟨s', s'.toStdString, by rw [step, hs', ok_bind], hinv⟩
  · intro s c h _ hfails s' o hs'
    obtain ⟨s₁, hs₁, hbad⟩ := call_unsound h (not_not.mp hfails)
    rw [step, hs₁, ok_bind] at hs'
    cases hs'
    exact hbad

/-- A run with a failed shrink, and one without failures. -/
theorem survives_iff_grown :
    ((∀ pre post, [Call.append [97] (some fun _ => 7) none,
        .append [98, 99] none (some fun _ => 7), .shrink none] = pre ++ post →
        ∃ s os, traceE step new pre = .ok (s, os) ∧ s.Sound) ↔
      GuardedE step (fun s c => ¬ s.GrowthFails c) new [.append [97] (some fun _ => 7) none,
        .append [98, 99] none (some fun _ => 7), .shrink none]) ∧
    ∃ s, traceE step new [.append [97] (some fun _ => 7) (some fun _ => 7),
        .append [98, 99] (some fun _ => 7) (some fun _ => 7), .shrink (some fun _ => 7)]
        = .ok (s, [[97], [97, 98, 99], [97, 98, 99]]) ∧
      s.toStdString = [97, 98, 99] := by
  refine ⟨(survives_iff [.append [97] (some fun _ => 7) none,
      .append [98, 99] none (some fun _ => 7), .shrink none] (by decide)).1,
    (survives_iff [.append [97] (some fun _ => 7) (some fun _ => 7),
      .append [98, 99] (some fun _ => 7) (some fun _ => 7), .shrink (some fun _ => 7)]
      (by decide)).2 fun c hc => ?_⟩
  simp only [List.mem_cons, List.not_mem_nil, or_false] at hc
  rcases hc with rfl | rfl | rfl
  · exact ⟨nofun, nofun⟩
  · exact ⟨nofun, nofun⟩
  · exact nofun

/-- A block of two bytes that could not grow, and the append that trusts `alloc_`. -/
theorem append_outside_block :
    GuardedE step Short new [.append [97] (some fun _ => 7) none, .append [98, 99, 100] none none,
      .append [98, 99] none (some fun _ => 7)] ∧
    traceE step new [.append [97] (some fun _ => 7) none, .append [98, 99, 100] none none,
      .append [98, 99] none (some fun _ => 7)] = .error .outside := by
  decide

end LiteKV.RawString
