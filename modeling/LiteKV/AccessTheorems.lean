/-
LiteKV.AccessTheorems — when the skiplist reads inside its arrays.

Every read of a link is checked against the array it is in, and every array
is as long as its node's level, `Wide`. The searches, and the loops of
`Insert` and `Remove`, never leave an array: the node they stand on at a
level was reached on it. The loop that lowers `cur_max_level_` does. It reads
`head_->nexts[cur_max_level_ - 1]` before it looks whether `cur_max_level_`
is 0, and it comes to 0 exactly when no element is left.

So the checked `Remove` is the one of `LiteKV.Skiplist`, whatever stands in
front of the array, but for the last element, where it fails.
-/
import LiteKV.SkiplistTheorems

namespace LiteKV.Skiplist

open Lib

/-! ## The arrays -/

/-- The length of every array of the heap is the level of its node. -/
def Widths (s : Skiplist) : Prop := ∀ p n, s.heap p = some n → n.nexts.length = n.level

theorem widths_update {s : Skiplist} (h : s.Widths) {p : SKPtr} {n : SKNode}
    (hn : n.nexts.length = n.level) :
    ∀ q m, Function.update s.heap p (some n) q = some m → m.nexts.length = m.level := by
  intro q m hm
  rw [Function.update_apply] at hm
  split at hm
  · cases hm
    exact hn
  · exact h q m hm

section

variable {s s' : Skiplist} (h : s.Widths)

include h

theorem setNext_widths {p : SKPtr} {l : Nat} {q : Option SKPtr} (hs : s.setNext p l q = .ok s') :
    s'.Widths := by
  rw [setNext, node] at hs
  cases hn : s.heap p with
  | none =>
      rw [hn] at hs
      cases hs
  | some n =>
      simp only [hn, Run.ok_bind] at hs
      split at hs
      · cases hs
        exact widths_update h (List.length_set.trans (h p n hn))
      · cases hs

theorem setPrev_widths {p q : SKPtr} (hs : s.setPrev p q = .ok s') : s'.Widths := by
  rw [setPrev, node] at hs
  cases hn : s.heap p with
  | none =>
      rw [hn] at hs
      cases hs
  | some n =>
      simp only [hn, Run.ok_bind] at hs
      cases hs
      exact widths_update h (h p n hn)

theorem setPrevOf_widths {p : Option SKPtr} {q : SKPtr} (hs : s.setPrevOf p q = .ok s') :
    s'.Widths := by
  cases p with
  | none =>
      cases hs
      exact h
  | some a => exact setPrev_widths h hs

theorem alloc_widths (e : SKElem) (level : Nat) : (s.alloc e level).Widths :=
  widths_update h List.length_replicate

theorem free_widths (d : SKPtr) (level : Nat) : (s.free d level).Widths := by
  intro q m hm
  simp only [free, Function.update_apply] at hm
  split at hm
  · cases hm
  · exact h q m hm

theorem linkLevel_widths {path : SKPath} {p : SKPtr} {l : Nat}
    (hs : linkLevel path p s l = .ok s') :
    s'.Widths := by
  rw [linkLevel] at hs
  split at hs
  · simp only [Run.bind_eq_ok] at hs
    obtain ⟨q, -, s₁, hs₁, hs⟩ := hs
    exact setNext_widths (setNext_widths h hs₁) hs
  · cases hs

theorem checkedUnlinkLevel_widths {e : SKElem} {path : SKPath} {del : SKPtr} {l : Nat}
    (hs : checkedUnlinkLevel e path del s l = .ok s') : s'.Widths := by
  rw [checkedUnlinkLevel] at hs
  split at hs
  · simp only [Run.bind_eq_ok] at hs
    obtain ⟨q, -, b, -, hs⟩ := hs
    split at hs
    · obtain ⟨r, -, hs⟩ := Run.bind_eq_ok.mp hs
      exact setNext_widths h hs
    · cases hs
      exact h
  · cases hs

end

theorem insert_widths {s s' : Skiplist} (h : s.Widths) {e : SKElem} {level : Nat} {b : Bool}
    (hs : s.insert e level = .ok (s', b)) : s'.Widths := by
  rw [insert, Run.bind_eq_ok] at hs
  obtain ⟨first, -, hs⟩ := hs
  cases first with
  | none =>
      simp only [Run.bind_eq_ok] at hs
      obtain ⟨s₁, hs₁, s₂, hs₂, hs⟩ := hs
      cases hs
      have h₂ : s₂.Widths := setPrev_widths (setNext_widths (alloc_widths h e 1) hs₁) hs₂
      exact h₂
  | some o =>
      simp only [Run.bind_eq_ok] at hs
      obtain ⟨r, -, after, -, found, -, hs⟩ := hs
      split at hs
      · cases hs
        exact h
      · simp only [Run.bind_eq_ok] at hs
        obtain ⟨s₁, hs₁, s₂, hs₂, s₃, hs₃, hs⟩ := hs
        cases hs
        have h₁ : s₁.Widths := Run.foldlM_keeps (fun _ _ _ hw hl => linkLevel_widths hw hl) _
          (alloc_widths h e level) hs₁
        have h₃ : s₃.Widths := setPrev_widths (setPrevOf_widths h₁ hs₂) hs₃
        exact h₃

theorem checkedRemove_widths {s s' : Skiplist} (h : s.Widths) {e : SKElem} {b : Bool}
    (hs : s.checkedRemove e = .ok (s', b)) : s'.Widths := by
  rw [checkedRemove, removeWith, Run.bind_eq_ok] at hs
  obtain ⟨first, -, hs⟩ := hs
  cases first with
  | none =>
      cases hs
      exact h
  | some o =>
      simp only [Run.bind_eq_ok] at hs
      obtain ⟨r, -, target, -, hs⟩ := hs
      cases target with
      | none =>
          cases hs
          exact h
      | some del =>
          simp only [Run.bind_eq_ok] at hs
          obtain ⟨c, -, hs⟩ := hs
          split at hs
          · cases hs
            exact h
          · simp only [Run.bind_eq_ok] at hs
            obtain ⟨s₁, hs₁, after, -, s₂, hs₂, n, -, level, -, hs⟩ := hs
            cases hs
            have h₁ : s₁.Widths :=
              Run.foldlM_keeps (fun _ _ _ hw hl => checkedUnlinkLevel_widths hw hl) _ h hs₁
            have h₂ : s₂.Widths := setPrevOf_widths h₁ hs₂
            exact free_widths h₂ del level

theorem clear_widths {s s' : Skiplist} (h : s.Widths) (hs : s.clear = .ok s') : s'.Widths := by
  rw [clear] at hs
  split at hs
  · cases hs
    exact h
  · simp only [Run.bind_eq_ok] at hs
    obtain ⟨nodes, -, n, hn, hs⟩ := hs
    cases hs
    have hfree : Widths { s with heap := fun p => if p ∈ nodes then none else s.heap p } := by
      intro q m hm
      dsimp only at hm
      split at hm
      · cases hm
      · exact h q m hm
    rw [node] at hn
    split at hn
    · cases hn
    · rename_i m hm
      cases hn
      exact widths_update hfree ((List.length_map _).trans (hfree _ _ hm))

theorem checkedStep_widths {s s' : Skiplist} (h : s.Widths) {c : Call} {r : Result}
    (hs : s.checkedStep c = .ok (s', r)) : s'.Widths := by
  cases c with
  | op op =>
      cases op with
      | insert e level =>
          simp only [checkedStep, step, Run.bind_eq_ok] at hs
          obtain ⟨r₁, ⟨r₂, hs₂, hr⟩, hs⟩ := hs
          cases hr
          cases hs
          exact insert_widths h hs₂
      | remove e outside =>
          simp only [checkedStep, Run.bind_eq_ok] at hs
          obtain ⟨r₁, hs₁, hs⟩ := hs
          cases hs
          exact checkedRemove_widths h hs₁
      | contains e =>
          simp only [checkedStep, step, Run.bind_eq_ok] at hs
          obtain ⟨r₁, ⟨b, -, hr⟩, hs⟩ := hs
          cases hr
          cases hs
          exact h
      | clear =>
          simp only [checkedStep, step, Run.bind_eq_ok] at hs
          obtain ⟨r₁, ⟨s₂, hs₂, hr⟩, hs⟩ := hs
          cases hr
          cases hs
          exact clear_widths h hs₂
  | end_ =>
      simp only [checkedStep, Run.bind_eq_ok] at hs
      obtain ⟨p, -, hs⟩ := hs
      cases hs
      exact h

/-! ## The last element -/

/-- Along a path that is not null the loop of `Remove` is the checked one. -/
theorem unlinkLevels_checked {e : SKElem} {path : SKPath} {del : SKPtr} {b : Nat → SKPtr} :
    ∀ (ls : List Nat) (s : Skiplist), (∀ l ∈ ls, path[l]? = some (some (b l))) →
      ls.foldlM (checkedUnlinkLevel e path del) s = ls.foldlM (unlinkLevel e path del) s
  | [], _, _ => rfl
  | l :: ls, s, hpath => by
      have hl : checkedUnlinkLevel e path del s l = unlinkLevel e path del s l := by
        rw [checkedUnlinkLevel, unlinkLevel, hpath l List.mem_cons_self]
      rw [List.foldlM_cons, List.foldlM_cons, hl]
      refine congrArg (unlinkLevel e path del s l >>= ·) (funext fun s₁ => ?_)
      exact unlinkLevels_checked ls s₁ fun l' hl' => hpath l' (List.mem_cons_of_mem l hl')

/-- The loop reads in front of the array when it comes to 0. -/
theorem lowerLevel_checked (s : Skiplist) (outside : Option SKPtr) : ∀ (fuel level m : Nat),
    s.lowerLevel outside fuel level = .ok m →
      s.checkedLowerLevel fuel level = if m = 0 then .error .badAccess else .ok m
  | 0, _, _, h => by
      rw [lowerLevel] at h
      cases h
  | fuel + 1, 0, m, h => by
      simp only [lowerLevel, headBelow, Run.ok_bind, gt_iff_lt, Nat.lt_irrefl, decide_false,
        Bool.and_false, Bool.false_eq_true, if_false, Except.ok.injEq] at h
      rw [if_pos h.symm]
      rfl
  | fuel + 1, l + 1, m, h => by
      rw [lowerLevel, headBelow, Run.bind_eq_ok] at h
      obtain ⟨q, hq, h⟩ := h
      rw [checkedLowerLevel, checkedHeadBelow, hq, Run.ok_bind]
      cases q with
      | none => exact lowerLevel_checked s outside fuel l m h
      | some q =>
          cases h
          rfl

theorem levelWithout_checked {s : Skiplist} {outside : Option SKPtr} {level m : Nat}
    (h : s.levelWithout outside level = .ok m) (hpos : s.curMaxLevel ≠ 0) :
    s.checkedLevelWithout level = if m = 0 then .error .badAccess else .ok m := by
  rw [levelWithout] at h
  rw [checkedLevelWithout]
  split at h
  · rename_i hlevel
    rw [if_pos hlevel]
    exact lowerLevel_checked s outside _ _ m h
  · rename_i hlevel
    cases h
    rw [if_neg hlevel, if_neg hpos]

/-- The largest level of some nodes is 0 when there are none. -/
theorem Sorted.maxLevel_eq_zero {s : Skiplist} {order rest : List SKPtr} (h : s.Sorted order)
    (hsub : rest ⊆ order) : s.maxLevel rest = 0 ↔ rest = [] := by
  constructor
  · intro hzero
    refine List.eq_nil_iff_forall_not_mem.mpr fun p hp => ?_
    have hle := ((maxLevel_iff s rest 0).mp hzero).1 p hp
    have hpos := (h.levels p (hsub hp)).1
    omega
  · rintro rfl
    rfl

/-- **The checked `Remove` is `Remove`, but for the last element.** -/
theorem checkedRemove_eq {s : Skiplist} {order : List SKPtr} (h : s.Sorted order) (e : SKElem)
    (outside : Option SKPtr) : s.checkedRemove e
      = if order ≠ [] ∧ ∀ p ∈ order, s.keyOf p = e.key then .error .badAccess
        else s.remove e outside := by
  by_cases hpres : ∃ p ∈ order, s.keyOf p = e.key
  · obtain ⟨xs, d, ys, rfl, hkey, hxs, hys⟩ := h.split_present hpres
    obtain ⟨path, s₁, s₂, n, hfind, hpath, hs₁, hafter, hs₂, hnode, hnlevel, hun⟩ :=
      h.unlink_target hkey hxs hys
    have hmem : d ∈ xs ++ d :: ys := List.mem_append_right xs List.mem_cons_self
    have hlevel := hun.levelWithout h (hun.sorted h rfl) outside
    have hpos : s₂.curMaxLevel ≠ 0 := by
      rw [hun.relinks.curMaxLevel]
      exact (h.curMaxLevel_pos (List.ne_nil_of_mem hmem)).ne'
    have hremove :=
      removeWith_present h hkey hfind hafter hs₂ hnode hs₁ fun s => s.levelWithout outside
    have hchecked := removeWith_present h hkey hfind hafter hs₂ hnode
      ((unlinkLevels_checked _ s fun l hl => hpath l
        (List.mem_range.mp (List.mem_reverse.mp hl))).trans hs₁) checkedLevelWithout
    rw [hnlevel] at hremove hchecked
    rw [hlevel, Run.ok_bind] at hremove
    rw [levelWithout_checked hlevel hpos] at hchecked
    have hlast : (xs ++ d :: ys ≠ [] ∧ ∀ p ∈ xs ++ d :: ys, s.keyOf p = e.key) ↔
        s.maxLevel (xs ++ ys) = 0 := by
      have hsub : (xs ++ ys).Sublist (xs ++ d :: ys) :=
        List.Sublist.append_left (List.sublist_cons_self d ys) xs
      rw [h.maxLevel_eq_zero hsub.subset]
      constructor
      · rintro ⟨-, hall⟩
        refine List.eq_nil_iff_forall_not_mem.mpr fun p hp => ?_
        have hp' := hall p (hsub.subset hp)
        rcases List.mem_append.mp hp with hp | hp
        · exact (hxs p hp).ne hp'
        · exact (hys p hp).ne' hp'
      · intro hnil
        obtain ⟨rfl, rfl⟩ := List.append_eq_nil_iff.mp hnil
        refine ⟨List.cons_ne_nil d [], fun p hp => ?_⟩
        rw [List.mem_singleton.mp hp]
        exact hkey
    rw [checkedRemove, hchecked]
    simp only [hlast]
    split
    · rfl
    · exact hremove.symm
  · have hnot : ¬ (order ≠ [] ∧ ∀ p ∈ order, s.keyOf p = e.key) := by
      rintro ⟨hne, hall⟩
      obtain ⟨o, os, rfl⟩ := List.exists_cons_of_ne_nil hne
      exact hpres ⟨o, List.mem_cons_self, hall o List.mem_cons_self⟩
    rw [if_neg hnot, remove_absent h hpres]
    exact removeWith_absent h hpres _ _

/-! ## Runs -/

/-- What a call does to the set of elements. -/
noncomputable def setNextOf (S : Set SKElem) : Call → Set SKElem
  | .op op => (setStep S op).1
  | .end_ => S

/-- A removal leaves an element, or finds none. -/
def LeavesOne (S : Set SKElem) : Call → Prop
  | .op (.remove e _) => S.Nonempty → ∃ x ∈ S, skComparator e x ≠ 0
  | _ => True

/-- Every node has a link for each of its levels, and the sentinel has 32. -/
structure Wide (s : Skiplist) : Prop where
  nodes : ∀ p n, s.heap p = some n → n.nexts.length = n.level
  head : ∃ n, s.heap s.head = some n ∧ n.level = kMaxLevel

theorem last_iff {s : Skiplist} {order : List SKPtr} {S : Set SKElem}
    (hS : ∀ x, x ∈ S ↔ x ∈ s.elems order) (e : SKElem) (outside : Option SKPtr) :
    (order ≠ [] ∧ ∀ p ∈ order, s.keyOf p = e.key) ↔ ¬ LeavesOne S (.op (.remove e outside)) := by
  have hall : (∀ p ∈ order, s.keyOf p = e.key) ↔ ¬ ∃ x ∈ S, skComparator e x ≠ 0 := by
    simp only [hS, elems, List.mem_map, skComparator_eq, ne_eq, signOf_zero, not_exists, not_and,
      not_not]
    constructor
    · rintro h _ ⟨p, hp, rfl⟩
      exact (h p hp).symm
    · intro h p hp
      exact (h _ ⟨p, hp, rfl⟩).symm
  have hne : order ≠ [] ↔ S.Nonempty := by
    constructor
    · intro h
      obtain ⟨o, os, rfl⟩ := List.exists_cons_of_ne_nil h
      exact ⟨s.elemOf o, (hS _).mpr (List.mem_map.mpr ⟨o, List.mem_cons_self, rfl⟩)⟩
    · rintro ⟨x, hx⟩ rfl
      exact absurd ((hS x).mp hx) List.not_mem_nil
  rw [hall, hne, LeavesOne, Classical.not_imp]

/-- A call of `step`, as a call. -/
theorem checked_op {s : Skiplist} {S : Set SKElem} (h : s.Represents S) {op : Op}
    (hop : s.checkedStep (.op op) = (do
      let r ← s.step op
      .ok (r.1, .flag r.2))) :
    ∃ s' r, s.checkedStep (.op op) = .ok (s', r) ∧ s'.Represents (setNextOf S (.op op)) := by
  obtain ⟨s', hs', hrep⟩ := step_represents h op
  exact ⟨s', _, by rw [hop, hs']; rfl, hrep⟩

/-- A checked call fails when it removes the last element, and only then. -/
theorem checkedStep_spec {s : Skiplist} {S : Set SKElem} (h : s.Represents S) (c : Call) :
    (¬ LeavesOne S c ∧ s.checkedStep c = .error .badAccess) ∨
      LeavesOne S c ∧ ∃ s' r, s.checkedStep c = .ok (s', r) ∧ s'.Represents (setNextOf S c) := by
  cases c with
  | op op =>
      cases op with
      | insert e level => exact Or.inr ⟨trivial, checked_op h rfl⟩
      | remove e outside =>
          obtain ⟨order, hsorted, hS⟩ := h
          have hchecked := checkedRemove_eq hsorted e outside
          by_cases hlast : order ≠ [] ∧ ∀ p ∈ order, s.keyOf p = e.key
          · rw [if_pos hlast] at hchecked
            refine Or.inl ⟨(last_iff hS e outside).mp hlast, ?_⟩
            rw [checkedStep, hchecked, Run.error_bind]
          · rw [if_neg hlast] at hchecked
            refine Or.inr ⟨not_not.mp (mt (last_iff hS e outside).mpr hlast),
              checked_op ⟨order, hsorted, hS⟩ ?_⟩
            rw [checkedStep, step, hchecked]
            cases s.remove e outside <;> rfl
      | contains e => exact Or.inr ⟨trivial, checked_op h rfl⟩
      | clear => exact Or.inr ⟨trivial, checked_op h rfl⟩
  | end_ =>
      obtain ⟨order, hsorted, hS⟩ := h
      refine Or.inr ⟨trivial, s, .last order.getLast?, ?_, order, hsorted, hS⟩
      rw [checkedStep, end_spec hsorted, Run.ok_bind]

/-- The state between two calls. -/
def Sane (s : Skiplist) (S : Set SKElem) : Prop := s.Represents S ∧ s.Widths

theorem sane_new : new.Sane ∅ := by
  refine ⟨⟨[], sorted_new, fun x => ?_⟩, ?_⟩
  · rw [elems, List.map_nil, Set.mem_empty_iff_false]
    exact ⟨False.elim, List.not_mem_nil.elim⟩
  · intro p n hn
    simp only [new, Function.update_apply] at hn
    split at hn
    · cases hn
      exact List.length_replicate
    · cases hn

theorem Sane.wide {s : Skiplist} {S : Set SKElem} (h : s.Sane S) : s.Wide := by
  obtain ⟨⟨order, hsorted, -⟩, hwidths⟩ := h
  obtain ⟨n, hn, -⟩ := (hsorted.live s.head List.mem_cons_self).links
  refine ⟨hwidths, n, hn, ?_⟩
  have hlevel := hsorted.headLevel
  rwa [levelOf, hn] at hlevel

/-- What a checked call that does not fail leaves. -/
theorem checkedStep_sane (s : Skiplist) (S : Set SKElem) (c : Call) (s' : Skiplist) (r : Result)
    (h : s.Sane S) (hs : s.checkedStep c = .ok (s', r)) : s'.Sane (setNextOf S c) := by
  refine ⟨?_, checkedStep_widths h.2 hs⟩
  obtain ⟨-, hfail⟩ | ⟨-, s₁, r₁, hs₁, hrep⟩ := checkedStep_spec h.1 c
  · rw [hfail] at hs
    cases hs
  · rw [hs₁] at hs
    cases hs
    exact hrep

/-- **The skiplist reads inside its arrays until it becomes empty.** A run of
checked calls, with any random levels, does not fail exactly if no removal
takes the last element there is; the arrays it leaves are as long as the levels
of their nodes, and the sentinel's has 32. -/
theorem accesses_inside_iff (calls : List Call) :
    ((∃ s rs, Run.traceE checkedStep new calls = .ok (s, rs)) ↔
      Run.Guarded setNextOf LeavesOne ∅ calls) ∧
    ∀ s rs, Run.traceE checkedStep new calls = .ok (s, rs) → s.Wide := by
  constructor
  · refine Run.traceE_ok_iff (R := Sane) (fun s S c h => ?_) checkedStep_sane calls new ∅ sane_new
    obtain ⟨hlast, hfail⟩ | ⟨hone, s₁, r₁, hs₁, -⟩ := checkedStep_spec h.1 c
    · refine ⟨fun ⟨s', r, hs⟩ => ?_, fun hone => absurd hone hlast⟩
      rw [hfail] at hs
      cases hs
    · exact ⟨fun _ => hone, fun _ => ⟨s₁, r₁, hs₁⟩⟩
  · intro s rs hs
    exact (Run.traceE_reaches checkedStep_sane calls new s ∅ rs sane_new hs).wide

/-- An element with the string `a` is put in and taken out. -/
theorem remove_last_reads_outside : Run.traceE checkedStep new
    [.op (.insert ⟨1, some [97]⟩ ⟨1, by decide⟩), .op (.remove ⟨1, some [97]⟩ none)]
      = .error .badAccess := by
  rfl

end LiteKV.Skiplist
