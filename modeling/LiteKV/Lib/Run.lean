/-
LiteKV.Lib.Run — runs of a machine that answers every input.

A machine is a step function from a state and an input to the next state
and an output; `trace` is a whole run of it. `traceE` is the same for a
machine whose step may fail, where the first failure ends the run.

The rules below are the only inductions a whole-run statement needs: a
relation between two machines that one step preserves, with equal outputs,
is preserved by every run, with equal output lists. A fallible machine that
simulates a total one therefore never fails. A step that simulates only
under a guard gives the same for the runs all of whose steps are guarded.
-/
import Mathlib.Logic.Basic

namespace LiteKV.Lib.Run

variable {σ τ ι ω ε α β : Type}

@[simp] theorem ok_bind (a : α) (f : α → Except ε β) : (Except.ok a >>= f) = f a := rfl

@[simp] theorem error_bind (e : ε) (f : α → Except ε β) :
    ((Except.error e : Except ε α) >>= f) = .error e := rfl

@[simp] theorem pure_eq_ok (a : α) : (pure a : Except ε α) = .ok a := rfl

@[simp] theorem throw_eq_error (e : ε) : (throw e : Except ε α) = .error e := rfl

theorem bind_eq_ok {x : Except ε α} {f : α → Except ε β} {b : β} :
    (x >>= f) = .ok b ↔ ∃ a, x = .ok a ∧ f a = .ok b := by
  cases x with
  | error e => simp
  | ok a => simp

theorem bind_eq_error {x : Except ε α} {f : α → Except ε β} {e : ε} :
    (x >>= f) = .error e ↔ x = .error e ∨ ∃ a, x = .ok a ∧ f a = .error e := by
  cases x with
  | error e => simp
  | ok a => simp

/-- What a step keeps when it does not fail, a loop keeps. -/
theorem foldlM_keeps {f : σ → ι → Except ε σ} {P : σ → Prop}
    (hf : ∀ s i s', P s → f s i = .ok s' → P s') :
    ∀ (is : List ι) {s s' : σ}, P s → is.foldlM f s = .ok s' → P s'
  | [], _, _, h, hs => by
      cases hs
      exact h
  | i :: is, s, _, h, hs => by
      rw [List.foldlM_cons, bind_eq_ok] at hs
      obtain ⟨s₁, hs₁, hs⟩ := hs
      exact foldlM_keeps hf is (hf s i s₁ h hs₁) hs

/-- A run of a total machine: the final state and the outputs in order. -/
def trace (step : σ → ι → σ × ω) : σ → List ι → σ × List ω
  | s, [] => (s, [])
  | s, i :: is =>
      let r := step s i
      let rs := trace step r.1 is
      (rs.1, r.2 :: rs.2)

/-- A run of a machine that may fail; the first failure is the result. -/
def traceE (step : σ → ι → Except ε (σ × ω)) : σ → List ι → Except ε (σ × List ω)
  | s, [] => .ok (s, [])
  | s, i :: is => do
      let r ← step s i
      let rs ← traceE step r.1 is
      return (rs.1, r.2 :: rs.2)

@[simp] theorem trace_nil (step : σ → ι → σ × ω) (s : σ) : trace step s [] = (s, []) := rfl

theorem trace_cons (step : σ → ι → σ × ω) (s : σ) (i : ι) (is : List ι) :
    trace step s (i :: is)
      = ((trace step (step s i).1 is).1, (step s i).2 :: (trace step (step s i).1 is).2) := rfl

/-- Two runs, one behind the other. -/
theorem trace_append (step : σ → ι → σ × ω) : ∀ (is is' : List ι) (s : σ),
    trace step s (is ++ is')
      = ((trace step (trace step s is).1 is').1,
          (trace step s is).2 ++ (trace step (trace step s is).1 is').2)
  | [], _, _ => rfl
  | i :: is, is', s => by
      rw [List.cons_append, trace_cons, trace_append step is is', trace_cons]
      rfl

/-- An invariant of one step is an invariant of every run. -/
theorem trace_invariant {step : σ → ι → σ × ω} {P : σ → Prop}
    (hstep : ∀ s i, P s → P (step s i).1) :
    ∀ (is : List ι) (s : σ), P s → P (trace step s is).1
  | [], _, h => h
  | i :: is, s, h => trace_invariant hstep is (step s i).1 (hstep s i h)

/-- A run with as many counted steps as a measure allows reaches the goal, when
a counted step short of it lowers the measure and no other step raises it. -/
theorem trace_reaches {step : σ → ι → σ × ω} {counted : ι → Bool} {P goal : σ → Prop} (μ : σ → Nat)
    (hpos : ∀ s, P s → 0 < μ s)
    (hstep : ∀ s i, P s → goal (step s i).1 ∨
      P (step s i).1 ∧ μ (step s i).1 + (if counted i then 1 else 0) ≤ μ s) :
    ∀ (is : List ι) (s : σ), P s → μ s ≤ is.countP counted →
      ∃ pre post, is = pre ++ post ∧ goal (trace step s pre).1
  | [], s, h, hle => absurd hle (Nat.not_le_of_lt (hpos s h))
  | i :: is, s, h, hle => by
      rcases hstep s i h with hgoal | ⟨hnext, hμ⟩
      · exact ⟨[i], is, rfl, hgoal⟩
      · rw [List.countP_cons] at hle
        obtain ⟨pre, post, rfl, hgoal⟩ :=
          trace_reaches μ hpos hstep is (step s i).1 hnext (by omega)
        exact ⟨i :: pre, post, rfl, hgoal⟩

/-- A step-by-step simulation with equal outputs is one of whole runs. -/
theorem trace_simulates (step : σ → ι → σ × ω) (step' : τ → ι → τ × ω) (R : σ → τ → Prop)
    (hstep : ∀ s t i, R s t → R (step s i).1 (step' t i).1 ∧ (step s i).2 = (step' t i).2) :
    ∀ (is : List ι) (s : σ) (t : τ), R s t →
      R (trace step s is).1 (trace step' t is).1 ∧ (trace step s is).2 = (trace step' t is).2
  | [], _, _, h => ⟨h, rfl⟩
  | i :: is, s, t, h => by
      obtain ⟨hr, ho⟩ := hstep s t i h
      obtain ⟨hr', ho'⟩ := trace_simulates step step' R hstep is _ _ hr
      refine ⟨hr', ?_⟩
      rw [trace_cons, trace_cons, ho, ho']

/-- A run of a machine given by a relation between a state, an input, an output
and the next state. -/
inductive Runs (rel : τ → ι → ω → τ → Prop) : τ → List ι → List ω → τ → Prop where
  | nil (t : τ) : Runs rel t [] [] t
  | cons {t t₁ t₂ : τ} {i : ι} {is : List ι} {o : ω} {os : List ω} (step : rel t i o t₁)
      (rest : Runs rel t₁ is os t₂) : Runs rel t (i :: is) (o :: os) t₂

/-- A run is one of the relation when each of its steps is, seen through `abs`. -/
theorem runs_of_trace {step : σ → ι → σ × ω} {rel : τ → ι → ω → τ → Prop} {abs : σ → τ}
    {P : σ → Prop}
    (hstep : ∀ s i, P s → P (step s i).1 ∧ rel (abs s) i (step s i).2 (abs (step s i).1)) :
    ∀ (is : List ι) (s : σ), P s →
      Runs rel (abs s) is (trace step s is).2 (abs (trace step s is).1)
  | [], s, _ => .nil (abs s)
  | i :: is, s, h => by
      obtain ⟨hnext, hrel⟩ := hstep s i h
      exact .cons hrel (runs_of_trace hstep is (step s i).1 hnext)

/-- Every step of the run of `next` is taken from a state in which `ok` holds
of it. -/
def Guarded (next : σ → ι → σ) (ok : σ → ι → Prop) : σ → List ι → Prop
  | _, [] => True
  | s, i :: is => ok s i ∧ Guarded next ok (next s i) is

instance Guarded.decidable (next : σ → ι → σ) (ok : σ → ι → Prop) [∀ s i, Decidable (ok s i)] :
    ∀ (s : σ) (is : List ι), Decidable (Guarded next ok s is)
  | _, [] => .isTrue trivial
  | s, i :: is =>
      have := Guarded.decidable next ok (next s i) is
      inferInstanceAs (Decidable (ok s i ∧ Guarded next ok (next s i) is))

theorem Guarded.take {next : σ → ι → σ} {ok : σ → ι → Prop} : ∀ (is is' : List ι) {s : σ},
    Guarded next ok s (is ++ is') → Guarded next ok s is
  | [], _, _, _ => trivial
  | _ :: is, is', _, h => ⟨h.1, Guarded.take is is' h.2⟩

theorem Guarded.drop {next : σ → ι → σ} {ok : σ → ι → Prop} : ∀ (is is' : List ι) {s : σ},
    Guarded next ok s (is ++ is') → Guarded next ok (is.foldl next s) is'
  | [], _, _, h => h
  | _ :: is, is', _, h => Guarded.drop is is' h.2

theorem Guarded.append {next : σ → ι → σ} {ok : σ → ι → Prop} : ∀ (is is' : List ι) {s : σ},
    Guarded next ok s is → Guarded next ok (is.foldl next s) is' → Guarded next ok s (is ++ is')
  | [], _, _, _, h => h
  | _ :: is, is', _, h, h' => ⟨h.1, Guarded.append is is' h.2 h'⟩

/-- A run is guarded when each of its steps is. -/
theorem guarded_iff_forall {next : σ → ι → σ} {ok : σ → ι → Prop} : ∀ (is : List ι) (s : σ),
    Guarded next ok s is ↔ ∀ pre i post, is = pre ++ i :: post → ok (pre.foldl next s) i
  | [], _ => by
      refine ⟨fun _ pre i post h => ?_, fun _ => trivial⟩
      exact absurd h.symm (List.append_ne_nil_of_right_ne_nil pre (List.cons_ne_nil i post))
  | i :: is, s => by
      rw [Guarded, guarded_iff_forall is (next s i)]
      constructor
      · rintro ⟨hi, his⟩ pre j post h
        cases pre with
        | nil =>
            cases h
            exact hi
        | cons k pre =>
            cases h
            exact his pre j post rfl
      · intro h
        refine ⟨h [] i is rfl, fun pre j post his => ?_⟩
        exact h (i :: pre) j post (by rw [his]; rfl)

/-- An invariant of the guarded steps is one of the guarded runs. -/
theorem Guarded.invariant {next : σ → ι → σ} {ok : σ → ι → Prop} {P : σ → Prop}
    (hstep : ∀ s i, P s → ok s i → P (next s i)) :
    ∀ (is : List ι) {s : σ}, P s → Guarded next ok s is → P (is.foldl next s)
  | [], _, h, _ => h
  | i :: is, s, h, hg => Guarded.invariant hstep is (hstep s i h hg.1) hg.2

/-- What a guarded step keeps of the run so far holds of every guarded run. -/
theorem Guarded.history {next : σ → ι → σ} {ok : σ → ι → Prop} {P : List ι → Prop} {s : σ}
    (hstep : ∀ hist i, P hist → ok (hist.foldl next s) i → P (hist ++ [i])) :
    ∀ (is hist : List ι), P hist → Guarded next ok (hist.foldl next s) is → P (hist ++ is)
  | [], hist, h, _ => by
      rw [List.append_nil]
      exact h
  | i :: is, hist, h, hg => by
      have hsnoc : (hist ++ [i]).foldl next s = next (hist.foldl next s) i := by
        rw [List.foldl_append, List.foldl_cons, List.foldl_nil]
      have hrest := Guarded.history hstep is (hist ++ [i]) (hstep hist i h hg.1) (by
        rw [hsnoc]
        exact hg.2)
      rwa [List.append_assoc] at hrest

/-- When a guarded step is exactly one after which `P` still holds of the run so
far, the guarded runs are exactly those all of whose prefixes have `P`. -/
theorem guarded_history_iff {next : σ → ι → σ} {ok : σ → ι → Prop} {I : σ → Prop}
    {P : List ι → Prop} {s : σ}
    (hok : ∀ hist i, I (hist.foldl next s) → P hist →
      (P (hist ++ [i]) ↔ ok (hist.foldl next s) i))
    (hinv : ∀ hist i, I (hist.foldl next s) → P hist → I (next (hist.foldl next s) i)) :
    ∀ (is hist : List ι), I (hist.foldl next s) → P hist →
    ((∀ pre post, is = pre ++ post → P (hist ++ pre)) ↔ Guarded next ok (hist.foldl next s) is)
  | [], hist, _, hP => by
      refine ⟨fun _ => trivial, fun _ pre post h => ?_⟩
      rw [(List.append_eq_nil_iff.mp h.symm).1, List.append_nil]
      exact hP
  | i :: is, hist, hI, hP => by
      have hsnoc : (hist ++ [i]).foldl next s = next (hist.foldl next s) i := by
        rw [List.foldl_append, List.foldl_cons, List.foldl_nil]
      have hnext : I ((hist ++ [i]).foldl next s) := by
        rw [hsnoc]
        exact hinv hist i hI hP
      have ih := guarded_history_iff hok hinv is (hist ++ [i]) hnext
      rw [hsnoc] at ih
      constructor
      · intro hall
        have hP' : P (hist ++ [i]) := hall [i] is rfl
        refine ⟨(hok hist i hI hP).mp hP', (ih hP').mp fun pre post h => ?_⟩
        rw [List.append_assoc]
        exact hall (i :: pre) post (by rw [h]; rfl)
      · rintro ⟨hi, his⟩ pre post h
        cases pre with
        | nil =>
            rw [List.append_nil]
            exact hP
        | cons j pre =>
            obtain ⟨rfl, hrest⟩ := List.cons.inj h
            have hP' := (ih ((hok hist i hI hP).mpr hi)).mpr his pre post hrest
            rwa [List.append_assoc] at hP'

/-- The same for a property of the state a run has reached. -/
theorem guarded_iff {next : σ → ι → σ} {ok : σ → ι → Prop} {I P : σ → Prop}
    (hok : ∀ s i, I s → P s → (P (next s i) ↔ ok s i))
    (hinv : ∀ s i, I s → P s → I (next s i)) (is : List ι) (s : σ) (hI : I s) (hP : P s) :
    (∀ pre post, is = pre ++ post → P (pre.foldl next s)) ↔ Guarded next ok s is := by
  refine guarded_history_iff (P := fun hist => P (hist.foldl next s)) ?_ ?_ is [] hI hP
  · intro hist i hI hP
    rw [List.foldl_append]
    exact hok _ i hI hP
  · intro hist i hI hP
    exact hinv _ i hI hP

/-- A relation that a guarded step preserves holds after every guarded run. -/
theorem foldl_simulates (next : σ → ι → σ) (next' : τ → ι → τ) {ok : σ → ι → Prop}
    (R : σ → τ → Prop) (hstep : ∀ s t i, R s t → ok s i → R (next s i) (next' t i)) :
    ∀ (is : List ι) (s : σ) (t : τ), R s t → Guarded next ok s is →
      R (is.foldl next s) (is.foldl next' t)
  | [], _, _, h, _ => h
  | i :: is, s, t, h, hg =>
      foldl_simulates next next' R hstep is (next s i) (next' t i) (hstep s t i h hg.1) hg.2

/-- Every step of the run is taken from a state in which `ok` holds of it. -/
def GuardedE (step : σ → ι → Except ε (σ × ω)) (ok : σ → ι → Prop) : σ → List ι → Prop
  | _, [] => True
  | s, i :: is => ok s i ∧ ∀ s' o, step s i = .ok (s', o) → GuardedE step ok s' is

instance GuardedE.decidable (step : σ → ι → Except ε (σ × ω)) (ok : σ → ι → Prop)
    [∀ s i, Decidable (ok s i)] : ∀ (s : σ) (is : List ι), Decidable (GuardedE step ok s is)
  | _, [] => .isTrue trivial
  | s, i :: is =>
      match h : step s i with
      | .error _ => decidable_of_iff (ok s i)
          ⟨fun hi => ⟨hi, fun _ _ hs => by rw [h] at hs; cases hs⟩, And.left⟩
      | .ok (s', o) =>
          have := GuardedE.decidable step ok s' is
          decidable_of_iff (ok s i ∧ GuardedE step ok s' is)
            ⟨fun hg => ⟨hg.1, fun _ _ hs => by rw [h] at hs; cases hs; exact hg.2⟩,
              fun hg => ⟨hg.1, hg.2 s' o h⟩⟩

/-- A guard that refuses no input, whatever the state. -/
theorem guardedE_of_forall {step : σ → ι → Except ε (σ × ω)} {ok : σ → ι → Prop} :
    ∀ {is : List ι} {s : σ}, (∀ i ∈ is, ∀ s, ok s i) → GuardedE step ok s is
  | [], _, _ => trivial
  | i :: _, s, h => ⟨h i List.mem_cons_self s, fun _ _ _ =>
      guardedE_of_forall fun j hj => h j (List.mem_cons_of_mem i hj)⟩

theorem GuardedE.imp {step : σ → ι → Except ε (σ × ω)} {ok ok' : σ → ι → Prop}
    (himp : ∀ s i, ok s i → ok' s i) : ∀ {is : List ι} {s : σ}, GuardedE step ok s is →
      GuardedE step ok' s is
  | [], _, _ => trivial
  | i :: _, s, h => ⟨himp s i h.1, fun s' o hs => (h.2 s' o hs).imp himp⟩

/-- What holds of every input is a guard, too. -/
theorem GuardedE.and_forall {step : σ → ι → Except ε (σ × ω)} {ok : σ → ι → Prop} {Q : ι → Prop} :
    ∀ {is : List ι} {s : σ}, GuardedE step ok s is → (∀ i ∈ is, Q i) →
      GuardedE step (fun s i => ok s i ∧ Q i) s is
  | [], _, _, _ => trivial
  | i :: _, _, h, hall =>
      ⟨⟨h.1, hall i List.mem_cons_self⟩, fun s' o hs =>
        (h.2 s' o hs).and_forall fun j hj => hall j (List.mem_cons_of_mem i hj)⟩

/-- The first step of a run, and the rest. -/
theorem traceE_cons_eq_ok {step : σ → ι → Except ε (σ × ω)} {s s' : σ} {i : ι} {is : List ι}
    {os : List ω} : traceE step s (i :: is) = .ok (s', os) ↔
      ∃ s₁ o os', step s i = .ok (s₁, o) ∧ traceE step s₁ is = .ok (s', os') ∧ os = o :: os' := by
  rw [traceE]
  cases hs : step s i with
  | error e => simp
  | ok r =>
      cases ht : traceE step r.1 is with
      | error e =>
          simp only [ok_bind, ht, error_bind, reduceCtorEq, false_iff, not_exists]
          rintro s₁ o os' ⟨h, htail, -⟩
          cases h
          rw [ht] at htail
          cases htail
      | ok rs =>
          simp only [ok_bind, ht, pure_eq_ok, Except.ok.injEq, Prod.mk.injEq]
          constructor
          · rintro ⟨rfl, rfl⟩
            exact ⟨r.1, r.2, rs.2, rfl, ht, rfl⟩
          · rintro ⟨s₁, o, os', rfl, htail, rfl⟩
            rw [ht] at htail
            cases htail
            exact ⟨rfl, rfl⟩

/-- A guarded run, and one behind it. -/
theorem GuardedE.append {step : σ → ι → Except ε (σ × ω)} {ok : σ → ι → Prop} :
    ∀ (is : List ι) {is' : List ι} {s : σ}, GuardedE step ok s is →
      (∀ s' os, traceE step s is = .ok (s', os) → GuardedE step ok s' is') →
      GuardedE step ok s (is ++ is')
  | [], _, s, _, h' => h' s [] rfl
  | _ :: is, _, _, h, h' => ⟨h.1, fun s₁ o h₁ => (h.2 s₁ o h₁).append is fun s' os hs =>
      h' s' (o :: os) (traceE_cons_eq_ok.mpr ⟨s₁, o, os, h₁, hs, rfl⟩)⟩

/-- The rest of a guarded run. -/
theorem GuardedE.drop {step : σ → ι → Except ε (σ × ω)} {ok : σ → ι → Prop} :
    ∀ (is : List ι) {is' : List ι} {s s' : σ} {os : List ω}, GuardedE step ok s (is ++ is') →
      traceE step s is = .ok (s', os) → GuardedE step ok s' is'
  | [], _, _, _, _, h, hs => by
      cases hs
      exact h
  | i :: is, _, _, _, _, h, hs => by
      obtain ⟨s₁, o, os', h₁, hrest, -⟩ := traceE_cons_eq_ok.mp hs
      exact (h.2 s₁ o h₁).drop is hrest

/-- The first part of a guarded run. -/
theorem GuardedE.take {step : σ → ι → Except ε (σ × ω)} {ok : σ → ι → Prop} :
    ∀ (is : List ι) {is' : List ι} {s : σ}, GuardedE step ok s (is ++ is') → GuardedE step ok s is
  | [], _, _, _ => trivial
  | _ :: is, _, _, h => ⟨h.1, fun s₁ o h₁ => (h.2 s₁ o h₁).take is⟩

/-- What each step keeps of the state, the outputs so far and the inputs still to
come, a run keeps. -/
theorem traceE_keeps {step : σ → ι → Except ε (σ × ω)} {P : List ι → σ → List ω → Prop}
    (hstep : ∀ i is s os s' o, P (i :: is) s os → step s i = .ok (s', o) → P is s' (os ++ [o])) :
    ∀ (is : List ι) {s s' : σ} {os os' : List ω}, P is s os → traceE step s is = .ok (s', os') →
      P [] s' (os ++ os')
  | [], _, _, _, _, h, hs => by
      cases hs
      rw [List.append_nil]
      exact h
  | i :: is, s, s', os, _, h, hs => by
      obtain ⟨s₁, o, os', h₁, h₂, rfl⟩ := traceE_cons_eq_ok.mp hs
      rw [← List.singleton_append, ← List.append_assoc]
      exact traceE_keeps hstep is (hstep i is s os s₁ o h h₁) h₂

/-- A run that fails does so at one of its steps. -/
theorem traceE_eq_error {step : σ → ι → Except ε (σ × ω)} {e : ε} :
    ∀ (is : List ι) {s : σ}, traceE step s is = .error e →
      ∃ pre i post s' os, is = pre ++ i :: post ∧ traceE step s pre = .ok (s', os) ∧
        step s' i = .error e
  | [], _, h => by cases h
  | i :: is, s, h => by
      rw [traceE, bind_eq_error] at h
      rcases h with h | ⟨⟨s₁, o⟩, h₁, h⟩
      · exact ⟨[], i, is, s, [], rfl, rfl, h⟩
      · rcases bind_eq_error.mp h with h | ⟨_, _, h⟩
        · obtain ⟨pre, j, post, s', os, rfl, hpre, he⟩ := traceE_eq_error is h
          exact ⟨i :: pre, j, post, s', o :: os, rfl,
            traceE_cons_eq_ok.mpr ⟨s₁, o, os, h₁, hpre, rfl⟩, he⟩
        · cases h

/-- When the allowed steps keep an invariant and the others do not lead to a
state with `P`, the runs all of whose prefixes end well are the allowed ones. -/
theorem guardedE_iff {step : σ → ι → Except ε (σ × ω)} {short ok : σ → ι → Prop} {I P : σ → Prop}
    (hIP : ∀ s, I s → P s)
    (hok : ∀ s i, I s → short s i → ok s i → ∃ s' o, step s i = .ok (s', o) ∧ I s')
    (hbad : ∀ s i, I s → short s i → ¬ ok s i → ∀ s' o, step s i = .ok (s', o) → ¬ P s') :
    ∀ (is : List ι) (s : σ), I s → GuardedE step short s is →
      ((∀ pre post, is = pre ++ post → ∃ s' os, traceE step s pre = .ok (s', os) ∧ P s') ↔
        GuardedE step ok s is)
  | [], s, hI, _ => by
      refine ⟨fun _ => trivial, fun _ pre post h => ?_⟩
      rw [(List.append_eq_nil_iff.mp h.symm).1]
      exact ⟨s, [], rfl, hIP s hI⟩
  | i :: is, s, hI, hshort => by
      by_cases hi : ok s i
      · obtain ⟨s₁, o, hs₁, hI₁⟩ := hok s i hI hshort.1 hi
        have ih := guardedE_iff hIP hok hbad is s₁ hI₁ (hshort.2 s₁ o hs₁)
        constructor
        · intro h
          refine ⟨hi, fun s' o' hs' => ?_⟩
          rw [hs₁] at hs'
          cases hs'
          refine ih.mp fun pre post his => ?_
          obtain ⟨s₂, os, htrace, hP⟩ := h (i :: pre) post (by rw [his]; rfl)
          obtain ⟨_, _, os', hstep, htail, -⟩ := traceE_cons_eq_ok.mp htrace
          rw [hs₁] at hstep
          cases hstep
          exact ⟨s₂, os', htail, hP⟩
        · rintro ⟨-, hrest⟩ pre post h
          cases pre with
          | nil => exact ⟨s, [], rfl, hIP s hI⟩
          | cons j pre =>
              obtain ⟨rfl, his⟩ := List.cons.inj h
              obtain ⟨s₂, os, htail, hP⟩ := ih.mpr (hrest s₁ o hs₁) pre post his
              exact ⟨s₂, o :: os, traceE_cons_eq_ok.mpr ⟨s₁, o, os, hs₁, htail, rfl⟩, hP⟩
      · constructor
        · intro h
          obtain ⟨s₂, os, htrace, hP⟩ := h [i] is rfl
          obtain ⟨s₁, o, os', hstep, htail, -⟩ := traceE_cons_eq_ok.mp htrace
          cases htail
          exact absurd hP (hbad s i hI hshort.1 hi _ o hstep)
        · exact fun h => absurd h.1 hi

/-- What the steps of a fallible machine keep, related to those of another one. -/
theorem traceE_reaches {step : σ → ι → Except ε (σ × ω)} {next : τ → ι → τ} {R : σ → τ → Prop}
    (hstep : ∀ s t i s' o, R s t → step s i = .ok (s', o) → R s' (next t i)) :
    ∀ (is : List ι) (s s' : σ) (t : τ) (os : List ω), R s t → traceE step s is = .ok (s', os) →
      R s' (is.foldl next t)
  | [], _, _, _, _, h, hs => by
      cases hs
      exact h
  | i :: is, s, s', t, os, h, hs => by
      obtain ⟨s₁, o, os', hs₁, hrest, -⟩ := traceE_cons_eq_ok.mp hs
      exact traceE_reaches hstep is s₁ s' (next t i) os' (hstep s t i s₁ o h hs₁) hrest

/-- When a step fails exactly where the related machine forbids it, the runs
that do not fail are those it allows. -/
theorem traceE_ok_iff {step : σ → ι → Except ε (σ × ω)} {next : τ → ι → τ} {ok : τ → ι → Prop}
    {R : σ → τ → Prop} (hok : ∀ s t i, R s t → ((∃ s' o, step s i = .ok (s', o)) ↔ ok t i))
    (hstep : ∀ s t i s' o, R s t → step s i = .ok (s', o) → R s' (next t i)) :
    ∀ (is : List ι) (s : σ) (t : τ), R s t →
      ((∃ s' os, traceE step s is = .ok (s', os)) ↔ Guarded next ok t is)
  | [], s, _, _ => ⟨fun _ => trivial, fun _ => ⟨s, [], rfl⟩⟩
  | i :: is, s, t, h => by
      constructor
      · rintro ⟨s', os, hs⟩
        obtain ⟨s₁, o, os', hs₁, hrest, -⟩ := traceE_cons_eq_ok.mp hs
        refine ⟨(hok s t i h).mp ⟨s₁, o, hs₁⟩, ?_⟩
        exact (traceE_ok_iff hok hstep is s₁ _ (hstep s t i s₁ o h hs₁)).mp ⟨s', os', hrest⟩
      · rintro ⟨hi, his⟩
        obtain ⟨s₁, o, hs₁⟩ := (hok s t i h).mpr hi
        obtain ⟨s', os', hrest⟩ :=
          (traceE_ok_iff hok hstep is s₁ _ (hstep s t i s₁ o h hs₁)).mpr his
        exact ⟨s', o :: os', traceE_cons_eq_ok.mpr ⟨s₁, o, os', hs₁, hrest, rfl⟩⟩

/-- A fallible machine that simulates a total one does not fail in a guarded
run, and gives the total machine's outputs. -/
theorem traceE_simulates {step : σ → ι → Except ε (σ × ω)} {step' : τ → ι → τ × ω}
    {ok : σ → ι → Prop} (R : σ → τ → Prop)
    (hstep : ∀ s t i, R s t → ok s i →
      ∃ s', step s i = .ok (s', (step' t i).2) ∧ R s' (step' t i).1) :
    ∀ (is : List ι) (s : σ) (t : τ), R s t → GuardedE step ok s is →
      ∃ s', traceE step s is = .ok (s', (trace step' t is).2) ∧ R s' (trace step' t is).1
  | [], s, _, h, _ => ⟨s, rfl, h⟩
  | i :: is, s, t, h, hg => by
      obtain ⟨s₁, hs₁, hr₁⟩ := hstep s t i h hg.1
      obtain ⟨s₂, hs₂, hr₂⟩ := traceE_simulates R hstep is s₁ _ hr₁ (hg.2 _ _ hs₁)
      refine ⟨s₂, ?_, hr₂⟩
      simp only [trace_cons, traceE, hs₁, ok_bind, hs₂, pure_eq_ok]

/-- Two fallible machines that fail together, or both step with equal outputs,
give the same outputs, or the same failure, in every run guarded in the first. -/
theorem traceE_bisimulates {step : σ → ι → Except ε (σ × ω)} {step' : τ → ι → Except ε (τ × ω)}
    {ok : σ → ι → Prop} (R : σ → τ → Prop)
    (hstep : ∀ s t i, R s t → ok s i →
      (∃ e, step s i = .error e ∧ step' t i = .error e) ∨
      ∃ s' t' o, step s i = .ok (s', o) ∧ step' t i = .ok (t', o) ∧ R s' t') :
    ∀ (is : List ι) (s : σ) (t : τ), R s t → GuardedE step ok s is →
      (traceE step' t is).map Prod.snd = (traceE step s is).map Prod.snd
  | [], _, _, _, _ => rfl
  | i :: is, s, t, h, hg => by
      rcases hstep s t i h hg.1 with ⟨e, hs, ht⟩ | ⟨s', t', o, hs, ht, hr⟩
      · simp only [traceE, hs, ht, error_bind]
        rfl
      · have ih := traceE_bisimulates R hstep is s' t' hr (hg.2 _ _ hs)
        simp only [traceE, hs, ht, ok_bind]
        cases hs' : traceE step s' is with
        | error e =>
            cases ht' : traceE step' t' is with
            | error e' =>
                rw [hs', ht'] at ih
                exact ih
            | ok r =>
                rw [hs', ht'] at ih
                cases ih
        | ok r =>
            cases ht' : traceE step' t' is with
            | error e' =>
                rw [hs', ht'] at ih
                cases ih
            | ok r' =>
                rw [hs', ht'] at ih
                have hout : r'.2 = r.2 := Except.ok.inj ih
                simp only [ok_bind, pure_eq_ok, Except.map, hout]

end LiteKV.Lib.Run
