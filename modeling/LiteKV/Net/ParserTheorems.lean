/-
LiteKV.Net.ParserTheorems — what the parser makes of arbitrary bytes.

`attempt` is `TryParseFromBuffer` with a cleared cache, read off the readable
bytes alone: a request and the bytes it takes, a malformed beginning, or one
that waits for more. `tryParse_attempt` ties it to the parser; what follows is
about byte strings only.

Each outcome is stable in its own way when more bytes arrive. A number with
its line end, and an argument, stay what they are. A beginning that is
malformed behind a `*` stays malformed in front of the next request, and
since the parser only discards bytes that do not start with `*`, such a
session never recovers. A beginning that waits need not have a continuation:
`missing` counts the bytes that are still to come, and finds none for a
negative count or length and for a stray byte where a line should end.
-/
import LiteKV.Net.ProtocolTheorems
import LiteKV.ScanTheorems

namespace LiteKV

open CommandCache Command Lib

/-! ## Encoding undone -/

/-- An attempt on a whole request takes exactly that request, whatever follows
it. -/
theorem parse_undoes_encode (c : Command) (b : Buffer) (tail : Bytes)
    (h : b.readable = c.encode ++ tail) :
    let out := ParseState.tryParseFromBuffer ⟨b, .clear, false⟩
    out.2 = true ∧ out.1.err = false ∧ out.1.cache.argc = c.argv.length ∧
      out.1.cache.argv = c.argv ∧ out.1.buffer.readable = tail := by
  intro out
  have hout : out = (⟨b.readerIdxForward c.encode.length, ofArgv c.argv, false⟩, true) :=
    @tryParse_full c ⟨b, .clear, false⟩ tail h rfl
  rw [hout]
  refine ⟨rfl, rfl, rfl, rfl, ?_⟩
  rw [Buffer.readable_forward, h, List.drop_left]

/-- A request of one argument that is itself a line end, in front of two more
bytes. -/
theorem parse_undoes_encode_lineEnd :
    let c : Command := ⟨[crlf], by decide, by decide, by decide⟩
    (Buffer.new.append (c.encode ++ ascii "*1")).readable = c.encode ++ ascii "*1" ∧
      (ParseState.tryParseFromBuffer
        ⟨Buffer.new.append (c.encode ++ ascii "*1"), .clear, false⟩).1.buffer.readable
          = ascii "*1" := by
  intro c
  have h : (Buffer.new.append (c.encode ++ ascii "*1")).readable = c.encode ++ ascii "*1" := by
    rw [Buffer.readable_append]
    rfl
  exact ⟨h, (parse_undoes_encode c _ _ h).2.2.2.2⟩

/-! ## An attempt, on the readable bytes -/

/-- A number and its line end: the number and the bytes they take, or whether
giving up sets `err`. -/
def numLine (s : Bytes) : Except Bool (Int × Nat) :=
  let num := strtoll s
  if num.2 = 0 then .error true
  else
    let rest := s.drop num.2
    if rest.take 2 ≠ crlf then .error (rest.length ≥ 2) else .ok (num.1, num.2 + 2)

/-- The outcome of an attempt. -/
inductive Attempt where
  | request (args : List Bytes) (used : Nat)
  | malformed
  | waits
  deriving DecidableEq

/-- The loop over the arguments. -/
def attemptItems : Nat → Bytes → Attempt
  | 0, _ => .request [] 0
  | n + 1, s =>
      if s = [] then .waits
      else
        match scanArg s with
        | .error true => .malformed
        | .error false => .waits
        | .ok (arg, used) =>
            match attemptItems n (s.drop used) with
            | .request args more => .request (arg :: args) (used + more)
            | other => other

/-- `TryParseFromBuffer` with a cleared cache. -/
def attempt (r : Bytes) : Attempt :=
  if r = [] then .waits
  else if r.head? ≠ some 42 then .malformed
  else
    match numLine (r.drop 1) with
    | .error true => .malformed
    | .error false => .waits
    | .ok (n, used) =>
        if n < 0 then .waits
        else
          match attemptItems n.toNat (r.drop (1 + used)) with
          | .request args more => .request args (1 + used + more)
          | other => other

/-- What the loop leaves behind in each case. -/
def ItemsOutcome (st : ParseState) (idx : Nat) (out : ParseState × Option Nat) : Attempt → Prop
  | .request args used =>
      out
        = ({ st with cache := { st.cache with argv := st.cache.argv ++ args } }, some (idx + used))
  | .malformed => out = (st.giveUp true, none)
  | .waits => ∃ cache, out = ({ st with cache := cache }, none)

/-- The loop of the parser is `attemptItems`. -/
theorem parseArgs_attempt (n : Nat) : ∀ (st : ParseState) (idx : Nat) {s : Bytes},
    st.buffer.readable.drop idx = s →
    ItemsOutcome st idx (ParseState.parseArgs n idx st) (attemptItems n s) := by
  induction n with
  | zero =>
      intro st idx s h
      simp [attemptItems, ItemsOutcome, ParseState.parseArgs]
  | succ n ih =>
      intro st idx s h
      rw [attemptItems]
      by_cases hs : s = []
      · rw [if_pos hs]
        have hge : idx ≥ st.buffer.readable.length := (at_end_iff h).mpr hs
        exact ⟨st.cache, by rw [ParseState.parseArgs, if_pos hge]⟩
      · rw [if_neg hs, parseArgs_succ h hs n]
        cases hscan : scanArg s with
        | error bad =>
            cases bad with
            | true => rfl
            | false => exact ⟨.clear, by simp [ParseState.giveUp]⟩
        | ok x =>
            obtain ⟨arg, used⟩ := x
            have hih := ih { st with cache := { st.cache with argv := st.cache.argv ++ [arg] } }
              (idx + used) (drop_more h used)
            dsimp only
            cases hrest : attemptItems n (s.drop used) with
            | request args more =>
                rw [hrest] at hih
                simpa [ItemsOutcome, Nat.add_assoc] using hih
            | malformed =>
                rw [hrest] at hih
                exact hih
            | waits =>
                rw [hrest] at hih
                exact hih

/-- What an attempt with a cleared cache leaves behind in each case. -/
def Outcome (b : Buffer) (out : ParseState × Bool) : Attempt → Prop
  | .request args used => out = (⟨b.readerIdxForward used, ofArgv args, false⟩, true)
  | .malformed => out = (⟨if b.readable.head? = some 42 then b else b.reset, .clear, true⟩, false)
  | .waits => ∃ cache, out = (⟨b, cache, false⟩, false)

/-- The first argument of a request, and the rest. -/
theorem attemptItems_request {n : Nat} {s : Bytes} {args : List Bytes} {used : Nat}
    (h : attemptItems (n + 1) s = .request args used) :
    ∃ arg u as more, scanArg s = .ok (arg, u) ∧ attemptItems n (s.drop u) = .request as more ∧
      args = arg :: as ∧ used = u + more := by
  rw [attemptItems] at h
  by_cases hs : s = []
  · simp [hs] at h
  · rw [if_neg hs] at h
    cases hscan : scanArg s with
    | error bad => cases bad <;> simp [hscan] at h
    | ok x =>
        obtain ⟨arg, u⟩ := x
        cases hrest : attemptItems n (s.drop u) with
        | request as more =>
            simp only [hscan, hrest, Attempt.request.injEq] at h
            exact ⟨arg, u, as, more, rfl, hrest, h.1.symm, h.2.symm⟩
        | malformed => simp [hscan, hrest] at h
        | waits => simp [hscan, hrest] at h

theorem attemptItems_length (n : Nat) : ∀ {s : Bytes} {args : List Bytes} {used : Nat},
    attemptItems n s = .request args used → args.length = n := by
  induction n with
  | zero =>
      intro s args used h
      cases h
      rfl
  | succ n ih =>
      intro s args used h
      obtain ⟨arg, u, as, more, -, hrest, rfl, -⟩ := attemptItems_request h
      rw [List.length_cons, ih hrest]

theorem strtoll_fits (s : Bytes) : -2 ^ 63 ≤ (strtoll s).1 ∧ (strtoll s).1 < 2 ^ 63 := by
  by_cases h : (strtoll s).2 = 0
  · have hs : strtoll s = (0, 0) := by
      unfold strtoll at h ⊢
      cases hn : scanInteger s with
      | none => rfl
      | some x =>
          obtain ⟨neg, m, used⟩ := x
          obtain ⟨sp, sg, ds, rest, hscan, -, hused⟩ := exists_scans hn
          have := List.length_pos_iff.mpr hscan.nonempty
          simp only [hn] at h
          omega
    rw [hs]
    decide
  · obtain ⟨sp, sg, ds, rest, neg, -, heq⟩ := strtoll_scans h
    rw [heq, clamped]
    omega

/-- `attempt` is the parser on a cleared cache. -/
theorem tryParse_attempt (b : Buffer) :
    Outcome b (ParseState.tryParseFromBuffer ⟨b, .clear, false⟩) (attempt b.readable) := by
  unfold attempt ParseState.tryParseFromBuffer
  by_cases hnil : b.readable = []
  · rw [if_pos hnil, if_pos (by simp [hnil])]
    exact ⟨.clear, rfl⟩
  have hpos : 0 < b.readable.length := List.length_pos_iff.mpr hnil
  obtain ⟨x, xs, hr⟩ := List.exists_cons_of_ne_nil hnil
  rw [if_neg hnil, if_neg (Nat.not_le.mpr hpos)]
  have hstar : b.readStdString 1 = [42] ↔ b.readable.head? = some 42 := by
    rw [Buffer.readStdString, if_neg (by omega), hr]
    simp
  by_cases h42 : b.readable.head? = some 42
  · rw [if_neg (not_not_intro (hstar.mpr h42)), if_neg (not_not_intro h42)]
    have h1 : b.readable.drop 1 = b.readable.drop 1 := rfl
    have hfits := strtoll_fits (b.readable.drop 1)
    unfold numLine
    simp only [readLongFrom_eq h1]
    generalize strtoll (b.readable.drop 1) = num at hfits
    have h2 : b.readable.drop (1 + num.2) = (b.readable.drop 1).drop num.2 := by rw [List.drop_drop]
    by_cases hz : num.2 = 0
    · rw [if_pos hz, if_pos hz]
      simp [Outcome, ParseState.giveUp, h42, hpos]
    · rw [if_neg hz, if_neg hz]
      simp only [noCrlf_eq h2, ahead_eq h2, decide_eq_true_eq]
      by_cases hc : ((b.readable.drop 1).drop num.2).take 2 = crlf
      · rw [if_neg (not_not_intro hc), if_neg (not_not_intro hc)]
        dsimp only
        by_cases hneg : num.1 < 0
        · have hzero : num.1.toNat = 0 := by omega
          have hargc : ParseState.toSizeT num.1 ≠ 0 := by
            rw [ParseState.toSizeT]
            omega
          rw [if_pos hneg, hzero, ParseState.parseArgs, ParseState.finish]
          exact ⟨.clear, by simp [clear, hargc]⟩
        · have hargc : ParseState.toSizeT num.1 = num.1.toNat := by
            rw [ParseState.toSizeT]
            omega
          have hloop := parseArgs_attempt num.1.toNat
            ⟨b, { clear with argc := ParseState.toSizeT num.1 }, false⟩ (1 + num.2 + 2) rfl
          rw [if_neg hneg]
          dsimp only at hloop
          rw [show 1 + (num.2 + 2) = 1 + num.2 + 2 by omega]
          cases hrest : attemptItems num.1.toNat (b.readable.drop (1 + num.2 + 2)) with
          | request args more =>
              rw [hrest, ItemsOutcome] at hloop
              rw [hloop]
              have hlen := attemptItems_length _ hrest
              simp [Outcome, ParseState.finish, clear, hargc, hlen, ofArgv]
          | malformed =>
              rw [hrest, ItemsOutcome] at hloop
              rw [hloop]
              simp [Outcome, ParseState.finish, ParseState.giveUp, h42]
          | waits =>
              rw [hrest] at hloop
              obtain ⟨cache, hcache⟩ := hloop
              rw [hcache]
              exact ⟨cache, rfl⟩
      · rw [if_pos hc, if_pos hc]
        by_cases hl : ((b.readable.drop 1).drop num.2).length ≥ 2
        · rw [decide_eq_true hl]
          simp [Outcome, ParseState.giveUp, h42]
        · rw [decide_eq_false hl]
          exact ⟨.clear, by simp [ParseState.giveUp]⟩
  · rw [if_pos (fun h => h42 (hstar.mp h)), if_pos h42]
    simp [Outcome, h42]
    omega

/-! ## More bytes -/

/-- The bytes of an argument of length `n`, `used` bytes behind its `$`, and its
line end. -/
def takeArg (n : Int) (used : Nat) (s : Bytes) : Except Bool (Bytes × Nat) :=
  let argLen := ParseState.toSizeT n
  if s.length < argLen then .error false
  else if (s.drop argLen).take 2 ≠ crlf then .error ((s.drop argLen).length ≥ 2)
  else .ok (s.take argLen, used + argLen + 2)

/-- A turn of the loop in two parts. -/
theorem scanArg_eq (s : Bytes) : scanArg s =
    if s.head? ≠ some 36 then .error true
    else if s.drop 1 = [] then .error false
    else (numLine (s.drop 1)).bind fun x => takeArg x.1 (1 + x.2) ((s.drop 1).drop x.2) := by
  unfold scanArg numLine
  by_cases h36 : s.head? = some 36
  · rw [if_neg (not_not_intro h36), if_neg (not_not_intro h36)]
    by_cases hnil : s.drop 1 = []
    · rw [if_pos hnil, hnil]
      simp [strtoll_nil]
    · rw [if_neg hnil]
      dsimp only
      generalize strtoll (s.drop 1) = num
      by_cases hz : num.2 = 0
      · rw [if_pos hz, if_pos hz, decide_eq_true (List.length_pos_iff.mpr hnil)]
        rfl
      · rw [if_neg hz, if_neg hz]
        by_cases hc : ((s.drop 1).drop num.2).take 2 = crlf
        · rw [if_neg (not_not_intro hc), if_neg (not_not_intro hc), Except.bind, takeArg]
          dsimp only
          rw [List.drop_drop]
          generalize ParseState.toSizeT num.1 = argLen
          by_cases hl : ((s.drop 1).drop (num.2 + 2)).length < argLen
          · rw [if_pos (by rw [List.length_take]; omega), if_pos hl, decide_eq_false (by omega)]
          · rw [if_neg (by rw [List.length_take]; omega), if_neg hl, Nat.add_assoc 1]
        · rw [if_pos hc, if_pos hc]
          rfl
  · rw [if_pos h36, if_pos h36]

theorem take_two_append {s : Bytes} (h : 2 ≤ s.length) (t : Bytes) : (s ++ t).take 2 = s.take 2 :=
  List.take_append_of_le_length h

theorem two_le_of_crlf {s : Bytes} (h : s.take 2 = crlf) : 2 ≤ s.length := by
  by_contra hl
  exact take_two_ne_crlf (by omega) h

/-- A line that is read stays what it is. -/
theorem numLine_append {s : Bytes} {x : Int × Nat} (h : numLine s = .ok x) (t : Bytes) :
    numLine (s ++ t) = .ok x ∧ 3 ≤ x.2 ∧ x.2 ≤ s.length := by
  unfold numLine at h
  dsimp only at h
  by_cases hz : (strtoll s).2 = 0
  · simp [hz] at h
  · rw [if_neg hz] at h
    by_cases hc : (s.drop (strtoll s).2).take 2 = crlf
    · rw [if_neg (not_not_intro hc)] at h
      have hlen := two_le_of_crlf hc
      have hused := strtoll_used_le s
      cases h
      rw [List.length_drop] at hlen
      refine ⟨?_, by omega, by omega⟩
      have hnum : strtoll (s ++ t) = strtoll s := strtoll_append hz (.inl (by omega))
      unfold numLine
      dsimp only
      rw [hnum, if_neg hz, List.drop_append_of_le_length hused,
        take_two_append (by rw [List.length_drop]; omega), if_neg (not_not_intro hc)]
    · simp [hc] at h

/-- A malformed line stays malformed in front of a `*`. -/
theorem numLine_star {s : Bytes} (h : numLine s = .error true) (t : Bytes) :
    numLine (s ++ 42 :: t) = .error true := by
  unfold numLine at h ⊢
  dsimp only at h ⊢
  by_cases hz : (strtoll s).2 = 0
  · rw [if_pos (strtoll_append_star hz t)]
  · rw [if_neg hz] at h
    by_cases hc : (s.drop (strtoll s).2).take 2 = crlf
    · simp [hc] at h
    · rw [if_pos hc, Except.error.injEq, decide_eq_true_eq] at h
      have hused := strtoll_used_le s
      have hlen := List.length_drop (i := (strtoll s).2) (l := s)
      have hnum : strtoll (s ++ 42 :: t) = strtoll s := strtoll_append hz (.inl (by omega))
      rw [hnum, if_neg hz, List.drop_append_of_le_length hused, take_two_append h, if_pos hc,
        decide_eq_true (by rw [List.length_append]; omega)]

theorem takeArg_append {n : Int} {used : Nat} {s : Bytes} {x : Bytes × Nat}
    (h : takeArg n used s = .ok x) (t : Bytes) :
    takeArg n used (s ++ t) = .ok x ∧ used + 2 ≤ x.2 ∧ x.2 ≤ used + s.length := by
  unfold takeArg at h ⊢
  dsimp only at h ⊢
  generalize ParseState.toSizeT n = argLen at h ⊢
  by_cases hl : s.length < argLen
  · simp [hl] at h
  · rw [if_neg hl] at h
    by_cases hc : (s.drop argLen).take 2 = crlf
    · rw [if_neg (not_not_intro hc)] at h
      have hlen := two_le_of_crlf hc
      cases h
      have hdrop := List.length_drop (i := argLen) (l := s)
      refine ⟨?_, by omega, by omega⟩
      rw [if_neg (by rw [List.length_append]; omega), List.drop_append_of_le_length (by omega),
        take_two_append hlen, if_neg (not_not_intro hc), List.take_append_of_le_length (by omega)]
    · simp [hc] at h

theorem takeArg_malformed {n : Int} {used : Nat} {s : Bytes} (h : takeArg n used s = .error true)
    (t : Bytes) : takeArg n used (s ++ t) = .error true := by
  unfold takeArg at h ⊢
  dsimp only at h ⊢
  generalize ParseState.toSizeT n = argLen at h ⊢
  by_cases hl : s.length < argLen
  · simp [hl] at h
  · rw [if_neg hl] at h
    by_cases hc : (s.drop argLen).take 2 = crlf
    · simp [hc] at h
    · rw [if_pos hc, Except.error.injEq, decide_eq_true_eq] at h
      rw [if_neg (by rw [List.length_append]; omega), List.drop_append_of_le_length (by omega),
        take_two_append h, if_pos hc, decide_eq_true (by rw [List.length_append]; omega)]

/-- An argument that is read: its `$`, its length line, and the bytes behind it. -/
theorem scanArg_ok {s : Bytes} {arg : Bytes} {used : Nat} (h : scanArg s = .ok (arg, used)) :
    s.head? = some 36 ∧ ∃ x, numLine (s.drop 1) = .ok x ∧
      takeArg x.1 (1 + x.2) ((s.drop 1).drop x.2) = .ok (arg, used) := by
  rw [scanArg_eq] at h
  by_cases h36 : s.head? = some 36
  · rw [if_neg (not_not_intro h36)] at h
    by_cases hnil : s.drop 1 = []
    · simp [hnil] at h
    · rw [if_neg hnil] at h
      cases hline : numLine (s.drop 1) with
      | error bad =>
          rw [hline] at h
          cases h
      | ok x =>
          rw [hline] at h
          exact ⟨h36, x, rfl, h⟩
  · simp [h36] at h

theorem scanArg_append {s : Bytes} {arg : Bytes} {used : Nat} (h : scanArg s = .ok (arg, used))
    (t : Bytes) : scanArg (s ++ t) = .ok (arg, used) ∧ 6 ≤ used ∧ used ≤ s.length := by
  obtain ⟨h36, x, hline, htake⟩ := scanArg_ok h
  obtain ⟨b, s, rfl⟩ : ∃ b s', s = b :: s' := by
    cases s with
    | nil => cases h36
    | cons b s => exact ⟨b, s, rfl⟩
  cases h36
  rw [List.drop_succ_cons, List.drop_zero] at hline htake
  obtain ⟨hline', hx, hxl⟩ := numLine_append hline t
  obtain ⟨htake', hul, huu⟩ := takeArg_append htake t
  rw [List.length_drop] at huu
  refine ⟨?_, by omega, by rw [List.length_cons]; omega⟩
  have hne : s ++ t ≠ [] := by
    intro hnil
    have := congrArg List.length hnil
    simp only [List.length_append, List.length_nil] at this
    omega
  rw [scanArg_eq, List.cons_append, List.head?_cons, if_neg (not_not_intro rfl),
    List.drop_succ_cons, List.drop_zero, if_neg hne, hline']
  change takeArg x.1 (1 + x.2) ((s ++ t).drop x.2) = _
  rw [List.drop_append_of_le_length hxl, htake']

theorem scanArg_star {s : Bytes} (hs : s ≠ []) (h : scanArg s = .error true) (t : Bytes) :
    scanArg (s ++ 42 :: t) = .error true := by
  obtain ⟨b, s, rfl⟩ := List.exists_cons_of_ne_nil hs
  rw [scanArg_eq] at h ⊢
  rw [List.cons_append]
  by_cases h36 : b = 36
  · subst h36
    rw [List.head?_cons, if_neg (not_not_intro rfl), List.drop_succ_cons, List.drop_zero] at h ⊢
    by_cases hnil : s = []
    · simp [hnil] at h
    · rw [if_neg hnil] at h
      rw [if_neg (by simp)]
      cases hline : numLine s with
      | error bad =>
          rw [hline] at h
          cases h
          rw [numLine_star hline t]
          rfl
      | ok x =>
          obtain ⟨hline', -, hxl⟩ := numLine_append hline (42 :: t)
          rw [hline] at h
          rw [hline']
          change takeArg x.1 (1 + x.2) ((s ++ 42 :: t).drop x.2) = _
          rw [List.drop_append_of_le_length hxl]
          exact takeArg_malformed h (42 :: t)
  · rw [if_pos (by simpa using h36)]

/-- Malformed arguments stay malformed in front of a `*`. -/
theorem attemptItems_star (n : Nat) : ∀ {s : Bytes}, attemptItems n s = .malformed →
    ∀ t, attemptItems n (s ++ 42 :: t) = .malformed := by
  induction n with
  | zero =>
      intro s h
      cases h
  | succ n ih =>
      intro s h t
      rw [attemptItems] at h ⊢
      by_cases hs : s = []
      · simp [hs] at h
      · rw [if_neg hs] at h
        rw [if_neg (by simp)]
        cases hscan : scanArg s with
        | error bad =>
            cases bad with
            | true => rw [scanArg_star hs hscan t]
            | false => simp [hscan] at h
        | ok x =>
            obtain ⟨arg, used⟩ := x
            obtain ⟨hscan', -, hused⟩ := scanArg_append hscan (42 :: t)
            rw [hscan] at h
            rw [hscan']
            dsimp only at h ⊢
            have hrest : attemptItems n (s.drop used) = .malformed := by
              cases hr : attemptItems n (s.drop used) with
              | request args more => simp [hr] at h
              | malformed => rfl
              | waits => simp [hr] at h
            rw [List.drop_append_of_le_length hused, ih hrest t]

/-- A malformed beginning behind a `*` stays malformed in front of the next
request. -/
theorem attempt_star {r : Bytes} (h42 : r.head? = some 42) (h : attempt r = .malformed)
    (t : Bytes) :
    attempt (r ++ 42 :: t) = .malformed := by
  obtain ⟨b, s, rfl⟩ : ∃ b s', r = b :: s' := by
    cases r with
    | nil => cases h42
    | cons b s => exact ⟨b, s, rfl⟩
  cases h42
  unfold attempt at h ⊢
  rw [List.cons_append]
  rw [if_neg (by simp), List.head?_cons, if_neg (not_not_intro rfl), List.drop_succ_cons,
    List.drop_zero] at h ⊢
  cases hline : numLine s with
  | error bad =>
      cases bad with
      | true => rw [numLine_star hline t]
      | false => simp [hline] at h
  | ok x =>
      obtain ⟨n, used⟩ := x
      obtain ⟨hline', -, hused⟩ := numLine_append hline (42 :: t)
      rw [hline] at h
      rw [hline']
      dsimp only at h ⊢
      by_cases hneg : n < 0
      · simp [hneg] at h
      · rw [if_neg hneg] at h ⊢
        rw [Nat.add_comm 1 used, List.drop_succ_cons] at h ⊢
        have hrest : attemptItems n.toNat (s.drop used) = .malformed := by
          cases hr : attemptItems n.toNat (s.drop used) with
          | request args more => simp [hr] at h
          | malformed => rfl
          | waits => simp [hr] at h
        rw [List.drop_append_of_le_length hused, attemptItems_star _ hrest t]

/-! ## After a malformed request -/

/-- The read reports one error and dispatches nothing, and every request that
comes in a read of its own afterwards is dispatched without an error. -/
def Recovers (s : ReadState) (chunk : Bytes) : Prop :=
  (readProc s chunk).2 = ([], true) ∧
  ∀ cmds : List Command,
    (Run.trace readProc (readProc s chunk).1 (cmds.map encode)).2
      = cmds.map fun c => ([ofArgv c.argv], false)

/-- Nothing is left of the read. -/
def Discards (s : ReadState) (chunk : Bytes) : Prop :=
  (readProc s chunk).1.buffer.readable = [] ∧ (readProc s chunk).1.cache = .clear

/-- A read that starts with a malformed request. -/
theorem readProc_malformed {s : ReadState} (hcache : s.cache = .clear) {chunk : Bytes}
    (h : attempt (s.buffer.readable ++ chunk) = .malformed) :
    (readProc s chunk).2 = ([], true) ∧ (readProc s chunk).1.cache = .clear ∧
      (readProc s chunk).1.buffer.readable
        = if (s.buffer.readable ++ chunk).head? = some 42 then s.buffer.readable ++ chunk
          else [] := by
  have hout := tryParse_attempt (s.buffer.append chunk)
  rw [Buffer.readable_append, h, Outcome, Buffer.readable_append] at hout
  have hloop : ∀ fuel, parseLoop (fuel + 1) ⟨s.buffer.append chunk, .clear, false⟩
      = ([], ⟨if (s.buffer.readable ++ chunk).head? = some 42 then s.buffer.append chunk
          else (s.buffer.append chunk).reset, .clear, true⟩) := by
    intro fuel
    rw [parseLoop, hout]
    rfl
  simp only [readProc, hcache, hloop, true_and]
  split
  · exact Buffer.readable_append _ _
  · exact Buffer.readable_reset _

/-- A clean session takes a request that comes in a read of its own. -/
theorem readProc_request {s : ReadState} (hcache : s.cache = .clear) (hbuf : s.buffer.readable = [])
    (c : Command) :
    (readProc s c.encode).2 = ([ofArgv c.argv], false) ∧
      (readProc s c.encode).1.cache = .clear ∧ (readProc s c.encode).1.buffer.readable = [] := by
  have hread : (s.buffer.append c.encode).readable = c.encode ++ [] := by
    rw [Buffer.readable_append, hbuf, List.append_nil, List.nil_append]
  have hfull := @tryParse_full c ⟨s.buffer.append c.encode, .clear, false⟩ [] hread rfl
  have hempty : ((s.buffer.append c.encode).readerIdxForward c.encode.length).readable = [] := by
    rw [Buffer.readable_forward, hread, List.drop_left]
  have hloop : ∀ fuel, parseLoop (fuel + 2) ⟨s.buffer.append c.encode, .clear, false⟩
      = ([ofArgv c.argv],
          ⟨(s.buffer.append c.encode).readerIdxForward c.encode.length, .clear, false⟩) := by
    intro fuel
    rw [parseLoop, hfull]
    dsimp only
    rw [parseLoop, tryParse_empty hempty]
    rfl
  obtain ⟨fuel, hfuel⟩ : ∃ fuel, (s.buffer.append c.encode).readable.length + 1 = fuel + 2 := by
    have hpos := encode_pos c
    rw [hread, List.append_nil]
    exact ⟨c.encode.length - 1, by omega⟩
  simp only [readProc, hcache, hfuel, hloop, hempty, and_self]

/-- An error is a malformed beginning. -/
theorem attempt_of_err {b : Buffer}
    (herr : (ParseState.tryParseFromBuffer ⟨b, .clear, false⟩).1.err = true) :
    attempt b.readable = .malformed := by
  have hout := tryParse_attempt b
  cases ha : attempt b.readable with
  | malformed => rfl
  | request args used =>
      rw [ha, Outcome] at hout
      rw [hout] at herr
      cases herr
  | waits =>
      rw [ha] at hout
      obtain ⟨cache, hout⟩ := hout
      rw [hout] at herr
      cases herr

/-- A clean session answers the requests that come one to a read. -/
theorem trace_requests (cmds : List Command) : ∀ {s : ReadState}, s.cache = .clear →
    s.buffer.readable = [] →
    (Run.trace readProc s (cmds.map encode)).2 = cmds.map fun c => ([ofArgv c.argv], false) := by
  induction cmds with
  | nil =>
      intro s _ _
      rfl
  | cons c cmds ih =>
      intro s hcache hbuf
      obtain ⟨h1, h2, h3⟩ := readProc_request hcache hbuf c
      rw [List.map_cons, List.map_cons, Run.trace_cons, h1, ih h2 h3]

/-- **Recovery after a malformed request** is for the bytes that do not start
with a `*`: only those are discarded. -/
theorem recovers_iff {s : ReadState} (hcache : s.cache = .clear) {chunk : Bytes}
    (herr : (ParseState.tryParseFromBuffer ⟨s.buffer.append chunk, .clear, false⟩).1.err = true) :
    (Recovers s chunk ↔ (s.buffer.readable ++ chunk).head? ≠ some 42) ∧
      (Discards s chunk ↔ (s.buffer.readable ++ chunk).head? ≠ some 42) := by
  have hmal := attempt_of_err herr
  rw [Buffer.readable_append] at hmal
  obtain ⟨hreply, hclear, hbuf⟩ := readProc_malformed hcache hmal
  refine ⟨⟨?_, ?_⟩, ⟨?_, ?_⟩⟩
  · rintro ⟨-, hlater⟩ h42
    rw [if_pos h42] at hbuf
    -- the next request is read behind the malformed bytes
    have hagain : attempt ((readProc s chunk).1.buffer.readable ++ setRequest.encode)
        = .malformed := by
      rw [hbuf]
      exact attempt_star h42 hmal _
    have hone := hlater [setRequest]
    rw [List.map_cons, List.map_cons, Run.trace_cons, (readProc_malformed hclear hagain).1] at hone
    cases hone
  · intro h42
    rw [if_neg h42] at hbuf
    exact ⟨hreply, fun cmds => trace_requests cmds hclear hbuf⟩
  · rintro ⟨hempty, -⟩ h42
    rw [hbuf, if_pos h42] at hempty
    rw [hempty] at h42
    cases h42
  · intro h42
    rw [if_neg h42] at hbuf
    exact ⟨hbuf, hclear⟩

/-- `hello` is refused and forgotten. -/
theorem recovers_iff_hello :
    (ParseState.tryParseFromBuffer ⟨Buffer.new.append (ascii "hello"), .clear, false⟩).1.err
      = true ∧
      Recovers .new (ascii "hello") := by
  have herr : (ParseState.tryParseFromBuffer
      ⟨ReadState.new.buffer.append (ascii "hello"), .clear, false⟩).1.err = true := by
    decide +kernel
  exact ⟨herr, (recovers_iff rfl herr).1.mpr (by decide +kernel)⟩

/-- `*x` is never forgotten: the request behind it is refused too. -/
theorem malformed_count_sticks :
    (ParseState.tryParseFromBuffer ⟨Buffer.new.append (ascii "*x"), .clear, false⟩).1.err = true ∧
      ¬Recovers .new (ascii "*x") ∧ ¬Discards .new (ascii "*x") := by
  refine ⟨by decide +kernel, ?_, ?_⟩
  · rintro ⟨-, hlater⟩
    have hone := hlater [setRequest]
    exact absurd hone (by decide +kernel)
  · rintro ⟨hempty, -⟩
    exact absurd hempty (by decide +kernel)

end LiteKV
