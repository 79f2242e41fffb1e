/-
LiteKV.ConfigTheorems — which configuration files are read line by line.

What a file should mean is `lineTable`: a name has the value of the last
line that names it and gives one. `readLine_words` says what the loop does
with a line in terms of the words of the stream, and from there two defects
are told apart. A third word stays in the stream and stands in front of the
next line, so nothing may follow a line of three words. And a line of one
word gives its name the value of the line before it (`stale`), which is no
harm only where a later line names it again or the value is the same.

The second is settled on `staleTable`, the table of a file in which nothing
stays unread.
-/
import LiteKV.Config
import Mathlib.Data.List.Induction
import LiteKV.Lib.Words

namespace LiteKV

open Lib

/-! ## What a file should mean -/

/-- The words of a line. -/
def tokens (line : Bytes) : List Bytes := words isSpace line

/-- The name a line is about. -/
def lineName (line : Bytes) : Option Bytes :=
  if ConfigReader.skips line then none else (tokens line).head?.map (·.map toLower)

/-- The value it gives. -/
def lineValue (line : Bytes) : Option Bytes :=
  if ConfigReader.skips line then none else (tokens line)[1]?.map (·.map toLower)

/-- The last line that satisfies `p`. -/
def lastLine (p : Bytes → Bool) (lines : List Bytes) : Option Bytes := lines.reverse.find? p

/-- A name has the value of the last line that names it and gives a value. -/
def lineTable (lines : List Bytes) : ConfigTable := fun name =>
  (lastLine (fun line => lineName line == some name && (lineValue line).isSome) lines).bind
    lineValue

/-- The value the last line with a value gives. -/
def lastValue (lines : List Bytes) : Option Bytes :=
  (lastLine (fun line => (lineValue line).isSome) lines).bind lineValue

theorem lastLine_snoc (p : Bytes → Bool) (lines : List Bytes) (line : Bytes) :
    lastLine p (lines ++ [line]) = if p line then some line else lastLine p lines := by
  rw [lastLine, List.reverse_append, List.reverse_singleton, List.singleton_append, List.find?_cons]
  cases p line <;> rfl

theorem lineTable_snoc (lines : List Bytes) (line name : Bytes) :
    lineTable (lines ++ [line]) name
      = if lineName line = some name ∧ (lineValue line).isSome then lineValue line
        else lineTable lines name := by
  rw [lineTable, lastLine_snoc]
  by_cases h : lineName line = some name ∧ (lineValue line).isSome = true
  · rw [if_pos (by simpa using h), if_pos h]
    rfl
  · rw [if_neg (by simpa using h), if_neg h]
    rfl

theorem lastValue_snoc (lines : List Bytes) (line : Bytes) :
    lastValue (lines ++ [line])
      = if (lineValue line).isSome then lineValue line else lastValue lines := by
  rw [lastValue, lastLine_snoc]
  split <;> rfl

/-- A value belongs to a name, and is not empty. -/
theorem lineValue_spec {line v : Bytes} (h : lineValue line = some v) :
    v ≠ [] ∧ ∃ name, lineName line = some name := by
  rw [lineValue] at h
  rw [lineName]
  split at h
  · cases h
  · rename_i hskip
    rw [if_neg hskip]
    obtain ⟨w, hw, rfl⟩ := Option.map_eq_some_iff.mp h
    have hne : w ≠ [] := ne_nil_of_mem_words (List.mem_of_getElem? hw)
    cases ht : tokens line with
    | nil => simp [ht] at hw
    | cons a ws => exact ⟨by simpa using hne, _, rfl⟩

/-! ## What the loop reads -/

namespace ConfigReader

/-- One extraction, in terms of the words that are unread. -/
theorem extract_words (unread token : Bytes) :
    tokens unread = [] ∧ extract unread token = (token, []) ∨
    ∃ w rest, tokens unread = w :: tokens rest ∧ extract unread token = (w, rest) ∧ w ≠ [] := by
  have hwords := words_eq isSpace unread
  rw [extract]
  by_cases h : unread.dropWhile isSpace = []
  · rw [if_pos h] at hwords ⊢
    exact Or.inl ⟨hwords, rfl⟩
  · rw [if_neg h] at hwords ⊢
    exact Or.inr ⟨_, _, hwords, rfl,
      ne_nil_of_mem_words (s := unread) (by rw [hwords]; exact List.mem_cons_self)⟩

theorem readLine_skip {line : Bytes} (h : skips line = true) (r : ConfigReader) :
    readLine r line = r := if_pos h

/-- What a line leaves unread: all words but two. -/
theorem readLine_unread {line : Bytes} (h : skips line = false) (r : ConfigReader) :
    tokens (readLine r line).unread = (tokens (r.unread ++ line)).drop 2 := by
  rw [readLine, if_neg (by rw [h]; decide)]
  rcases extract_words (r.unread ++ line) r.first with ⟨ht, he⟩ | ⟨w, rest, ht, he, hw⟩
  · have hnil : extract [] r.second = (r.second, []) := rfl
    rw [he, ht]
    dsimp only
    rw [hnil]
    split
    · rfl
    · split <;> rfl
  · rw [he, ht]
    dsimp only
    rw [if_neg hw, List.drop_succ_cons]
    rcases extract_words rest r.second with ⟨ht', he'⟩ | ⟨w', rest', ht', he', hw'⟩
    · rw [he', ht']
      dsimp only
      split <;> rfl
    · rw [he', ht']
      dsimp only
      rw [if_neg hw']
      rfl

theorem readLines_snoc (lines : List Bytes) (line : Bytes) :
    readLines (lines ++ [line]) = readLine (readLines lines) line := List.foldl_append

end ConfigReader

open ConfigReader

/-- Every line is read as its own words, whatever the lines before it left
unread. -/
def ReadAlone (lines : List Bytes) : Prop :=
  ∀ pre line post, lines = pre ++ line :: post → skips line = false →
    tokens ((readLines pre).unread ++ line) = tokens line

/-- No line that is followed by another (comments and empty lines apart) has
more than two words. -/
def NoExtraWords (lines : List Bytes) : Prop :=
  ∀ pre line post, lines = pre ++ line :: post → skips line = false →
    (∃ next ∈ post, skips next = false) → (tokens line).length ≤ 2

/-- Lines of at most two words leave nothing unread. -/
theorem unread_of_short (lines : List Bytes)
    (h : ∀ line ∈ lines, skips line = false → (tokens line).length ≤ 2) :
    tokens (readLines lines).unread = [] := by
  induction lines using List.reverseRecOn with
  | nil => rfl
  | append_singleton lines line ih =>
      have hunread := ih fun x hx => h x (List.mem_append_left _ hx)
      rw [readLines_snoc]
      cases hskip : skips line with
      | true => rw [readLine_skip hskip, hunread]
      | false =>
          have hlen := h line (List.mem_append_right _ List.mem_cons_self) hskip
          rw [readLine_unread hskip, tokens, words_append_sep (words_eq_nil_iff.mp hunread)]
          exact List.drop_eq_nil_of_le hlen

theorem readAlone_iff (lines : List Bytes) : ReadAlone lines ↔ NoExtraWords lines := by
  constructor
  · rintro h pre line post rfl hskip ⟨next, hnext, hns⟩
    -- up to the next line that is read
    obtain ⟨after, hsplit⟩ : ∃ after, post.dropWhile skips = after := ⟨_, rfl⟩
    cases after with
    | nil => exact absurd (List.dropWhile_eq_nil_iff.mp hsplit next hnext) (by rw [hns]; decide)
    | cons x after =>
        have hx : skips x = false := by
          have hnot := List.head_dropWhile_not (p := skips) (l := post) (by rw [hsplit]; simp)
          simpa [hsplit] using hnot
        have hpost : post = post.takeWhile skips ++ x :: after := by
          rw [← hsplit, List.takeWhile_append_dropWhile]
        have hmid : ∀ mid : List Bytes, (∀ y ∈ mid, skips y = true) → ∀ r : ConfigReader,
            mid.foldl readLine r = r := by
          intro mid
          induction mid with
          | nil => intro _ r; rfl
          | cons y mid ih =>
              intro hy r
              rw [List.foldl_cons, readLine_skip (hy y List.mem_cons_self)]
              exact ih (fun z hz => hy z (List.mem_cons_of_mem y hz)) r
        have hread : readLines (pre ++ line :: post.takeWhile skips)
            = readLine (readLines pre) line := by
          rw [readLines, List.foldl_append, List.foldl_cons]
          exact hmid _ (fun y hy => List.mem_takeWhile_imp hy) _
        have hown := h pre line post rfl hskip
        have hnext := h (pre ++ line :: post.takeWhile skips) x after
          (by rw [List.append_assoc, List.cons_append, ← hpost]) hx
        rw [hread] at hnext
        have hnil := words_eq_nil_iff.mpr (words_append_eq_iff.mp hnext)
        have hunread := readLine_unread hskip (readLines pre)
        rw [hown] at hunread
        exact List.drop_eq_nil_iff.mp (hunread.symm.trans hnil)
  · rintro h pre line post rfl hskip
    refine words_append_sep (words_eq_nil_iff.mp (unread_of_short pre fun x hx hxs => ?_)) line
    obtain ⟨before, after, rfl⟩ := List.append_of_mem hx
    refine h before x (after ++ line :: post) (by simp) hxs ⟨line, ?_, hskip⟩
    exact List.mem_append_right _ List.mem_cons_self

/-! ## Stale values -/

/-- What a line does to the table when it is read as its own words: a line that
only gives a name takes the value of the line before. -/
def staleStep (s : ConfigTable × Bytes) (line : Bytes) : ConfigTable × Bytes :=
  match lineName line with
  | none => s
  | some name =>
      match lineValue line with
      | some v => (Function.update s.1 name (some v), v)
      | none => if s.2 = [] then s else (Function.update s.1 name (some s.2), s.2)

/-- The table and the last value of a file that is read line by line. -/
def staleTable (lines : List Bytes) : ConfigTable × Bytes :=
  lines.foldl staleStep (fun _ => none, [])

theorem toLower_toLower (b : UInt8) : toLower (toLower b) = toLower b := by
  unfold toLower
  split
  · rw [if_neg]
    simp only [UInt8.le_iff_toNat_le, UInt8.toNat_add] at *
    simp at *
    omega
  · rfl

theorem map_toLower_idem (w : Bytes) : (w.map toLower).map toLower = w.map toLower := by
  rw [List.map_map]
  exact List.map_congr_left fun b _ => toLower_toLower b

/-- The variables of the loop, against the table of a file read line by line.
What `first` and `second` hold is in the table already, so that a line without
a word changes nothing. -/
structure ReadsAs (s : ConfigTable × Bytes) (r : ConfigReader) : Prop where
  table : r.configs = s.1
  value : r.second = s.2
  lower : r.second.map toLower = r.second
  held : r.second ≠ [] → r.configs (r.first.map toLower) = some r.second

theorem ReadsAs.step {s : ConfigTable × Bytes} {r : ConfigReader} {line : Bytes} (h : ReadsAs s r)
    (hown : skips line = false → tokens (r.unread ++ line) = tokens line) :
    ReadsAs (staleStep s line) (readLine r line) := by
  obtain ⟨htable, hvalue, hlower, hheld⟩ := h
  cases hskip : skips line with
  | true =>
      rw [readLine_skip hskip, staleStep, show lineName line = none from if_pos hskip]
      exact ⟨htable, hvalue, hlower, hheld⟩
  | false =>
      have hns : ¬ skips line = true := by rw [hskip]; decide
      rw [readLine, if_neg hns, staleStep, lineName, if_neg hns, lineValue, if_neg hns,
        ← hown hskip]
      rcases extract_words (r.unread ++ line) r.first with ⟨ht, he⟩ | ⟨w, rest, ht, he, hw⟩
      · -- no word: the loop goes through with what it has
        have hnil : extract [] r.second = (r.second, []) := rfl
        rw [he, ht]
        dsimp only [List.head?_nil, Option.map_none]
        rw [hnil]
        split
        · exact ⟨htable, hvalue, hlower, hheld⟩
        · split
          · exact ⟨htable, hvalue, hlower, hheld⟩
          · rename_i hsecond
            have hsame : Function.update r.configs (r.first.map toLower) (some r.second)
                = r.configs := by
              rw [← hheld hsecond, Function.update_eq_self]
            rw [hlower, hsame]
            exact ⟨htable, hvalue, hlower, fun _ => by
              rw [map_toLower_idem]
              exact hheld hsecond⟩
      · rw [he, ht]
        dsimp only [List.head?_cons, Option.map_some]
        rw [if_neg hw, List.getElem?_cons_succ]
        rcases extract_words rest r.second with ⟨ht', he'⟩ | ⟨w', rest', ht', he', hw'⟩
        · -- one word: the value is the one of the line before
          rw [he', ht', ← hvalue]
          dsimp only [List.getElem?_nil, Option.map_none]
          split
          · rename_i hsecond
            exact ⟨htable, hvalue, hlower, fun h => absurd hsecond h⟩
          · rw [hlower, htable]
            exact ⟨rfl, rfl, hlower, fun _ => by
              rw [map_toLower_idem]
              exact Function.update_self _ _ _⟩
        · rw [he', ht']
          dsimp only [List.getElem?_cons_zero, Option.map_some]
          rw [if_neg hw', htable]
          exact ⟨rfl, rfl, map_toLower_idem w', fun _ => by
            rw [map_toLower_idem]
            exact Function.update_self _ _ _⟩

theorem staleTable_snoc (lines : List Bytes) (line : Bytes) :
    staleTable (lines ++ [line]) = staleStep (staleTable lines) line := List.foldl_append

theorem readsAs_readLines (lines : List Bytes) (h : ReadAlone lines) :
    ReadsAs (staleTable lines) (readLines lines) := by
  induction lines using List.reverseRecOn with
  | nil => exact ⟨rfl, rfl, rfl, fun h => absurd rfl h⟩
  | append_singleton lines line ih =>
      rw [readLines_snoc, staleTable_snoc]
      refine (ih fun pre x post hsplit => ?_).step (h lines line [] rfl)
      exact h pre x (post ++ [line]) (by rw [hsplit]; simp)

/-- Until a line gives a value the table stays empty; then the last value is
what a line without one takes. -/
theorem staleTable_value (lines : List Bytes) :
    (lastValue lines = none ∧ staleTable lines = (fun _ => none, []) ∧
        ∀ name, lineTable lines name = none) ∨
      ∃ v, lastValue lines = some v ∧ v ≠ [] ∧ (staleTable lines).2 = v := by
  induction lines using List.reverseRecOn with
  | nil => exact Or.inl ⟨rfl, rfl, fun _ => rfl⟩
  | append_singleton lines line ih =>
      rw [lastValue_snoc, staleTable_snoc, staleStep]
      cases hv : lineValue line with
      | some v =>
          obtain ⟨hne, name, hname⟩ := lineValue_spec hv
          rw [hname]
          exact Or.inr ⟨v, rfl, hne, rfl⟩
      | none =>
          have htable : ∀ name, lineTable (lines ++ [line]) name = lineTable lines name := by
            intro name
            rw [lineTable_snoc, hv, if_neg (fun h => by cases h.2)]
          simp only [htable]
          rcases ih with ⟨hlast, hs, hnone⟩ | ⟨v, hlast, hne, hs⟩
          · refine Or.inl ⟨hlast, ?_, hnone⟩
            rw [hs]
            cases lineName line <;> rfl
          · refine Or.inr ⟨v, hlast, hne, ?_⟩
            cases lineName line with
            | none => exact hs
            | some name =>
                dsimp only
                rw [if_neg (by rw [hs]; exact hne)]
                exact hs

/-- Lines that do not name it leave a name as it is. -/
theorem unnamed (name : Bytes) (pre post : List Bytes)
    (h : ∀ line ∈ post, lineName line ≠ some name) :
    (staleTable (pre ++ post)).1 name = (staleTable pre).1 name ∧
      lineTable (pre ++ post) name = lineTable pre name := by
  induction post using List.reverseRecOn with
  | nil => rw [List.append_nil]; exact ⟨rfl, rfl⟩
  | append_singleton post line ih =>
      obtain ⟨hstale, hline⟩ := ih fun x hx => h x (List.mem_append_left _ hx)
      have hne := h line (List.mem_append_right _ List.mem_cons_self)
      rw [← List.append_assoc, lineTable_snoc, if_neg (fun hc => hne hc.1), staleTable_snoc,
        ← hstale, staleStep]
      refine ⟨?_, hline⟩
      cases hname : lineName line with
      | none => rfl
      | some other =>
          have hother : name ≠ other := fun he => hne (by rw [hname, he])
          dsimp only
          cases lineValue line with
          | some v => exact Function.update_of_ne hother _ _
          | none =>
              dsimp only
              split
              · rfl
              · exact Function.update_of_ne hother _ _

/-- A line that names and gives no value, behind one that gives a value, is named
again later, or its name has that value anyway. -/
def StaleHarmless (lines : List Bytes) : Prop :=
  ∀ pre line post name value, lines = pre ++ line :: post → lineName line = some name →
    lineValue line = none → (∀ later ∈ post, lineName later ≠ some name) →
    lastValue pre = some value → lineTable pre name = some value

/-- The value a line without one leaves under its name. -/
theorem stale_named {pre post : List Bytes} {line name value : Bytes}
    (hname : lineName line = some name)
    (hnone : lineValue line = none) (hpost : ∀ later ∈ post, lineName later ≠ some name)
    (hlast : lastValue pre = some value) :
    (staleTable (pre ++ line :: post)).1 name = some value ∧
      lineTable (pre ++ line :: post) name = lineTable pre name := by
  obtain ⟨hstale, hline⟩ := unnamed name (pre ++ [line]) post hpost
  rw [List.append_assoc, List.singleton_append] at hstale hline
  rw [hstale, hline, lineTable_snoc, hnone, if_neg (fun h => by cases h.2), staleTable_snoc,
    staleStep, hname, hnone]
  refine ⟨?_, rfl⟩
  rcases staleTable_value pre with ⟨h, -, -⟩ | ⟨v, h, hne, hv⟩
  · rw [h] at hlast
    cases hlast
  · rw [h, Option.some.injEq] at hlast
    dsimp only
    rw [hv, if_neg hne, ← hlast]
    exact Function.update_self _ _ _

/-- The last element that satisfies `p`, if there is one. -/
theorem exists_last {α : Type} (p : α → Prop) [DecidablePred p] (l : List α) :
    (∀ x ∈ l, ¬ p x) ∨ ∃ pre x post, l = pre ++ x :: post ∧ p x ∧ ∀ y ∈ post, ¬ p y := by
  induction l using List.reverseRecOn with
  | nil => exact Or.inl fun x hx => by cases hx
  | append_singleton l x ih =>
      by_cases hx : p x
      · exact Or.inr ⟨l, x, [], rfl, hx, fun y hy => by cases hy⟩
      · rcases ih with hall | ⟨pre, y, post, rfl, hy, hpost⟩
        · refine Or.inl fun z hz => ?_
          rcases List.mem_append.mp hz with hz | hz
          · exact hall z hz
          · rwa [List.mem_singleton.mp hz]
        · refine Or.inr ⟨pre, y, post ++ [x], by simp, hy, fun z hz => ?_⟩
          rcases List.mem_append.mp hz with hz | hz
          · exact hpost z hz
          · rwa [List.mem_singleton.mp hz]

theorem staleTable_iff (lines : List Bytes) :
    (staleTable lines).1 = lineTable lines ↔ StaleHarmless lines := by
  constructor
  · rintro h pre line post name value rfl hname hnone hpost hlast
    obtain ⟨hstale, hline⟩ := stale_named hname hnone hpost hlast
    rw [← hline, ← h, hstale]
  · intro h
    funext name
    rcases exists_last (fun line => lineName line = some name) lines with
      hall | ⟨pre, line, post, rfl, hname, hpost⟩
    · obtain ⟨hstale, hline⟩ := unnamed name [] lines hall
      rw [List.nil_append] at hstale hline
      rw [hstale, hline]
      rfl
    · cases hv : lineValue line with
      | some v =>
          obtain ⟨hstale, hline⟩ := unnamed name (pre ++ [line]) post hpost
          rw [List.append_assoc, List.singleton_append] at hstale hline
          rw [hstale, hline, lineTable_snoc, hv, if_pos ⟨hname, rfl⟩, staleTable_snoc, staleStep,
            hname, hv]
          exact Function.update_self _ _ _
      | none =>
          rcases staleTable_value pre with ⟨hlast, hs, hnone⟩ | ⟨v, hlast, -, -⟩
          · obtain ⟨hstale, hline⟩ := unnamed name (pre ++ [line]) post hpost
            rw [List.append_assoc, List.singleton_append] at hstale hline
            rw [hstale, hline, lineTable_snoc, hv, if_neg (fun h => by cases h.2), hnone,
              staleTable_snoc, staleStep, hname, hv, hs]
            rfl
          · obtain ⟨hstale, hline⟩ := stale_named hname hv hpost hlast
            rw [hstale, hline, h pre line post name v rfl hname hv hpost hlast]

/-- Each line stands alone: it is read as its own words, and the table has for
each name the value of the last line that gives one. -/
structure StandAlone (content : Bytes) : Prop where
  words : ReadAlone (fileLines content)
  table : configTable content = lineTable (fileLines content)

/-- **The lines of a file stand alone exactly when none that is followed by
another has more than two words, and no line of one word takes a stale value.** -/
theorem lines_stand_alone_iff (content : Bytes) :
    StandAlone content ↔ NoExtraWords (fileLines content) ∧ StaleHarmless (fileLines content) := by
  rw [← readAlone_iff, ← staleTable_iff]
  constructor
  · rintro ⟨hwords, htable⟩
    exact ⟨hwords, (readsAs_readLines _ hwords).table ▸ htable⟩
  · rintro ⟨hwords, htable⟩
    exact ⟨hwords, (readsAs_readLines _ hwords).table.trans htable⟩

/-- A third word becomes part of the next name, and a line of one word gets the
value of the line before. -/
theorem config_lines_mix :
    configTable (ascii "ip 127.0.0.1 0\nport 9000") (ascii "port") = none ∧
    configTable (ascii "ip 127.0.0.1 0\nport 9000") (ascii "0port") = some (ascii "9000") ∧
    configTable (ascii "ip 127.0.0.1\nport") (ascii "port") = some (ascii "127.0.0.1") ∧
    ¬ StandAlone (ascii "ip 127.0.0.1 0\nport 9000") ∧
    ¬ StandAlone (ascii "ip 127.0.0.1\nport") := by
  have hjoined : configTable (ascii "ip 127.0.0.1 0\nport 9000") (ascii "port") = none := by
    decide +kernel
  have hstale :
      configTable (ascii "ip 127.0.0.1\nport") (ascii "port") = some (ascii "127.0.0.1") := by
    decide +kernel
  refine ⟨hjoined, by decide +kernel, hstale, fun h => ?_, fun h => ?_⟩
  · have hline : lineTable (fileLines (ascii "ip 127.0.0.1 0\nport 9000")) (ascii "port")
        = some (ascii "9000") := by decide +kernel
    rw [← h.table, hjoined] at hline
    cases hline
  · have hline : lineTable (fileLines (ascii "ip 127.0.0.1\nport")) (ascii "port") = none := by
      decide +kernel
    rw [← h.table, hstale] at hline
    cases hline

end LiteKV
