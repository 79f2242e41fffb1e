/-
LiteKV.Net.ConverterTheorems — `CanConvertToUInt64` is not like its siblings.

`CanConvertToInt64` and `CanConvertToInt32` print the number they read and
compare, so they accept exactly what `std::to_string` prints,
`canConvertToInt64_exact` and `canConvertToInt32_exact`. `CanConvertToUInt64`
returns what `std::stoull` gives: it accepts everything with a number in
front, `canConvertToUInt64_isSome_iff`. So the three have one grammar on a
string exactly when it is such a decimal or has no number in front at all.
-/
import LiteKV.Config
import LiteKV.NumTheorems
import LiteKV.Net.Commands

namespace LiteKV

/-! ## The second argument -/

/-- A call of a converter: what it returns, and its second argument afterwards,
which is set only on success. -/
def convertCall {α : Type} (r : Option α) (val : α) : Bool × α := (r.isSome, r.getD val)

/-- The converter succeeds on `s` exactly when it is the text of a value of the
range, and gives that value; otherwise it changes nothing. -/
structure ExactAt {α : Type} (s : Bytes) (r : Option α) (range : α → Prop) (text : α → Bytes) :
    Prop where
  accepts : ∀ val, (convertCall r val).1 = true ↔ ∃ v, range v ∧ s = text v
  value : ∀ val v, range v → s = text v → (convertCall r val).2 = v
  unchanged : ∀ val, (convertCall r val).1 = false → (convertCall r val).2 = val

theorem ExactAt.of_eq_some {α : Type} {s : Bytes} {r : Option α} {range : α → Prop}
    {text : α → Bytes} (h : ∀ v, r = some v ↔ range v ∧ s = text v) : ExactAt s r range text := by
  refine ⟨fun val => ?_, fun val v hr hs => ?_, fun val hnone => ?_⟩
  · rw [convertCall, Option.isSome_iff_exists]
    exact exists_congr h
  · rw [convertCall, (h v).mpr ⟨hr, hs⟩]
    rfl
  · rw [convertCall, Option.isSome_eq_false_iff, Option.isNone_iff_eq_none] at hnone
    rw [convertCall, hnone]
    rfl

theorem canConvertToInt64_exact (s : Bytes) :
    ExactAt s (canConvertToInt64 s) (fun _ => True) (fun v => intToString v.toInt) :=
  .of_eq_some fun v => by rw [canConvertToInt64_eq_some, true_and]

theorem canConvertToInt32_exact (s : Bytes) :
    ExactAt s (canConvertToInt32 s) (fun v => -2 ^ 31 ≤ v ∧ v < 2 ^ 31) intToString :=
  .of_eq_some fun _ => canConvertToInt32_eq_some

/-! ## What `std::stoull` takes -/

/-- The text of a number below `2 ^ 64`. -/
def CanonicalUInt64 (s : Bytes) : Prop := ∃ v < 2 ^ 64, s = natToString v

/-- White space, a sign and digits in front, of a magnitude below `2 ^ 64`. -/
def Readable (s : Bytes) : Prop := ∃ neg m used, scanInteger s = some (neg, m, used) ∧ m < 2 ^ 64

theorem scanInteger_nil : scanInteger [] = none := rfl

theorem stoull_isSome_iff (s : Bytes) : (stoull s).isSome = true ↔ Readable s := by
  rw [stoull, Readable]
  cases hs : scanInteger s with
  | none => simp
  | some scan =>
      obtain ⟨neg, m, used⟩ := scan
      simp

theorem canConvertToUInt64_isSome_iff (s : Bytes) :
    (canConvertToUInt64 s).isSome = true ↔ Readable s := by
  rw [canConvertToUInt64]
  split
  · rename_i hnil
    rw [List.isEmpty_iff.mp hnil, ← stoull_isSome_iff, stoull, scanInteger_nil]
  · exact stoull_isSome_iff s

/-! ## One grammar -/

/-- The converters accept one grammar on `s`, and who uses `CanConvertToUInt64`
rejects it when it is malformed. -/
structure OneGrammar (s : Bytes) : Prop where
  uint64 : ExactAt s (canConvertToUInt64 s) (fun v => v < 2 ^ 64) natToString
  int64 : ExactAt s (canConvertToInt64 s) (fun _ => True) (fun v => intToString v.toInt)
  int32 : ExactAt s (canConvertToInt32 s) (fun v => -2 ^ 31 ≤ v ∧ v < 2 ^ 31) intToString
  agree : ∀ n : Nat, n < 2 ^ 31 →
    (canConvertToUInt64 s = some n ↔ canConvertToInt64 s = some (Int64.ofNat n)) ∧
    (canConvertToUInt64 s = some n ↔ canConvertToInt32 s = some (n : Int))
  evict : ¬ CanonicalUInt64 s → ∀ (ctx : Ctx) (e : Engine),
    evictCommand ctx e [ascii "evict", s] = (e, .ok kInvalidIntegerMsg)
  dumpFlushInterval : ¬ CanonicalUInt64 s → ∀ c : Config,
    c.initItem (ascii "dump-flush-interval") s
      = some { c with dumpFlushInterval := Config.default.dumpFlushInterval }

/-- On a decimal, and on a string that is not readable. -/
theorem canConvertToUInt64_eq_some {s : Bytes} (h : CanonicalUInt64 s ∨ ¬ Readable s) (v : Nat) :
    canConvertToUInt64 s = some v ↔ v < 2 ^ 64 ∧ s = natToString v := by
  constructor
  · intro hv
    have hread : Readable s := by
      rw [← canConvertToUInt64_isSome_iff, hv]
      rfl
    obtain ⟨w, hw, rfl⟩ := h.resolve_right (not_not_intro hread)
    rw [canConvertToUInt64_natToString hw] at hv
    cases hv
    exact ⟨hw, rfl⟩
  · rintro ⟨hv, rfl⟩
    exact canConvertToUInt64_natToString hv

theorem toInt_ofNat_small {n : Nat} (hn : n < 2 ^ 31) : (Int64.ofNat n).toInt = n :=
  Int64.toInt_ofNat_of_lt (by omega)

/-- **The three converters accept one grammar on a string exactly if** it is a
decimal below `2 ^ 64`, or has no number below `2 ^ 64` in front. -/
theorem oneGrammar_iff (s : Bytes) : OneGrammar s ↔ CanonicalUInt64 s ∨ ¬ Readable s := by
  constructor
  · intro h
    by_cases hread : Readable s
    · exact Or.inl ((h.uint64.accepts 0).mp ((canConvertToUInt64_isSome_iff s).mpr hread))
    · exact Or.inr hread
  · intro h
    have hsome := canConvertToUInt64_eq_some h
    have hnone (hc : ¬ CanonicalUInt64 s) : canConvertToUInt64 s = none := by
      rw [Option.eq_none_iff_forall_ne_some]
      intro v hv
      exact hc ⟨v, (hsome v).mp hv⟩
    refine ⟨.of_eq_some hsome, canConvertToInt64_exact s, canConvertToInt32_exact s,
      fun n hn => ⟨?_, ?_⟩, fun hc ctx e => ?_, fun hc c => ?_⟩
    · rw [hsome, canConvertToInt64_eq_some, toInt_ofNat_small hn, intToString_natCast]
      exact and_iff_right (by omega)
    · rw [hsome, canConvertToInt32_eq_some, intToString_natCast]
      exact and_congr_left fun _ => by omega
    · have hsyn : checkSyntax [ascii "evict", s] 1 0 false = true := by simp [checkSyntax]
      have harg : arg [ascii "evict", s] 1 = s := rfl
      simp only [evictCommand, checkSyntaxHelper, hsyn, if_true, harg, hnone hc]
    · have hkey : c.initItem (ascii "dump-flush-interval") s
          = some { c with dumpFlushInterval :=
              (canConvertToUInt64 s).getD Config.default.dumpFlushInterval } := rfl
      rw [hkey, hnone hc]
      rfl

/-- A count with a letter behind it is read as the count, and so is a count
written as a negative number. -/
theorem evict_takes_malformed :
    ¬ OneGrammar (ascii "2x") ∧ canConvertToUInt64 (ascii "2x") = some 2 ∧
      canConvertToInt64 (ascii "2x") = none ∧
      canConvertToUInt64 (ascii " -18446744073709551614") = some 2 := by
  have hread : (canConvertToUInt64 (ascii "2x")) = some 2 := by decide +kernel
  have hnone : canConvertToInt64 (ascii "2x") = none := by decide +kernel
  refine ⟨fun h => ?_, hread, hnone, by decide +kernel⟩
  have hagree := ((h.agree 2 (by decide)).1.mp hread)
  rw [hnone] at hagree
  cases hagree

end LiteKV
