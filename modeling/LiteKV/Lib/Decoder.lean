/-
LiteKV.Lib.Decoder — decoders of self-delimiting encodings.

A decoder takes one value off the front of its input and gives the rest. An
encoding is self-delimiting for a value when the decoder gives the value back
whatever follows; a sequence of encodings is then read back item by item, and
nothing behind it is touched.
-/
import Mathlib.Data.List.Basic

namespace LiteKV.Lib.Decoding

variable {σ α : Type}

/-- A decoder: the value in front of the input, and what is behind it. -/
abbrev Decoder (σ α : Type) := List σ → Option (α × List σ)

/-- `p` reads `bs` as `a` and stops at its end, whatever follows. -/
def Reads (p : Decoder σ α) (bs : List σ) (a : α) : Prop :=
  ∀ rest, p (bs ++ rest) = some (a, rest)

/-- `n` values, one after the other. -/
def many (p : Decoder σ α) : (n : Nat) → Decoder σ (List α)
  | 0, bs => some ([], bs)
  | n + 1, bs => (p bs).bind fun r => (many p n r.2).map fun rs => (r.1 :: rs.1, rs.2)

/-- A sequence is read back exactly when each of its items is. -/
theorem many_flatMap_iff {p : Decoder σ α} (encode : α → List σ) {good : α → Prop}
    (hgood : ∀ x, good x → Reads p (encode x) x)
    (hbad : ∀ x tail rest, p (encode x ++ tail) = some (x, rest) → good x) :
    ∀ (xs : List α) (rest : List σ),
      many p xs.length (xs.flatMap encode ++ rest) = some (xs, rest) ↔ ∀ x ∈ xs, good x
  | [], rest => by simp [many]
  | x :: xs, rest => by
      have ih := many_flatMap_iff encode hgood hbad xs rest
      rw [List.flatMap_cons, List.append_assoc, List.length_cons, List.forall_mem_cons, many]
      constructor
      · intro h
        cases hx : p (encode x ++ (xs.flatMap encode ++ rest)) with
        | none => simp [hx] at h
        | some r =>
            cases hxs : many p xs.length r.2 with
            | none => simp [hx, hxs] at h
            | some rs =>
                simp only [hx, hxs, Option.bind_some, Option.map_some, Option.some.injEq,
                  Prod.mk.injEq, List.cons.injEq] at h
                obtain ⟨⟨h1, h2⟩, h3⟩ := h
                have hg : good x := hbad x _ r.2 (by rw [hx, ← h1])
                have hr : r.2 = xs.flatMap encode ++ rest := by
                  have := hgood x hg (xs.flatMap encode ++ rest)
                  rw [hx] at this
                  exact congrArg Prod.snd (Option.some.inj this)
                exact ⟨hg, ih.mp (by rw [← hr, hxs, ← h2, ← h3])⟩
      · rintro ⟨hx, hxs⟩
        rw [hgood x hx, Option.bind_some, ih.mpr hxs]
        rfl

end LiteKV.Lib.Decoding
