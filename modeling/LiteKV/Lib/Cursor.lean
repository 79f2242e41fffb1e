/-
LiteKV.Lib.Cursor — a cursor over a block of memory and the count of what is
left of it.

Code that walks a block keeps a pointer and the number of items behind it,
and moves both by hand; nothing makes them agree. A `Cursor` is the two,
with the count wrapping at 64 bits, and the log of every access and of every
move. `At` says what agreement is: the cursor is at a given suffix of the
block, the count is the length of that suffix, and everything in the log was
`Safe`. Each rule below asks for one bound on the suffix, so a reader that
refines one over plain lists is checked along the way.

`walk` is a counted loop that may break off. The count can be anything; the
loop ends because a turn that does not break off takes something.
-/
import Mathlib.Algebra.Ring.Nat

namespace LiteKV.Lib.Cursors

variable {α β : Type}

/-- An access to the block, or a move. -/
inductive Event where
  | read (pos len : Nat)
  | copy (pos len remain : Nat)
  | move (pos remain : Nat)

/-- In a block of a size: inside it, of no more than is left, and in step. -/
def Event.Safe (size : Nat) : Event → Prop
  | .read pos len => pos + len ≤ size
  | .copy pos len remain => pos + len ≤ size ∧ len ≤ remain
  | .move pos remain => pos + remain = size

/-- The offset, the count, and the log, latest first. -/
structure Cursor where
  pos : Nat
  remain : Nat
  log : List Event

namespace Cursor

/-- At the beginning of a block. -/
def start (size : Nat) : Cursor := ⟨0, size, [.move 0 size]⟩

/-- `cursor += step; remain -= step`. -/
def advance (c : Cursor) (step : Nat) : Cursor :=
  let pos := c.pos + step
  let remain := (c.remain + (2 ^ 64 - step)) % 2 ^ 64
  ⟨pos, remain, .move pos remain :: c.log⟩

/-- The items at the cursor are read. -/
def read (c : Cursor) (len : Nat) : Cursor := { c with log := .read c.pos len :: c.log }

/-- A string is built of them. -/
def copy (c : Cursor) (len : Nat) : Cursor := { c with log := .copy c.pos len c.remain :: c.log }

end Cursor

/-- Every event was safe. -/
def AllSafe (size : Nat) (c : Cursor) : Prop := ∀ e ∈ c.log, e.Safe size

/-- The cursor is at the suffix `rest` of the block. -/
structure At (block : List α) (c : Cursor) (rest : List α) : Prop where
  rest : block.drop c.pos = rest
  exact : c.pos + c.remain = block.length
  safe : AllSafe block.length c

namespace At

variable {block rest : List α} {c : Cursor}

theorem start (block : List α) : At block (.start block.length) block := by
  refine ⟨rfl, Nat.zero_add _, fun e he => ?_⟩
  obtain rfl : e = .move 0 block.length := by simpa [Cursor.start] using he
  exact Nat.zero_add _

theorem remain (h : At block c rest) : c.remain = rest.length := by
  rw [← h.rest, List.length_drop, ← h.exact]
  omega

theorem inside (h : At block c rest) {n : Nat} (hn : n ≤ rest.length) :
    c.pos + n ≤ block.length := by
  have := h.remain
  have := h.exact
  omega

theorem getElem? (h : At block c rest) : block[c.pos]? = rest.head? := by
  rw [← h.rest, List.head?_drop]

theorem advance (h : At block c rest) (hsize : block.length < 2 ^ 64) {n : Nat}
    (hn : n ≤ rest.length) : At block (c.advance n) (rest.drop n) := by
  have hremain := h.remain
  have hexact := h.exact
  have hleft : (c.remain + (2 ^ 64 - n)) % 2 ^ 64 = c.remain - n := by omega
  have hmove : c.pos + n + (c.remain + (2 ^ 64 - n)) % 2 ^ 64 = block.length := by omega
  refine ⟨?_, hmove, ?_⟩
  · rw [Cursor.advance, ← h.rest, List.drop_drop]
  · intro e he
    rcases List.mem_cons.mp he with rfl | he
    · exact hmove
    · exact h.safe e he

theorem read (h : At block c rest) {n : Nat} (hn : n ≤ rest.length) :
    At block (c.read n) rest := by
  refine ⟨h.rest, h.exact, fun e he => ?_⟩
  rcases List.mem_cons.mp he with rfl | he
  · exact h.inside hn
  · exact h.safe e he

theorem copy (h : At block c rest) {n : Nat} (hn : n ≤ rest.length) :
    At block (c.copy n) rest := by
  refine ⟨h.rest, h.exact, fun e he => ?_⟩
  rcases List.mem_cons.mp he with rfl | he
  · exact ⟨h.inside hn, h.remain ▸ hn⟩
  · exact h.safe e he

end At

/-- A loop `for (size_t i = 0; i < count; ++i)` over a cursor. Its body gives
the next answer, or breaks off; `none` is a loop that has not ended. -/
def walk (body : β → Cursor → Option β × Cursor) :
    (fuel i count : Nat) → β → Cursor → Option (β × Cursor)
  | 0, _, _, _, _ => none
  | fuel + 1, i, count, ans, c =>
      if i < count then
        match body ans c with
        | (none, c) => some (ans, c)
        | (some ans, c) => walk body fuel (i + 1) count ans c
      else some (ans, c)

/-- The same loop over a plain list. -/
def walkList (body : β → List α → Option β × List α) : (todo : Nat) → β → List α → β × List α
  | 0, ans, bs => (ans, bs)
  | todo + 1, ans, bs =>
      match body ans bs with
      | (none, bs) => (ans, bs)
      | (some ans, bs) => walkList body todo ans bs

/-- The body gives nothing back, and takes something or breaks off. -/
def Takes (body : β → List α → Option β × List α) : Prop := ∀ ans rest,
  (body ans rest).2.length + (if (body ans rest).1.isSome then 1 else 0) ≤ rest.length

theorem walkList_le {body : β → List α → Option β × List α} (htakes : Takes body) :
    ∀ (todo : Nat) (ans : β) (rest : List α), (walkList body todo ans rest).2.length ≤ rest.length
  | 0, _, _ => Nat.le_refl _
  | todo + 1, ans, rest => by
      have htake := htakes ans rest
      rw [walkList]
      cases hbody : body ans rest with
      | mk ans' rest' =>
      rw [hbody] at htake
      have hle : rest'.length ≤ rest.length := Nat.le_trans (Nat.le_add_right _ _) htake
      cases ans' with
      | none => exact hle
      | some ans' => exact Nat.le_trans (walkList_le htakes todo ans' rest') hle

/-- The loop of a body that takes something or breaks off ends, whatever the
count, with what the loop over the list gives. -/
theorem walk_at {block : List α} {body : β → Cursor → Option β × Cursor}
    {bodyList : β → List α → Option β × List α}
    (hbody : ∀ ans c rest, At block c rest →
      (body ans c).1 = (bodyList ans rest).1 ∧ At block (body ans c).2 (bodyList ans rest).2)
    (htakes : Takes bodyList) :
    ∀ (fuel i count : Nat) (ans : β) (c : Cursor) (rest : List α), At block c rest →
      rest.length < fuel → ∃ c', walk body fuel i count ans c
          = some ((walkList bodyList (count - i) ans rest).1, c') ∧
        At block c' (walkList bodyList (count - i) ans rest).2
  | 0, _, _, _, _, _, _, hfuel => absurd hfuel (Nat.not_lt_zero _)
  | fuel + 1, i, count, ans, c, rest, h, hfuel => by
      rw [walk]
      by_cases hi : i < count
      · obtain ⟨todo, htodo⟩ : ∃ todo, count - i = todo + 1 := ⟨count - i - 1, by omega⟩
        obtain ⟨hans, hat⟩ := hbody ans c rest h
        have htake := htakes ans rest
        rw [if_pos hi, htodo, walkList]
        cases hlist : bodyList ans rest with
        | mk ans' rest' =>
        cases hcur : body ans c with
        | mk ans'' c' =>
        rw [hlist, hcur] at hans hat
        rw [hlist] at htake
        obtain rfl : ans'' = ans' := hans
        cases ans'' with
        | none => exact ⟨c', rfl, hat⟩
        | some ans' =>
            have hlt : rest'.length < rest.length := htake
            have hnext : count - (i + 1) = todo := by omega
            obtain ⟨c'', hrun, hat'⟩ := walk_at hbody htakes fuel (i + 1) count ans' c' rest' hat
              (by omega)
            rw [hnext] at hrun hat'
            exact ⟨c'', hrun, hat'⟩
      · have hdone : count - i = 0 := by omega
        rw [if_neg hi, hdone]
        exact ⟨c, rfl, h⟩

end LiteKV.Lib.Cursors
