/-
LiteKV.TornTheorems — reading a file that stops anywhere.

A process that is killed while it writes leaves the first bytes of what it
was writing. `commonOperation_take` says what a new process gets from them:
the commands that are there as a whole. The incomplete one at the end is
given up, and does not disturb those before it: what the blocks leave is a
`Holding` of it, and the loop behind the last block stops at it, whether
there are arguments of it in the cache or not.
-/
import LiteKV.LoadTheorems

namespace LiteKV

open CommandCache Command

/-- The commands that are received are those in front of an incomplete one. -/
theorem received_of_split : ∀ (done rest : List Command) (n : Nat),
    (encodeAll done).length ≤ n →
    (∀ c ∈ rest.head?, n < (encodeAll done).length + c.encode.length) →
    received (done ++ rest) n = done
  | [], [], _, _, _ => rfl
  | [], c :: rest, n, _, hpart => by
      have hlt := hpart c rfl
      rw [encodeAll, List.map_nil, List.flatten_nil, List.length_nil, Nat.zero_add] at hlt
      rw [List.nil_append, received, if_neg (Nat.not_le.mpr hlt)]
  | c :: done, rest, n, hle, hpart => by
      rw [encodeAll_cons, List.length_append] at hle hpart
      have ih := received_of_split done rest (n - c.encode.length) (by omega) fun c' hc' => by
        have := hpart c' hc'
        omega
      rw [List.cons_append, received, if_pos (by omega), ih]

/-- The loop behind the last block: it takes the whole commands, if there are no
arguments in the cache. Those are of a command that is not whole. -/
theorem drain_holding {rest : List Command} {m : Nat} {st : ParseState} (h : Holding rest m st) :
    ∃ done rest' m', rest = done ++ rest' ∧
      (if st.buffer.readableBytes > 0 then (drain st).1 else []) = given done ∧
      m = (encodeAll done).length + m' ∧ ∀ c ∈ rest'.head?, m' < c.encode.length := by
  have hbytes : st.buffer.readableBytes = m := by
    rw [Buffer.readableBytes, ← Buffer.length_readable, h.length]
  by_cases hm : m = 0
  · refine ⟨[], rest, m, rfl, if_neg (by omega), (Nat.zero_add m).symm, fun c _ => ?_⟩
    have := encode_pos c
    omega
  · rw [if_pos (by omega)]
    by_cases hargv : st.cache.argv = []
    · obtain ⟨done, rest', m', hsplit, hgiven, hm', -, hpart⟩ := drain_clear h.toPiece hargv
      exact ⟨done, rest', m', hsplit, hgiven, hm', hpart⟩
    · refine ⟨[], rest, m, rfl, (drain_leftovers h.toPiece hargv).1, (Nat.zero_add m).symm, ?_⟩
      intro c hc
      by_contra hge
      exact hargv (h.kept c hc (by omega))

/-- What reading the first bytes of some commands gives: the whole commands, and
all bytes but those of an incomplete one. -/
theorem commonOperation_prefix {blockSize : Nat} (hsize : 0 < blockSize) {cmds : List Command}
    {file : Bytes} (hfile : file <+: encodeAll cmds) :
    ∃ done rest m, cmds = done ++ rest ∧ commonOperation blockSize file = given done ∧
      file.length = (encodeAll done).length + m ∧ ∀ c ∈ rest.head?, m < c.encode.length := by
  have hnew : Holding cmds 0 ⟨.new, .clear, false⟩ := ⟨⟨by omega, rfl⟩, fun _ _ _ => rfl⟩
  obtain ⟨done, rest, m, hsplit, hgiven, hm, hhold⟩ := blockLoop_prefix hsize
    (file.length + 1) file cmds 0 _ hnew hfile (by omega)
  obtain ⟨done', rest', m', hsplit', hdrain, hm', hpart⟩ := drain_holding hhold
  refine ⟨done ++ done', rest', m', by rw [hsplit, hsplit', List.append_assoc], ?_, ?_, hpart⟩
  · rw [commonOperation, hgiven, hdrain]
    exact List.map_append.symm
  · rw [encodeAll_append, List.length_append]
    omega

/-- **Reading the first `n` bytes of a file gives `whattodo` the commands that are
in them as a whole**, in order, whatever the size of the blocks. -/
theorem commonOperation_take {blockSize : Nat} (hsize : 0 < blockSize) (cmds : List Command)
    (n : Nat) : commonOperation blockSize ((encodeAll cmds).take n) = given (received cmds n) := by
  obtain ⟨done, rest, m, hsplit, hgiven, hm, hpart⟩ :=
    commonOperation_prefix hsize (List.take_prefix n (encodeAll cmds))
  have hlen : ((encodeAll cmds).take n).length = min n (encodeAll cmds).length := List.length_take
  have hrec : received cmds n = done := by
    rw [hsplit]
    refine received_of_split done rest n (by omega) fun c hc => ?_
    -- the bytes of the first incomplete command are in the file, so `n` cuts it
    have hlt := hpart c hc
    obtain ⟨cs, hcs⟩ := List.head?_eq_some_iff.mp hc
    have htotal : (encodeAll cmds).length = (encodeAll done).length
        + (c.encode.length + (encodeAll cs).length) := by
      rw [hsplit, hcs, encodeAll_append, encodeAll_cons, List.length_append, List.length_append]
    omega
  rw [hgiven, hrec]

/-- The first command of two, and the second one without its last byte. -/
theorem commonOperation_take_two :
    commonOperation 1 ((encodeAll [setRequest, setRequest]).take
        ((encodeAll [setRequest, setRequest]).length - 1))
      = given
        (received [setRequest, setRequest] ((encodeAll [setRequest, setRequest]).length - 1)) :=
  commonOperation_take (by decide) [setRequest, setRequest]
    ((encodeAll [setRequest, setRequest]).length - 1)

end LiteKV
