/-
LiteKV.PersistenceTheorems — when the double-buffered writer is exact.

While the backup cache is the older one, the file, the backup cache and the
current cache are one sequence: what was written, what waits to be written,
what is still collected. `InOrder` says that this sequence is what was
appended. `Flush` moves its middle part to its first one and keeps it, and
so does `Append` unless it swaps a backup cache that was not flushed to the
front; from then on the newer commands are written first.

The destructor swaps once more before its flush, so it writes only the
newer of two non-empty caches, unless the worker flushed the older one
while it was joined.
-/
import LiteKV.Persistence
import LiteKV.Lib.Run

namespace LiteKV.AppendableFile

open Lib.Run

/-- The file and the two caches, oldest first, are `cs`. -/
def InOrder (f : AppendableFile) (cs : List CommandCache) : Prop :=
  f.file ++ encode f.backup ++ encode f.cur = encode cs

@[simp] theorem encode_nil : encode [] = [] := rfl

@[simp] theorem encode_append (a b : List CommandCache) :
    encode (a ++ b) = encode a ++ encode b := by simp [encode]

/-- Every command has at least its `*` in the file. -/
theorem encode_ne_nil {cs : List CommandCache} (h : cs ≠ []) : encode cs ≠ [] := by
  obtain ⟨c, cs, rfl⟩ := List.exists_cons_of_ne_nil h
  simp [encode, CommandCache.toProtocolString, CommandCache.protocolString]

theorem inOrder_new (n : Nat) : InOrder (new n) [] := rfl

/-- A step that does not swap an unflushed cache to the front. -/
def StepFits (f : AppendableFile) : Event → Prop
  | .append _ => f.cur.length ≥ f.cacheMaxSize → f.backup = []
  | .round => True

theorem flush_inOrder {f : AppendableFile} {cs : List CommandCache} (h : InOrder f cs) :
    InOrder f.flush cs := by
  unfold InOrder at h ⊢
  unfold flush
  split
  · rename_i hb
    have hb' : f.backup = [] := by simpa using hb
    split
    · exact h
    · simpa [switch, writeBackup, hb'] using h
  · simpa [writeBackup] using h

theorem append_inOrder {f : AppendableFile} {cs : List CommandCache} (h : InOrder f cs)
    (c : CommandCache) (hfit : StepFits f (.append c)) : InOrder (f.append c) (cs ++ [c]) := by
  unfold InOrder at h ⊢
  rw [encode_append, ← h]
  unfold append
  by_cases hfull : f.cur.length ≥ f.cacheMaxSize
  · have hb : f.backup = [] := hfit hfull
    simp [hfull, switch, hb]
  · simp [hfull]

theorem step_inOrder (f : AppendableFile) (cs : List CommandCache) (e : Event) (h : InOrder f cs)
    (hfit : StepFits f e) : InOrder (step f e) (record cs e) := by
  cases e with
  | append c => exact append_inOrder h c hfit
  | round => exact flush_inOrder h

/-- After every interleaving whose steps fit. -/
theorem run_inOrder {n : Nat} {events : List Event} (hfits : Guarded step StepFits (new n) events) :
    InOrder (run (new n) events) (appended events) :=
  foldl_simulates step record InOrder step_inOrder events (new n) [] (inOrder_new n) hfits

theorem record_append (cs : List CommandCache) (events : List Event) :
    events.foldl record cs = cs ++ appended events := by
  unfold appended
  induction events generalizing cs with
  | nil => simp
  | cons e es ih =>
    rw [List.foldl_cons, List.foldl_cons, ih (record cs e), ih (record [] e), ← List.append_assoc]
    congr 1
    cases e <;> simp [record]

theorem appended_append (before after : List Event) :
    appended (before ++ after) = appended before ++ appended after := by
  rw [appended, List.foldl_append, record_append, ← appended]

/-- What the destructor leaves in the file. -/
theorem destroy_file_iff {f : AppendableFile} {cs : List CommandCache} (h : InOrder f cs)
    (lastRound : Bool) :
    (f.destroy lastRound).file = encode cs ↔ (f.backup ≠ [] → f.cur ≠ [] → lastRound = true) := by
  unfold InOrder at h
  cases hb : f.backup with
  | nil =>
      -- one cache at most: both flushes are of that one
      cases hc : f.cur with
      | nil => cases lastRound <;> simpa [destroy, flush, switch, hb, hc] using h
      | cons c cs' =>
          cases lastRound <;> simpa [destroy, flush, switch, writeBackup, hb, hc] using h
  | cons b bs =>
      cases hc : f.cur with
      | nil => cases lastRound <;> simpa [destroy, flush, switch, writeBackup, hb, hc] using h
      | cons c cs' =>
          cases lastRound with
          | true => simpa [destroy, flush, switch, writeBackup, hb, hc] using h
          | false =>
              -- the backup cache is cleared without having been written
              have hne : encode (b :: bs) ≠ [] := encode_ne_nil (by simp)
              simp [destroy, flush, switch, writeBackup, hb, hc, ← h, hne]

/-- **The writer loses, duplicates and reorders nothing** in an interleaving
whose appends find the backup cache flushed when they need it: at every moment
the file holds a prefix of the appended commands, and after the destructor it
holds all of them, exactly when the destructor does not find two non-empty
caches and no last round. -/
theorem writer_exact (cacheSize : Nat) (events : List Event)
    (hfits : Guarded step StepFits (new cacheSize) events) :
    (∀ before after, events = before ++ after →
      (run (new cacheSize) before).file <+: encode (appended events)) ∧
    (∀ lastRound, ((run (new cacheSize) events).destroy lastRound).file
        = encode (appended events) ↔
      ((run (new cacheSize) events).backup ≠ [] → (run (new cacheSize) events).cur ≠ [] →
        lastRound = true)) := by
  constructor
  · rintro before after rfl
    have h := run_inOrder (Guarded.take before after hfits)
    unfold InOrder at h
    rw [appended_append, encode_append, ← h, List.append_assoc, List.append_assoc]
    exact List.prefix_append _ _
  · intro lastRound
    exact destroy_file_iff (run_inOrder hfits) lastRound

/-- `del` of one key, as the server logs it. -/
def delCommand (key : Bytes) : CommandCache := .ofArgv [ascii "del", key]

theorem writer_exact_with_rounds :
    (∀ before after,
      [.append (delCommand [97]), .append (delCommand [98]), .round, .append (delCommand [99])]
          = before ++ after →
      (run (new 1) before).file
        <+: encode [delCommand [97], delCommand [98], delCommand [99]]) ∧
    (∀ lastRound, ((run (new 1) [.append (delCommand [97]), .append (delCommand [98]), .round,
        .append (delCommand [99])]).destroy lastRound).file
        = encode [delCommand [97], delCommand [98], delCommand [99]] ↔
      ((run (new 1) [.append (delCommand [97]), .append (delCommand [98]), .round,
          .append (delCommand [99])]).backup ≠ [] →
        (run (new 1) [.append (delCommand [97]), .append (delCommand [98]), .round,
          .append (delCommand [99])]).cur ≠ [] → lastRound = true)) :=
  writer_exact 1
    [.append (delCommand [97]), .append (delCommand [98]), .round, .append (delCommand [99])]
    ⟨fun h => absurd h (by decide), fun _ => rfl, trivial, fun _ => rfl, trivial⟩

/-- With room for one command: two appends and a destructor whose worker is past
its last flush lose the first command; a third append before the first round
makes the second command the first one in the file. -/
theorem writer_loses_and_reorders :
    ((run (new 1) [.append (delCommand [97]), .append (delCommand [98])]).destroy false).file
      ≠ encode [delCommand [97], delCommand [98]] ∧
    ¬ (run (new 1) [.append (delCommand [97]), .append (delCommand [98]),
        .append (delCommand [99]), .round]).file
      <+: encode [delCommand [97], delCommand [98], delCommand [99]] := by
  constructor
  · decide
  · decide

end LiteKV.AppendableFile
