/-
LiteKV.Persistence — the double-buffered writer of `src/persistence.cpp`, and
the loop that reads its file back.

The atomic steps are the main thread's `Append`, one round of the worker
(the `stopped_` check, the wake-up, `Flush` under the lock) and the
destructor. The destructor joins the worker. Whether the worker still does
a round then depends on where it is when `stopped_` is set: waiting, or
past the check, it wakes up and flushes once more; at the check, it leaves.
That is the `Bool` of `destroy`. The file always opens.

`CommonOperation` reads the file block by block into a `Buffer` and parses
what it can behind each block, and once more behind the last. Unlike
`ReadProc` it does not look at `err`. The model gives the commands in the
order in which `whattodo` is called on them.
-/
import LiteKV.Net.Protocol

namespace LiteKV

/-- `AppendableFile`: the two caches and the bytes written so far. -/
structure AppendableFile where
  cacheMaxSize : Nat
  cur : List CommandCache
  backup : List CommandCache
  file : Bytes

namespace AppendableFile

/-- The constructor, on an empty file. -/
def new (cacheSize : Nat) : AppendableFile := ⟨cacheSize, [], [], []⟩

/-- What writing a cache to the file gives. -/
def encode (caches : List CommandCache) : Bytes :=
  (caches.map CommandCache.toProtocolString).flatten

/-- `Switch`. -/
def switch (f : AppendableFile) : AppendableFile := { f with cur := f.backup, backup := f.cur }

/-- `Append`. -/
def append (f : AppendableFile) (cache : CommandCache) : AppendableFile :=
  let f := if f.cur.length ≥ f.cacheMaxSize then f.switch else f
  { f with cur := f.cur ++ [cache] }

/-- The second half of `Flush`: the backup cache goes to the file. -/
def writeBackup (f : AppendableFile) : AppendableFile :=
  { f with file := f.file ++ encode f.backup, backup := [] }

/-- `Flush`. -/
def flush (f : AppendableFile) : AppendableFile :=
  if f.backup.isEmpty then
    if f.cur.isEmpty then f else f.switch.writeBackup
  else f.writeBackup

/-- `~AppendableFile`: join the worker, `Switch`, `Flush`. -/
def destroy (f : AppendableFile) (lastRound : Bool) : AppendableFile :=
  let f := if lastRound then f.flush else f
  f.switch.flush

/-- What happens before the destructor. -/
inductive Event where
  | append (cache : CommandCache)
  | round
  deriving DecidableEq

/-- One step. -/
def step (f : AppendableFile) : Event → AppendableFile
  | .append c => f.append c
  | .round => f.flush

/-- The steps of an interleaving, one after the other. -/
def run (f : AppendableFile) (events : List Event) : AppendableFile := events.foldl step f

/-- The commands appended so far and in one step more. -/
def record (cs : List CommandCache) : Event → List CommandCache
  | .append c => cs ++ [c]
  | .round => cs

/-- The commands appended in an interleaving, in order. -/
def appended (events : List Event) : List CommandCache := events.foldl record []

end AppendableFile

/-! ## Reading the file -/

/-- `while (TryParseFromBuffer(buffer, cache, err))`: the commands given to
`whattodo`, and the state it stops in. As in `parseLoop` the number of readable
bytes bounds the turns. -/
def drainLoop : (fuel : Nat) → ParseState → List CommandCache × ParseState
  | 0, s => ([], s)
  | fuel + 1, s =>
      let r := s.tryParseFromBuffer
      if r.2 then
        let rest := drainLoop fuel { r.1 with cache := .clear }
        (r.1.cache :: rest.1, rest.2)
      else ([], r.1)

/-- All the turns of the loop. -/
def drain (s : ParseState) : List CommandCache × ParseState :=
  drainLoop (s.buffer.readable.length + 1) s

/-- One block that was read: `bool err = false` and the loop. -/
def readBlock (s : ParseState) (block : Bytes) : List CommandCache × ParseState :=
  drain ⟨s.buffer.append block, s.cache, false⟩

/-- `while (!ifs.eof())`, on the bytes of the file that are still to be read.
`read` sets `eof` when it gets fewer bytes than it asked for. Every turn but
the last one reads a byte. -/
def blockLoop (blockSize : Nat) :
    (fuel : Nat) → Bytes → ParseState → List CommandCache × ParseState
  | 0, _, s => ([], s)
  | fuel + 1, file, s =>
      let block := file.take blockSize
      if block.isEmpty then ([], s)
      else
        let r := readBlock s block
        if block.length < blockSize then r
        else
          let rest := blockLoop blockSize fuel (file.drop blockSize) r.2
          (r.1 ++ rest.1, rest.2)

/-- `RESTORE_AOF_READ_BUF_SIZE`. -/
def restoreAofReadBufSize : Nat := 65536

/-- `CommonOperation`, with the size of its blocks. -/
def commonOperation (blockSize : Nat) (file : Bytes) : List CommandCache :=
  let r := blockLoop blockSize (file.length + 1) file ⟨.new, .clear, false⟩
  r.1 ++ if r.2.buffer.readableBytes > 0 then (drain r.2).1 else []

end LiteKV
