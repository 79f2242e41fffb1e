/-
LiteKV.Net.Protocol — `TryParseFromBuffer` of `src/net/protocol.cpp` and the
loop of `Server::ReadProc` around it.

The parser starts over at the first readable byte on every attempt and
advances an index of its own, `cur_idx`; the buffer is only moved when a
whole request was read. What a failed attempt leaves behind is the cache:
most early returns clear it, and the two that wait for the next argument or
for the first one do not.

`err` is set, never reset, by the parser, and starts at `false` in each
`ReadProc`.
-/
import LiteKV.Net.Buffer
import LiteKV.Net.CommandCache

namespace LiteKV

/-- `ReadStdStringFrom(cur_idx, 2) != "\r\n"`. -/
def Buffer.noCrlf (b : Buffer) (curIdx : Nat) : Bool := b.readStdStringFrom curIdx 2 ≠ crlf

/-- `ReadableBytes() - cur_idx`. -/
def Buffer.ahead (b : Buffer) (curIdx : Nat) : Nat := b.readable.length - curIdx

/-- What `TryParseFromBuffer` reads and writes. -/
structure ParseState where
  buffer : Buffer
  cache : CommandCache
  err : Bool

namespace ParseState

/-- `cache.Clear(); return false`, after `err` was set if `bad`. -/
def giveUp (s : ParseState) (bad : Bool) : ParseState :=
  { s with cache := .clear, err := s.err || bad }

/-- `(size_t) v` of a `long`. -/
def toSizeT (v : Int) : Nat := (v % 2 ^ 64).toNat

/-- `while (n_para > 0)`: the state at the end, and `cur_idx` if the loop was
left through its condition. -/
def parseArgs : (nPara : Nat) → (curIdx : Nat) → ParseState → ParseState × Option Nat
  | 0, curIdx, s => (s, some curIdx)
  | nPara + 1, curIdx, s =>
      if curIdx ≥ s.buffer.readable.length then (s, none)   -- not enough data
      else if s.buffer.readableCharacterAt curIdx ≠ 36 then
        (s.giveUp (s.buffer.readable.length > curIdx), none)
      else
        let num := s.buffer.readLongFrom (curIdx + 1)
        if num.2 = 0 then (s.giveUp (s.buffer.ahead (curIdx + 1) > 0), none)
        else
          let lenEnd := curIdx + 1 + num.2
          if s.buffer.noCrlf lenEnd then (s.giveUp (s.buffer.ahead lenEnd ≥ 2), none)
          else
            let argLen := toSizeT num.1
            let arg := s.buffer.readStdStringFrom (lenEnd + 2) argLen
            let s := { s with cache := { s.cache with argv := s.cache.argv ++ [arg] } }
            if arg.length ≠ argLen then (s.giveUp (s.buffer.ahead (lenEnd + 2) ≥ argLen), none)
            else
              let argEnd := lenEnd + 2 + argLen
              if s.buffer.noCrlf argEnd then (s.giveUp (s.buffer.ahead argEnd ≥ 2), none)
              else parseArgs nPara (argEnd + 2) s

/-- What follows the loop of `TryParseFromBuffer`. -/
def finish : ParseState × Option Nat → ParseState × Bool
  | (s, none) => (s, false)
  | (s, some curIdx) =>
      if s.cache.argc ≠ s.cache.argv.length then ({ s with cache := .clear }, false)
      else
        ({ s with
            buffer := s.buffer.readerIdxForward curIdx
            cache := { s.cache with inited := true } }, true)

/-- `TryParseFromBuffer`. -/
def tryParseFromBuffer (s : ParseState) : ParseState × Bool :=
  if s.buffer.readable.length ≤ 0 then (s, false)
  else if s.buffer.readStdString 1 ≠ [42] then
    ({ s with buffer := s.buffer.reset, err := s.err || s.buffer.readable.length ≥ 1 }, false)
  else
    let num := s.buffer.readLongFrom 1
    if num.2 = 0 then (s.giveUp (s.buffer.readable.length > 0), false)
    else
      let s := { s with cache := { s.cache with argc := toSizeT num.1 } }
      if s.buffer.noCrlf (1 + num.2) then (s.giveUp (s.buffer.ahead (1 + num.2) ≥ 2), false)
      else
        finish (parseArgs num.1.toNat (1 + num.2 + 2) s)

end ParseState

/-- What a session keeps between two reads. -/
structure ReadState where
  buffer : Buffer
  cache : CommandCache

/-- A new session. -/
def ReadState.new : ReadState := ⟨.new, .clear⟩

/-- The parsing loop of `ReadProc`: the requests handed to `HandleCommand`, and
the state it stops in. Every turn but the last consumes a byte, so the number
of readable bytes bounds the turns. -/
def parseLoop : (fuel : Nat) → ParseState → List CommandCache × ParseState
  | 0, s => ([], s)
  | fuel + 1, s =>
      let r := s.tryParseFromBuffer
      if r.2 && !r.1.err then
        let rest := parseLoop fuel { r.1 with cache := .clear }
        (r.1.cache :: rest.1, rest.2)
      else ([], r.1)

/-- `ReadProc` on one chunk: the requests dispatched, and `err`. -/
def readProc (s : ReadState) (chunk : Bytes) : ReadState × (List CommandCache × Bool) :=
  let buffer := s.buffer.append chunk
  let r := parseLoop (buffer.readable.length + 1) ⟨buffer, s.cache, false⟩
  (⟨r.2.buffer, r.2.cache⟩, (r.1, r.2.err))

end LiteKV
