/-
LiteKV.Net.CommandCache — a request, `src/net/net.h`.

`argc` is what the header line announced and `argv` what has been read so
far; a complete request has `argc = argv.size()`. `ToProtocolString` writes
`argc`, not the number of arguments it lists.
-/
import LiteKV.Num

namespace LiteKV

/-- `"\r\n"`. -/
def crlf : Bytes := [13, 10]

/-- `CommandCache`. -/
structure CommandCache where
  inited : Bool
  argc : Nat
  argv : List Bytes
  deriving DecidableEq, Repr

namespace CommandCache

/-- A default-constructed or cleared cache. -/
def clear : CommandCache := ⟨false, 0, []⟩

/-- A complete request with the given arguments. -/
def ofArgv (argv : List Bytes) : CommandCache := ⟨true, argv.length, argv⟩

/-- One argument: its length, then its bytes. -/
def itemString (item : Bytes) : Bytes :=
  36 :: natToString item.length ++ crlf ++ item ++ crlf

/-- The header line and the arguments of `ToProtocolString`. -/
def protocolString (argc : Nat) (argv : List Bytes) : Bytes :=
  42 :: natToString argc ++ crlf ++ (argv.map itemString).flatten

/-- `ToProtocolString`. The source writes an empty item as `"$0\r\n\r\n"`,
which is what `itemString` gives for it. -/
def toProtocolString (c : CommandCache) : Bytes := protocolString c.argc c.argv

example : itemString [] = ascii "$0\r\n\r\n" := by decide

end CommandCache

end LiteKV
