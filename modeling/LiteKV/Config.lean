/-
LiteKV.Config — reading the configuration file, the constructor of
`src/config.cpp`.

The constructor goes through the file line by line, but it reads the words
of a line from one string stream, into two strings, that all lines share.
What a line leaves unread is still in the stream when the next line is
written behind it, and a word that is not there leaves its string as it was.
Both are part of the state here.

The extraction is that of the C++11 standard: white space is skipped, and
at the end of the stream the string is not touched.

`initItem` is what `Init` does with one item of the table. The item
`lru-trigger-ratio` is a `double` and is left out, and so is what is printed.
-/
import LiteKV.Num

namespace LiteKV

/-- `configs`, the table that is passed to `Init`. -/
abbrev ConfigTable := Bytes → Option Bytes

/-- The variables of the loop: what `ss` still holds, `first` and `second`. -/
structure ConfigReader where
  unread : Bytes
  first : Bytes
  second : Bytes
  configs : ConfigTable

namespace ConfigReader

def new : ConfigReader := ⟨[], [], [], fun _ => none⟩

/-- `ss >> token`: the token, which keeps its value at the end of the stream,
and what is unread then. -/
def extract (unread token : Bytes) : Bytes × Bytes :=
  let rest := unread.dropWhile isSpace
  if rest = [] then (token, [])
  else (rest.takeWhile fun c => !isSpace c, rest.dropWhile fun c => !isSpace c)

/-- `line.empty() || line[0] == '#'`. -/
def skips (line : Bytes) : Bool := line.isEmpty || line.head? == some 35

/-- The body of the loop. -/
def readLine (r : ConfigReader) (line : Bytes) : ConfigReader :=
  if skips line then r
  else
    let a := extract (r.unread ++ line) r.first
    if a.1 = [] then { r with unread := a.2 }
    else
      let b := extract a.2 r.second
      if b.1 = [] then { r with unread := b.2, first := a.1 }
      else
        let first := a.1.map toLower
        let second := b.1.map toLower
        ⟨b.2, first, second, Function.update r.configs first (some second)⟩

/-- The loop. -/
def readLines (lines : List Bytes) : ConfigReader := lines.foldl readLine new

end ConfigReader

/-- What `getline` gives until the end of the file; a file that ends with a line
end gives an empty line in the end. -/
def fileLines : (content : Bytes) → List Bytes
  | [] => [[]]
  | c :: content =>
      if c = 10 then [] :: fileLines content else (fileLines content).modifyHead (c :: ·)

/-- The table of a file. -/
def configTable (content : Bytes) : ConfigTable :=
  (ConfigReader.readLines (fileLines content)).configs

/-! ## `ValidateIpv4` -/

/-- `std::getline(ss, split, delim)`: `split`, and what `ss` still holds; `none`
is a stream with nothing in it. -/
def getline (delim : UInt8) (ss : Bytes) : Option (Bytes × Bytes) :=
  if ss = [] then none
  else some (ss.takeWhile (· ≠ delim), (ss.dropWhile (· ≠ delim)).drop 1)

/-- The loop of `ValidateIpv4`: `cnt`, which is a `char`, in the end; `none` is a
loop that has not ended. -/
def ipv4Loop : (fuel : Nat) → (ss : Bytes) → (cnt : Int8) → Option Int8
  | 0, _, _ => none
  | fuel + 1, ss, cnt =>
      match getline 46 ss with
      | none => some cnt
      | some (split, ss) =>
          match canConvertToInt32 split with
          | none => some cnt
          | some val => if 0 > val ∨ val > 255 then some cnt else ipv4Loop fuel ss (cnt + 1)

/-- `ValidateIpv4`; every turn of the loop takes a byte. -/
def validateIpv4 (ip : Bytes) : Bool := ipv4Loop (ip.length + 1) ip 0 == some 4

/-! ## `Init` -/

/-- `Config`. -/
structure Config where
  ip : Bytes
  port : Int
  appendonlyEnabled : Bool
  dumpfile : Bytes
  dumpCachesize : Int
  dumpFlushInterval : Nat
  lkvdbDumpfile : Bytes
  lruEnabled : Bool
  maxMemoryLimit : UInt64
  keepaliveInterval : Int
  keepaliveCnt : Int

namespace Config

/-- The `CONFIG_DEFAULT_` values. -/
def default : Config where
  ip := ascii "127.0.0.1"
  port := 9527
  appendonlyEnabled := false
  dumpfile := ascii "dump.aof"
  dumpCachesize := 1024
  dumpFlushInterval := 90
  lkvdbDumpfile := ascii "dump.lkvdb"
  lruEnabled := false
  maxMemoryLimit := 2048
  keepaliveInterval := 100
  keepaliveCnt := 3

/-- A number outside of the bounds is treated as the default. -/
def bounded (lo hi dflt n : Int) : Int := if n < lo ∨ n > hi then dflt else n

/-- The body of the loop of `Init`; `none` is the exception of `std::stoll`. -/
def initItem (c : Config) (key value : Bytes) : Option Config :=
  if key.isEmpty || key.head? == some 35 then some c
  else if key = ascii "ip" then
    some (if validateIpv4 value then { c with ip := value } else c)
  else if key = ascii "port" then
    some { c with port := (canConvertToInt32 value).getD default.port }
  else if key = ascii "appendonly" then
    some { c with appendonlyEnabled := (canConvertToInt32 value).getD 0 != 0 }
  else if key = ascii "dumpfile" then some { c with dumpfile := value }
  else if key = ascii "dump-cachesize" then
    some { c with dumpCachesize := (canConvertToInt32 value).getD default.dumpCachesize }
  else if key = ascii "dump-flush-interval" then
    some { c with dumpFlushInterval := (canConvertToUInt64 value).getD default.dumpFlushInterval }
  else if key = ascii "lkvdb-dumpfile" then some { c with lkvdbDumpfile := value }
  else if key = ascii "lru-enable" then
    some { c with lruEnabled := (canConvertToInt32 value).getD 0 != 0 }
  else if key = ascii "max-memory-limit" then
    (stoll value).map fun num => { c with maxMemoryLimit := UInt64.ofInt num }
  else if key = ascii "keepalive-interval" then
    let interval := (canConvertToInt32 value).getD default.keepaliveInterval
    some { c with keepaliveInterval := bounded 30 100 default.keepaliveInterval interval }
  else if key = ascii "keepalive-cnt" then
    let cnt := (canConvertToInt32 value).getD default.keepaliveCnt
    some { c with keepaliveCnt := bounded 1 15 default.keepaliveCnt cnt }
  else some c

end Config

end LiteKV
