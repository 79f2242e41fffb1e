/-
LiteKV.Hash — `src/hash.h`, `src/rehashable.h`, `src/hashdict.*` and
`src/hashset.*`: the incrementally rehashed dictionary and set.

A table is the list of its chains, so `slot_size_` is its length and a
chain is the pairs met following `next` from the slot. A set entry has no
value: `HashSetImpl` is a table of `Unit` values. The four functions that
put an entry into a table (`UpdateKV`, `Add` and the two `AddEntry`) have
one body and differ in what they do when the key is already there; that
difference is a `DupPolicy`.

`cur_ht_` is never null between two calls (it is allocated by the
constructor and replaced by the backup table in one go), so only
`backup_ht_` is optional. `LoadFactor() > max_load_factor_` compares two
`double`s; with the load factor 1.0 it is `count_ > slot_size_`.
-/
import LiteKV.Str
import LiteKV.Lib.Buckets

namespace LiteKV

open Lib Lib.AssocList Lib.Buckets

/-- What adding an entry answers. -/
inductive Added where
  | undefined
  | newAdded
  | updated
  | existed
  deriving DecidableEq, Repr

/-- `kGrowFactor`. -/
abbrev kGrowFactor : Nat := 2

/-- What happens to the entry of a key that is added again. -/
structure DupPolicy (V : Type) where
  code : Added
  merge : (old new : V) → V

/-- `HashTable`: the value is reset. -/
def DupPolicy.dict : DupPolicy Bytes := ⟨.updated, fun _ new => new⟩

/-- `HashSetImpl`: nothing happens. -/
def DupPolicy.set : DupPolicy Unit := ⟨.existed, fun old _ => old⟩

/-- `HashStructBase<EntryType>`. -/
structure HashStructBase (V : Type) where
  table : List (List (Bytes × V))
  count : Nat
  rehashingIdx : Option Nat

namespace HashStructBase

variable {V : Type}

/-- The constructor. -/
def new (initSize : Nat) : HashStructBase V := ⟨List.replicate initSize [], 0, none⟩

/-- `slot_size_`. -/
def slotSize (t : HashStructBase V) : Nat := t.table.length

/-- `CalculateSlotIndex`. -/
def calculateSlotIndex (t : HashStructBase V) (key : Bytes) : Nat := time33Hash key % t.slotSize

/-- `FindEntry`: the value of the first entry of the key's chain with that key. -/
def findEntry (t : HashStructBase V) (key : Bytes) : Option V :=
  AssocList.find? key (bucketAt t.table (t.calculateSlotIndex key))

/-- `CheckExists`. -/
def checkExists (t : HashStructBase V) (key : Bytes) : Bool := (t.findEntry key).isSome

/-- `AllEntries`: the chains in slot order. -/
def allEntries (t : HashStructBase V) : List (Bytes × V) :=
  if t.count = 0 then [] else t.table.flatten

/-- `AllKeys`. -/
def allKeys (t : HashStructBase V) : List Bytes :=
  if t.count = 0 then [] else keys t.table.flatten

/-- `AllValues`. -/
def allValues (t : HashStructBase V) : List V :=
  if t.count = 0 then [] else t.table.flatten.map Prod.snd

/-- `EraseKey`: `true` is `ERASED`. -/
def eraseKey (t : HashStructBase V) (key : Bytes) : HashStructBase V × Bool :=
  let i := t.calculateSlotIndex key
  let chain := bucketAt t.table i
  match AssocList.find? key chain with
  | some _ =>
      ({ t with table := t.table.set i (AssocList.erase key chain), count := t.count - 1 }, true)
  | none => (t, false)

/-- `HashTable::UpdateKV` and `HashTable::AddEntry` with `DupPolicy.dict`,
`HashSetImpl::Add` and `HashSetImpl::AddEntry` with `DupPolicy.set`: a new
entry goes to the head of its chain. -/
def place (p : DupPolicy V) (t : HashStructBase V) (key : Bytes) (val : V) :
    HashStructBase V × Added :=
  let i := t.calculateSlotIndex key
  let chain := bucketAt t.table i
  match t.findEntry key with
  | none =>
      ({ t with table := t.table.set i ((key, val) :: chain), count := t.count + 1 }, .newAdded)
  | some old => ({ t with table := t.table.set i (reset key (p.merge old val) chain) }, p.code)

/-- `rehashing_idx_ + 1`, the index being -1 when no rehash is going on. -/
def nextIdx (t : HashStructBase V) : Nat := (t.rehashingIdx.map (· + 1)).getD 0

/-- `StepRehashingIdx`: to the next occupied slot, or off. -/
def stepRehashingIdx (t : HashStructBase V) : HashStructBase V :=
  let next := (List.range t.slotSize).find? fun i =>
    t.nextIdx ≤ i && !(bucketAt t.table i).isEmpty
  { t with rehashingIdx := next }

/-- A slot is disconnected and its entries are no longer counted. -/
def detach (t : HashStructBase V) (i : Nat) : HashStructBase V :=
  { t with table := t.table.set i [], count := t.count - (bucketAt t.table i).length }

/-- `RehashDone`. -/
def rehashDone (t : HashStructBase V) : Bool := t.rehashingIdx.isNone

/-- `EnsureAllSlotsEmpty`. -/
def ensureAllSlotsEmpty (t : HashStructBase V) : Bool := t.table.all List.isEmpty

end HashStructBase

/-- `Rehashable<ImplType>`. -/
structure Rehashable (V : Type) where
  cur : HashStructBase V
  backup : Option (HashStructBase V)

namespace Rehashable

variable {V : Type}

/-- The constructor, `max_load_factor` being 1.0. -/
def new : Rehashable V := ⟨HashStructBase.new 16, none⟩

/-- `Count`. -/
def count (h : Rehashable V) : Nat := h.cur.count + (h.backup.map HashStructBase.count).getD 0

/-- `CheckNeedRehash`, which also starts a rehash. -/
def checkNeedRehash (h : Rehashable V) : Rehashable V × Bool :=
  match h.cur.rehashingIdx with
  | some _ => (h, true)
  | none =>
      if h.cur.count > h.cur.slotSize then ({ h with cur := h.cur.stepRehashingIdx }, true)
      else (h, false)

/-- The loop of `PerformRehash`: every entry of the slot goes to the backup. -/
def moveChain (p : DupPolicy V) (backup : HashStructBase V) (chain : List (Bytes × V)) :
    HashStructBase V :=
  chain.foldl (fun b e => (b.place p e.1 e.2).1) backup

/-- `PerformRehash`; `true` when the tables were swapped. -/
def performRehash (p : DupPolicy V) (h : Rehashable V) : Rehashable V × Bool :=
  let backup := h.backup.getD (HashStructBase.new (h.cur.slotSize * kGrowFactor))
  let moved := match h.cur.rehashingIdx with
    | none => (h.cur, backup)
    | some i =>
        ((h.cur.detach i).stepRehashingIdx, moveChain p backup (bucketAt h.cur.table i))
  if moved.1.rehashDone && moved.1.ensureAllSlotsEmpty then (⟨moved.2, none⟩, true)
  else (⟨moved.1, some moved.2⟩, false)

/-- What every mutating call and `At` do first. -/
def rehash (p : DupPolicy V) (h : Rehashable V) : Rehashable V :=
  let r := h.checkNeedRehash
  if r.2 then (r.1.performRehash p).1 else r.1

/-- `Erase`: `true` is `ERASED`. -/
def erase (p : DupPolicy V) (h : Rehashable V) (key : Bytes) : Rehashable V × Bool :=
  let h := h.rehash p
  let r := h.cur.eraseKey key
  if r.2 then ({ h with cur := r.1 }, true)
  else match h.backup with
    | none => (h, false)
    | some b =>
        let rb := b.eraseKey key
        ({ h with backup := some rb.1 }, rb.2)

/-- The body of `HashDict::Update` and `HashSet::Insert`. -/
def put (p : DupPolicy V) (h : Rehashable V) (key : Bytes) (val : V) : Rehashable V × Added :=
  let h := h.rehash p
  if h.cur.rehashDone then
    let r := h.cur.place p key val
    ({ h with cur := r.1 }, r.2)
  else match h.cur.findEntry key with
    | some _ =>   -- still in the table that is being emptied
        let r := h.cur.place p key val
        ({ h with cur := r.1 }, r.2)
    | none => match h.backup with
        | some b =>
            let r := b.place p key val
            ({ h with backup := some r.1 }, r.2)
        | none => (h, .undefined)

/-- `CheckExists`. -/
def checkExists (h : Rehashable V) (key : Bytes) : Bool :=
  h.cur.checkExists key || (h.backup.map (·.checkExists key)).getD false

/-- `AllEntries`. -/
def allEntries (h : Rehashable V) : List (Bytes × V) :=
  if h.count = 0 then [] else h.cur.allEntries ++ (h.backup.map (·.allEntries)).getD []

/-- `AllKeys`. -/
def allKeys (h : Rehashable V) : List Bytes :=
  if h.count = 0 then [] else h.cur.allKeys ++ (h.backup.map (·.allKeys)).getD []

/-- `AllValues`. -/
def allValues (h : Rehashable V) : List V :=
  if h.count = 0 then [] else h.cur.allValues ++ (h.backup.map (·.allValues)).getD []

end Rehashable

/-- `HashDict`. -/
abbrev HashDict := Rehashable Bytes

namespace HashDict

/-- `Update`. -/
def update (h : HashDict) (key val : Bytes) : HashDict × Added := Rehashable.put .dict h key val

/-- `Erase`. -/
def erase (h : HashDict) (key : Bytes) : HashDict × Bool := Rehashable.erase .dict h key

/-- `At`; `none` is the exception. -/
def at_ (h : HashDict) (key : Bytes) : HashDict × Option Bytes :=
  let h := Rehashable.rehash .dict h
  (h, (h.cur.findEntry key).or (h.backup.bind (·.findEntry key)))

end HashDict

/-- `HashSet`. -/
abbrev HashSet := Rehashable Unit

namespace HashSet

/-- `Insert`. -/
def insert (h : HashSet) (item : Bytes) : HashSet × Added := Rehashable.put .set h item ()

/-- `Erase`. -/
def erase (h : HashSet) (key : Bytes) : HashSet × Bool := Rehashable.erase .set h key

end HashSet

end LiteKV
