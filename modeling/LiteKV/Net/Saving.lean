/-
LiteKV.Net.Saving — `bgsave`: `LiteKVBackgroundSave` and `LiteKVSave` of
`src/lkvdb.cpp`, and the files they write.

A child has the store as it was when the child was forked. It writes the dump
under another name, `tmp_` and the name of the dump, and then renames it; until
then the old dump stays. The code does not look at the results of its writes,
nor whether another child is at work ("TODO, we need to check here if there is
already a background saving process running").

Renaming a file does not close it, so a name leads to a number and the number to
the content. A write that fails leaves its bytes in the buffer of `ofs`, and
`ofs.close()` writes that buffer out once more, behind whatever part of it the
failed write has left in the file. What else `exit` does in the child is not
modelled; that it has the parent's descriptors is in `LiteKV.Net.EventLoop`.
-/
import LiteKV.ExpirationTheorems
import LiteKV.LkvdbTheorems
import LiteKV.Lib.Run

namespace LiteKV

open Lib.Run

/-! ## Files -/

/-- What each name leads to, and what is in each file. -/
structure Disk where
  names : Bytes → Option Nat
  data : Nat → Bytes
  /-- The number of the next new file. -/
  next : Nat

namespace Disk

/-- The content of the file of a name. -/
def read (d : Disk) (name : Bytes) : Option Bytes := (d.names name).map d.data

/-- `open` of a file to write it anew: `trunc | out`. -/
def openTrunc (d : Disk) (name : Bytes) : Disk × Nat :=
  match d.names name with
  | some i => ({ d with data := Function.update d.data i [] }, i)
  | none =>
      (⟨Function.update d.names name (some d.next), Function.update d.data d.next [], d.next + 1⟩,
        d.next)

/-- A write at a place of a file; a gap in front of it is filled with zeros. -/
def write (d : Disk) (i pos : Nat) (bytes : Bytes) : Disk :=
  let old := d.data i
  let front := old.take pos ++ List.replicate (pos - old.length) 0
  { d with data := Function.update d.data i (front ++ bytes ++ old.drop (pos + bytes.length)) }

/-- `rename`, when there is a file of the first name. -/
def rename (d : Disk) (src dst : Bytes) : Option Disk :=
  (d.names src).map fun i =>
    { d with names := Function.update (Function.update d.names src none) dst (some i) }

/-- `unlink`. -/
def unlink (d : Disk) (name : Bytes) : Disk :=
  { d with names := Function.update d.names name none }

end Disk

/-! ## A child -/

/-- A child in `LiteKVSave`. -/
structure Child where
  /-- What it writes: the header and `buf`. -/
  bytes : Bytes
  /-- The file that `ofs` has open. -/
  file : Option Nat
  /-- Where `ofs` is in the file: how much of `bytes` is written, while no write has failed. -/
  pos : Nat
  /-- A write has failed. -/
  bad : Bool

/-- What a child does, or what happens to it. -/
inductive Child.Act where
  | openFile (ok : Bool)
  | write (n : Nat)
  | writeFails
  /-- What `ofs.close()` still writes after a failed write; the buffer of `ofs` decides it. -/
  | flushes (bytes : Bytes)
  | rename (ok : Bool)
  | killed

/-- `tmp_dst` of `LiteKVSave`. -/
def tmpDst (dst : Bytes) : Bytes := ascii "tmp_" ++ dst

namespace Child

/-- One step of `LiteKVSave`; without a child when it has exited. -/
def act (dst : Bytes) (d : Disk) (c : Child) : Act → Disk × Option Child
  | .openFile ok =>
      match c.file with
      | some _ => (d, some c)
      | none =>
          if ok then
            let r := d.openTrunc (tmpDst dst)
            (r.1, some { c with file := some r.2 })
          else (d, none)
  | .write n =>
      match c.file with
      | none => (d, some c)
      | some i =>
          if c.bad then (d, some c)
          else
            let bytes := (c.bytes.drop c.pos).take n
            (d.write i c.pos bytes, some { c with pos := c.pos + bytes.length })
  | .writeFails => (d, some { c with bad := c.bad || c.file.isSome })
  | .flushes bytes =>
      match c.file with
      | none => (d, some c)
      | some i =>
          if c.bad then (d.write i c.pos bytes, some { c with pos := c.pos + bytes.length })
          else (d, some c)
  | .rename ok =>
      -- `ofs.close()` is done, whatever has become of the writes
      if c.file.isSome && (c.bad || c.pos = c.bytes.length) then
        match (if ok then d.rename (tmpDst dst) dst else none) with
        | some d' => (d', none)
        | none => (d.unlink (tmpDst dst), none)
      else (d, some c)
  | .killed => (d, none)

end Child

/-! ## The process and its children -/

/-- What a dump of the store is. -/
def Engine.dump (s : Engine) (order : IterationOrder s.holder) : Bytes :=
  liteKVSave (s.holder.snapshot order s.expiresCore s.tev)

/-- The process, its children by their pid, and the files. -/
structure Saving where
  engine : Engine
  disk : Disk
  child : Nat → Option Child

/-- What happens to them. -/
inductive SavingEvent where
  | serve (ev : Event)
  /-- `fork` is the pid of the child, or nothing where it fails. -/
  | bgsave (fork : Option Nat) (order : ∀ h, IterationOrder h)
  | child (pid : Nat) (act : Child.Act)

namespace Saving

/-- `LiteKVBackgroundSave`. -/
def liteKVBackgroundSave (dst : Bytes) (sv : Saving) (fork : Option Nat)
    (order : ∀ h, IterationOrder h) : Saving × Bool :=
  if dst = [] then (sv, false)
  else
    match fork with
    | none => (sv, false)
    | some pid =>
        let c : Child := ⟨sv.engine.dump (order _), none, 0, false⟩
        ({ sv with child := Function.update sv.child pid (some c) }, true)

/-- One event. -/
def step (dst : Bytes) (sv : Saving) : SavingEvent → Saving
  | .serve ev => { sv with engine := sv.engine.step ev }
  | .bgsave fork order => (liteKVBackgroundSave dst sv fork order).1
  | .child pid act =>
      match sv.child pid with
      | none => sv
      | some c =>
          let r := c.act dst sv.disk act
          { sv with disk := r.1, child := Function.update sv.child pid r.2 }

/-- A run of events. -/
def run (dst : Bytes) (sv : Saving) (events : List SavingEvent) : Saving :=
  events.foldl (step dst) sv

/-- No child is at work when `bgsave` is called. -/
def Alone (sv : Saving) : SavingEvent → Prop
  | .bgsave _ _ => ∀ pid, sv.child pid = none
  | _ => True

/-- The store that is dumped can be loaded. -/
def Loads (sv : Saving) : SavingEvent → Prop
  | .bgsave _ _ => sv.engine.holder.FitsSize ∧
      ∀ k v, sv.engine.holder.view k = some v → v.Loadable
  | _ => True

/-- The process serves, or a child writes as much as `n` says. -/
def writing (pid : Nat) (n : Nat) : SavingEvent → Prop
  | .serve _ => n = 0
  | .child p (.write m) => p = pid ∧ n = m
  | _ => False

/-- No write has failed. -/
def Whole (events : List SavingEvent) : Prop := ∀ pid, .child pid .writeFails ∉ events

end Saving

/-- The temporary file is not the dump. -/
structure Disk.Apart (dst : Bytes) (d : Disk) : Prop where
  apart : ∀ i, d.names (tmpDst dst) = some i → d.names dst ≠ some i
  old : ∀ name i, d.names name = some i → i < d.next

end LiteKV
