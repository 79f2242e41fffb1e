/-
LiteKV.Net.Restart — a process, its AOF, and the process that comes after it:
`main.cpp` with `src/persistence.cpp` and `src/net/commands.cpp`.

`main` opens the file for appending, gives the commands that are in it to
`HandleCommand` with `sync = false` and serves. What it serves is appended
to the caches, which the worker writes to the file. A process ends in one of
two ways: `SigIntHandler` destroys the `AppendableFile`, or it is killed and
the caches are gone. The next one starts from the file.

A step does at most one `Append`, since the worker may flush between any two
of them: the eviction in front of a command is a step of its own.

`Store.redo` is the meaning of the file, over the abstract store. It says
nothing about expirations, whose meaning depends on the clock: the theorems
are about a set of keys that no command gives an expiration to.
-/
import Mathlib.Data.Set.Function
import LiteKV.PersistenceTheorems
import LiteKV.Net.LogTheorems
import LiteKV.Net.ReplayTheorems

namespace LiteKV

/-- A process with an AOF. -/
structure Durable where
  engine : Engine
  aof : AppendableFile

/-- What a new process meets: the size of its caches, and what each command of
the file meets when it is replayed. -/
structure Boot where
  cacheSize : Nat
  ctx : Nat → Ctx

namespace Durable

/-- The engine after a step, and `appending_->Append` of what the step logged. -/
def appendLogged (d : Durable) (s : Engine) : Durable :=
  ⟨s, (s.log.drop d.engine.log.length).foldl (fun f argv => f.append (.ofArgv argv)) d.aof⟩

/-- `ReadFromScratch(engine, loop)`, on the commands that are read. -/
def readFromScratch : (Nat → Ctx) → Durable → List CommandCache → Durable
  | _, d, [] => d
  | ctx, d, cache :: caches => readFromScratch (fun i => ctx (i + 1))
      (d.appendLogged (d.engine.handleCommand (ctx 0) cache.argv).1) caches

/-- `main`, up to `loop.Loop()`. -/
def start (boot : Boot) (file : Bytes) : Durable :=
  readFromScratch boot.ctx ⟨.new, ⟨boot.cacheSize, [], [], file⟩⟩
    (commonOperation restoreAofReadBufSize file)

/-- What happens to a process, and between two processes. -/
inductive Event where
  /-- The eviction in front of a command. -/
  | pressure (ctx : Ctx)
  /-- A command, behind that eviction. -/
  | command (ctx : Ctx) (argv : List Bytes)
  | timers (now : Nat) (stale : Bytes)
  /-- A turn of the worker. -/
  | round
  /-- `SigIntHandler`, and a new process. -/
  | stop (lastRound : Bool) (boot : Boot)
  /-- The process is killed between two turns of the worker, and a new one
  starts. -/
  | crash (boot : Boot)

/-- One event. -/
def step (d : Durable) : Event → Durable
  | .pressure ctx => d.appendLogged (d.engine.lazyEviction ctx)
  | .command ctx argv =>
      d.appendLogged (d.engine.handleCommand { ctx with pressure := none } argv).1
  | .timers now stale => { d with engine := d.engine.handleFiredTimeEvent now stale }
  | .round => { d with aof := d.aof.flush }
  | .stop lastRound boot => start boot (d.aof.destroy lastRound).file
  | .crash boot => start boot d.aof.file

/-- The first process, with an empty file, and what happens from then on. -/
def run (boot : Boot) (events : List Event) : Durable := events.foldl step (start boot [])

/-- The bytes of all that is in the file or on its way there. -/
def written (d : Durable) : Bytes := d.aof.file ++ AppendableFile.encode (d.aof.backup ++ d.aof.cur)

end Durable

/-! ## The meaning of the file -/

/-- What a logged command does to a store, apart from expirations. -/
def Store.redo (m : Store) (argv : List Bytes) : Store :=
  match opcodeOf argv with
  | none => m
  | some op =>
      if op = .del then
        fun k => if k ∈ (argv.drop 1).map StaticString.ofStdString then none else m k
      else if op.single then
        Function.update m (keyOf argv) (op.effect argv (m (keyOf argv))).1
      else m

/-- The store that a list of commands leads to. -/
def Store.ofLog (log : List (List Bytes)) : Store := log.foldl Store.redo fun _ => none

/-! ## Runs in which the file is complete for some keys -/

/-- The command gives no key of `K` an expiration, and logs what it does to the
keys of `K`. -/
def FaithfulOn (K : Set Key) (s : Engine) (ctx : Ctx) (argv : List Bytes) : Prop :=
  ∀ op, opcodeOf argv = some op → match op with
    | .evict => ¬ Misreports s ctx .evict (lowered argv)
    | .expire | .expireat => keyOf argv ∉ K
    | op => keyOf argv ∈ K → ¬ PopsEmpty op (lowered argv) (s.holder.view (keyOf argv))

/-- The file is replayed without logging, and with enough memory. -/
def Boot.Replaying (boot : Boot) : Prop := ∀ i, Replays (boot.ctx i)

namespace Durable

/-- What a step logs fits the caches and the format. -/
def Appends (d : Durable) (s : Engine) : Prop :=
  ∀ argv ∈ s.log.drop d.engine.log.length,
    AppendableFile.StepFits d.aof (.append (.ofArgv argv)) ∧
      argv.length < 2 ^ 63 ∧ ∀ a ∈ argv, a.length < 2 ^ 63

instance (d : Durable) (s : Engine) : Decidable (d.Appends s) :=
  have (f : AppendableFile) (c : CommandCache) :
      Decidable (AppendableFile.StepFits f (.append c)) :=
    inferInstanceAs (Decidable (f.cur.length ≥ f.cacheMaxSize → f.backup = []))
  inferInstanceAs (Decidable (∀ argv ∈ s.log.drop d.engine.log.length,
    AppendableFile.StepFits d.aof (.append (.ofArgv argv)) ∧
      argv.length < 2 ^ 63 ∧ ∀ a ∈ argv, a.length < 2 ^ 63))

/-- The file stays complete for the keys of `K`. -/
def Fits (K : Set Key) (d : Durable) : Event → Prop
  | .pressure ctx =>
      (ctx.pressure ≠ none → ctx.policy = .lru) ∧ d.Appends (d.engine.lazyEviction ctx)
  | .command ctx argv => ctx.sync = true ∧ FaithfulOn K d.engine ctx argv ∧
      d.Appends (d.engine.handleCommand { ctx with pressure := none } argv).1
  | .timers _ _ => True
  | .round => True
  | .stop lastRound boot =>
      (d.aof.backup ≠ [] → d.aof.cur ≠ [] → lastRound = true) ∧ boot.Replaying
  | .crash boot => boot.Replaying

end Durable

end LiteKV
