/-
LiteKV.Net.TimeEvent — time events, `src/net/time_event.h` and
`src/net/time_event.cpp`.

`GetCurrentMs()` is the argument `now`; times are `uint64_t` milliseconds.
A `TimeEvent *` held elsewhere is the event's id, which no other event has.
What a callback does is decided where it runs: here it is only what the
lambda captured.
-/
import LiteKV.DList

namespace LiteKV

/-- The two lambdas the source passes as callbacks. -/
inductive Callback where
  /-- `[key, holder]` of `ExpireCommand`: the key's text, copied. -/
  | byValue (key : Bytes)
  /-- `[&key, &std_key, holder]` of `AddTimerEventToKey`: two references to
  variables of the loop that loaded the record. -/
  | byReference
  deriving DecidableEq

/-- `TimeEvent`. -/
structure TimeEvent where
  id : Nat
  when : Nat
  interval : Nat
  callback : Callback
  count : Int
  deriving DecidableEq

namespace TimeEvent

/-- `FireForever()`. -/
def fireForever (ev : TimeEvent) : Bool := ev.count < 0

/-- `CanFire()`. -/
def canFire (ev : TimeEvent) : Bool := ev.count > 0 || ev.count < 0

/-- `CannotFire()`. -/
def cannotFire (ev : TimeEvent) : Bool := ev.count == 0

/-- `Consume()`. -/
def consume (ev : TimeEvent) : TimeEvent := { ev with count := ev.count - 1 }

/-- `when - now`, in `uint64_t`. -/
def diff (now : Nat) (ev : TimeEvent) : Nat := (ev.when + 2 ^ 64 - now) % 2 ^ 64

end TimeEvent

/-- `AddMillSecToNowMillSec`. -/
def addMillSecToNowMillSec (now milliseconds : Nat) : Nat := (now + milliseconds) % 2 ^ 64

/-- `TimeEventHolder`, with the static `sTimeEventId`. -/
structure TimeEventHolder where
  eventList : List TimeEvent
  timeEventId : Nat

namespace TimeEventHolder

/-- A new holder in a new process. -/
def new : TimeEventHolder := ⟨[], 0⟩

/-- `CreateTimeEvent`; the second component is the new event's id. -/
def createTimeEvent (t : TimeEventHolder) (now interval : Nat) (callback : Callback)
    (count : Int) : TimeEventHolder × Nat :=
  let id := t.timeEventId + 1
  (⟨⟨id, addMillSecToNowMillSec now interval, interval, callback, count⟩ :: t.eventList, id⟩, id)

/-- `*sExpiresMap[key]`: the event a pointer leads to. -/
def deref (t : TimeEventHolder) (id : Nat) : Option TimeEvent :=
  t.eventList.find? fun ev => ev.id == id

/-- `UpdateTimeEvent`. -/
def updateTimeEvent (t : TimeEventHolder) (now id interval : Nat) (count : Int) :
    TimeEventHolder × Bool :=
  match t.deref id with
  | none => (t, false)
  | some _ =>
      ({ t with eventList := t.eventList.map fun ev =>
          if ev.id == id then
            { ev with
              count := count, interval := interval, when := addMillSecToNowMillSec now interval }
          else ev }, true)

/-- `RemoveTimeEvent`. -/
def removeTimeEvent (t : TimeEventHolder) (id : Nat) : TimeEventHolder × Bool :=
  match t.deref id with
  | none => (t, false)
  | some _ => ({ t with eventList := t.eventList.eraseP fun ev => ev.id == id }, true)

/-- One event in the loop of `HandleFiredTimeEvent`: what is left of it, and
its callback if it was called. -/
def fire (now : Nat) (ev : TimeEvent) : Option TimeEvent × List Callback :=
  let executed := ev.when ≤ now ∧ ev.count ≠ 0
  let count := if executed ∧ 0 ≤ ev.count then ev.count - 1 else ev.count
  if count = 0 then (none, if executed then [ev.callback] else [])
  else if executed then
    (some { ev with count := count, when := addMillSecToNowMillSec now ev.interval }, [ev.callback])
  else (some ev, [])

/-- `HandleFiredTimeEvent`: the callbacks in the order they run. They do not
touch the event list. -/
def handleFiredTimeEvent (t : TimeEventHolder) (now : Nat) : TimeEventHolder × List Callback :=
  ({ t with eventList := t.eventList.filterMap fun ev => (fire now ev).1 },
    t.eventList.flatMap fun ev => (fire now ev).2)

/-- The loop of `HandleFiredTimeEvent` with all it reads of the clock: `now`
before the loop, and `clock ev.id` where `ev` is armed again, after its
callback. The results are the list it leaves, the events whose callbacks it
calls, in order, and `processed`. -/
def firedLoop (now : Nat) (clock : Nat → Nat) :
    List TimeEvent → List TimeEvent × List TimeEvent × Nat
  | [] => ([], [], 0)
  | ev :: es =>
      let rest := firedLoop now clock es
      let executed := decide (ev.when ≤ now) && ev.canFire
      let left := if executed && !ev.fireForever then ev.consume else ev
      (if left.cannotFire then rest.1
        else
          (if executed then
              { left with when := addMillSecToNowMillSec (clock ev.id) left.interval }
            else left) :: rest.1,
        if executed then ev :: rest.2.1 else rest.2.1,
        if executed then rest.2.2 + 1 else rest.2.2)

/-- One event in the loop of `FindNearestTimeEvent`: `min_diff` and `tev`. -/
def nearer (now : Nat) (best : Nat × Option TimeEvent) (it : TimeEvent) :
    Nat × Option TimeEvent :=
  if it.cannotFire then best
  else if best.1 > it.diff now then (it.diff now, some it)
  else best

/-- `FindNearestTimeEvent`; `min_diff` starts as `INT64_MAX`. -/
def findNearestTimeEvent (t : TimeEventHolder) (now : Nat) : Option TimeEvent :=
  (t.eventList.foldl (nearer now) (2 ^ 63 - 1, none)).2

/-- `HowLongTillNextFired`. -/
def howLongTillNextFired (t : TimeEventHolder) (now : Nat) : Nat :=
  match t.findNearestTimeEvent now with
  | none => 50
  | some tev => tev.diff now

/-- The timeout `EventLoop::Loop` gives `epoll_wait`: the parameter of
`Epoller::Wait` is an `int`. -/
def timeoutMs (t : TimeEventHolder) (now : Nat) : Int := DList.toInt32 (t.howLongTillNextFired now)

end TimeEventHolder

end LiteKV
