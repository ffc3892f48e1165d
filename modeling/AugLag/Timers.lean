/-! Named timers that nest. A running timer goes on counting while timers started after it run. Time is read from
outside and counted in units of its own. -/
namespace AugLag

structure Timer where
  /-- When the running interval began. -/
  started : Option Nat
  /-- The time of all finished intervals. -/
  accumulated : Nat

namespace Timer

def zero : Timer := { started := none, accumulated := 0 }

/-- Begins an interval. A running interval is forgotten. -/
def start (t : Timer) (now : Nat) : Timer := { t with started := some now }

def stop (t : Timer) (now : Nat) : Timer :=
  match t.started with
  | some since => { started := none, accumulated := t.accumulated + (now - since) }
  | none => t

/-- The time of all intervals, with the running one up to now. -/
def elapsed (t : Timer) (now : Nat) : Nat := (t.stop now).accumulated

end Timer

structure Timers where
  /-- The running timers; the one started last comes first. -/
  running : List String
  timers : List (String × Timer)

namespace Timers

def empty : Timers := { running := [], timers := [] }

def get (ts : Timers) (key : String) : Timer := (ts.timers.lookup key).getD Timer.zero

def put (ts : Timers) (key : String) (t : Timer) : Timers :=
  { ts with timers := (key, t) :: ts.timers.filter fun p => p.1 != key }

def start (ts : Timers) (key : String) (now : Nat) : Timers :=
  { ts.put key ((ts.get key).start now) with running := key :: ts.running }

/-- Stops the timer started last. -/
def stop (ts : Timers) (now : Nat) : Timers :=
  match ts.running with
  | [] => ts
  | key :: rest => { ts.put key ((ts.get key).stop now) with running := rest }

/-- Sets a timer to zero and stops it. -/
def reset (ts : Timers) (key : String) : Timers :=
  { ts.put key Timer.zero with running := ts.running.filter (· != key) }

def resetAll (_ : Timers) : Timers := empty

def isRunning (ts : Timers) (key : String) : Bool := ts.running.contains key

def elapsed (ts : Timers) (key : String) (now : Nat) : Nat := (ts.get key).elapsed now

end Timers
end AugLag
