/-
The circuit breaker around outbound calls.

`Execute` reads and writes the state, the failure counter and the time of the last
failure one at a time, and calls of other goroutines come in between.  A step is one
access to these fields, a section under the lock, or the start or end of the wrapped
call; every step reads a clock of its own.
-/
import Mathlib.Logic.Function.Basic

namespace Nufs.Resilience

inductive State
  | closed
  | opened
  | halfOpen
  deriving DecidableEq

structure Config where
  threshold : Int
  timeout : Int

structure Breaker where
  cfg : Config
  state : State := .closed
  failures : Int := 0
  lastFailTime : Int := 0
  /-- What `onChange` was told, the last change first. -/
  changes : List (State × State) := []

def new (cfg : Config) : Breaker where
  cfg.threshold := if cfg.threshold ≤ 0 then 5 else cfg.threshold
  cfg.timeout := if cfg.timeout ≤ 0 then 30000000000 else cfg.timeout

def Breaker.transitionLocked (b : Breaker) (next : State) : Breaker :=
  if b.state = next then b
  else { b with state := next, changes := (b.state, next) :: b.changes }

/-- How often the breaker has opened. -/
def Breaker.openings (b : Breaker) : Nat := b.changes.countP fun change => change.2 = .opened

inductive Err
  | errOpen
  | wrapped
  deriving DecidableEq

/-- What a call of `Execute` does next; a wrapped call knows how many openings it started after. -/
inductive Phase
  | loadState
  | loadLastFail
  | since (lastFail : Int)
  | tryHalfOpen
  | start
  | running (started : Nat)
  | addFailure
  | storeLastFail (n : Int)
  | compare (n : Int)
  | resetFailures (started : Nat)
  | close (started : Nat)
  | returned (err : Option Err)
  deriving DecidableEq

/-- The call has read the state and not returned. -/
def Phase.inFlight : Phase → Bool
  | .loadState | .returned _ => false
  | _ => true

/-- One step of `Execute` at the time `now`; `fails` says what the wrapped call returns. -/
def execute (now : Int) (fails : Bool) (b : Breaker) : Phase → Option (Phase × Breaker)
  | .loadState => some (if b.state = .opened then .loadLastFail else .start, b)
  | .loadLastFail => some (.since b.lastFailTime, b)
  | .since lastFail => some
    (if now - lastFail < b.cfg.timeout then .returned (some .errOpen) else .tryHalfOpen, b)
  | .tryHalfOpen => some (.start, if b.state = .opened then b.transitionLocked .halfOpen else b)
  | .start => some (.running b.openings, b)
  | .running started => some (if fails then .addFailure else .resetFailures started, b)
  -- onFailure
  | .addFailure => some (.storeLastFail (b.failures + 1), { b with failures := b.failures + 1 })
  | .storeLastFail n => some (.compare n, { b with lastFailTime := now })
  | .compare n => some (.returned (some .wrapped),
    if n ≥ b.cfg.threshold then b.transitionLocked .opened else b)
  -- onSuccess
  | .resetFailures started => some (.close started, { b with failures := 0 })
  | .close _ => some (.returned none, b.transitionLocked .closed)
  | .returned _ => none

/-- A breaker and the calls that go through it. -/
structure System (n : Nat) where
  breaker : Breaker
  calls : Fin n → Phase

/-- The next step of a call. -/
structure Action (n : Nat) where
  call : Fin n
  now : Int
  fails : Bool := false

def step {n : Nat} (s : System n) (a : Action n) : Option (System n) :=
  (execute a.now a.fails s.breaker (s.calls a.call)).map fun r =>
    ⟨r.2, Function.update s.calls a.call r.1⟩

/-- A new breaker, before the calls. -/
def init (cfg : Config) (n : Nat) : System n := ⟨new cfg, fun _ => .loadState⟩

end Nufs.Resilience
