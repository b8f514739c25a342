/-
The throttle in front of registrations and heartbeats (`metadata/node_throttle.go`): a token
bucket for all nodes and one for each node.

Times are seconds since the zero time and tokens are exact numbers: the rounding of
`x/time/rate` to floats and nanoseconds is left out.  A call reads the clock once for each
bucket it asks.
-/
import Mathlib.Algebra.Order.Field.Rat
import Nufs.Metadata.ChunkRows

namespace Nufs.Throttle

open Nufs.Chunks (NodeID)

/-- `rate.Limit`. -/
inductive Limit
  | inf
  | perSecond (r : ℚ)
deriving DecidableEq

/-- `rate.Limiter`. -/
structure Limiter where
  limit : Limit
  burst : Int
  tokens : ℚ
  last : ℚ
deriving DecidableEq

namespace Limiter

/-- `rate.NewLimiter`. -/
def new (limit : Limit) (burst : Int) : Limiter := ⟨limit, burst, burst, 0⟩

/-- The tokens at a time: what came in since the last event, up to the burst. -/
def advance (l : Limiter) (r now : ℚ) : ℚ :=
  min l.burst (l.tokens + max r 0 * max (now - l.last) 0)

def hasToken (l : Limiter) (now : ℚ) : Bool :=
  match l.limit with
  | .inf => true
  | .perSecond r => 1 ≤ l.burst ∧ 1 ≤ l.advance r now

/-- `Limiter.Allow`.  A limiter that rejects keeps its state. -/
def allow (l : Limiter) (now : ℚ) : Bool × Limiter :=
  if l.hasToken now then
    match l.limit with
    | .inf => (true, l)
    | .perSecond r => (true, { l with tokens := l.advance r now - 1, last := now })
  else (false, l)

end Limiter

/-- `NodeThrottleConfig`. -/
structure NodeThrottleConfig where
  globalRate : Limit := .perSecond 100
  globalBurst : Int := 200
  perNodeRate : Limit := .perSecond 10
  perNodeBurst : Int := 20

/-- `NodeRegistrationThrottle`.  The limiter of a node that has not called yet is a new one: the
source builds it at the first call. -/
structure NodeRegistrationThrottle where
  global : Limiter
  perNode : NodeID → Limiter

/-- A call of `Allow`, with the times at which it asks the global bucket and the node's. -/
structure Call where
  nodeID : NodeID
  time : ℚ
  nodeTime : ℚ
deriving DecidableEq

namespace NodeRegistrationThrottle

/-- `NewNodeRegistrationThrottle`. -/
def new (cfg : NodeThrottleConfig) : NodeRegistrationThrottle :=
  ⟨.new cfg.globalRate cfg.globalBurst, fun _ => .new cfg.perNodeRate cfg.perNodeBurst⟩

/-- `Allow`. -/
def allow (t : NodeRegistrationThrottle) (c : Call) : Bool × NodeRegistrationThrottle :=
  match t.global.allow c.time with
  | (false, global) => (false, { t with global })
  | (true, global) =>
    let (ok, limiter) := (t.perNode c.nodeID).allow c.nodeTime
    (ok, { global, perNode := Function.update t.perNode c.nodeID limiter })

/-- Calls one after the other, each with its result. -/
def run (t : NodeRegistrationThrottle) : List Call → List (Call × Bool)
  | [] => []
  | c :: calls => (c, (t.allow c).1) :: (t.allow c).2.run calls

end NodeRegistrationThrottle

end Nufs.Throttle
