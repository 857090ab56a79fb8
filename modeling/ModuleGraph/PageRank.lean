import ModuleGraph.Topology

namespace ModuleGraph.PageRank

open Scalar

/-- The share of rank that is passed on, and when to stop. -/
structure Parameters (K : Type) where
  damping : K
  maxIterations : Nat
  tolerance : K
  deriving Repr

def Parameters.standard {K : Type} [OfScientific K] : Parameters K where
  damping := 0.85
  maxIterations := 100
  tolerance := 1e-6

variable {K : Type} [Scalar K]

def isDangling (t : Topology K) (v : Nat) : Bool :=
  atMost (t.outWeight v) zero

def danglingRank (t : Topology K) (ranks : List K) : K :=
  sum ((ranks.zipIdx.filter fun r => isDangling t r.2).map (·.1))

def baseRank (t : Topology K) (damping : K) (ranks : List K) : K :=
  (one - damping) / ofNat t.size + damping * danglingRank t ranks / ofNat t.size

/-- Adds the shares that a node of the given rank passes on. -/
def passOn (t : Topology K) (damping : K) (next : Array K) (v : Nat) (rank : K) : Array K :=
  let total := t.outWeight v
  if atMost total zero then next
  else (t.weightedSuccessors v).foldl
    (fun next s => next.modify s.1 (· + damping * rank * s.2 / total)) next

def iterate (t : Topology K) (damping : K) (ranks : List K) : List K :=
  let start := Array.replicate ranks.length (baseRank t damping ranks)
  (ranks.zipIdx.foldl (fun next r => passOn t damping next r.2 r.1) start).toList

def maxDelta (before after : List K) : K :=
  (List.zipWith (fun x y => Scalar.abs (x - y)) before after).foldl larger zero

/-- Iterates until the ranks change by less than the tolerance, or no iteration is left. -/
def settle (t : Topology K) (damping tolerance : K) : (left : Nat) → List K → List K
  | 0, ranks => ranks
  | left + 1, ranks =>
    let next := iterate t damping ranks
    if less (maxDelta ranks next) tolerance then next else settle t damping tolerance left next

def normalize (ranks : List K) : List K :=
  let total := sum ranks
  if less zero total then ranks.map (· / total) else ranks

def compute (t : Topology K) (p : Parameters K) : List K :=
  if t.size = 0 then []
  else
    let start := List.replicate t.size (one / ofNat t.size)
    normalize (settle t p.damping p.tolerance p.maxIterations start)

end ModuleGraph.PageRank
