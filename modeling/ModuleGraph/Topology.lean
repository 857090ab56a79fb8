import ModuleGraph.Scalar

namespace ModuleGraph

structure Arc (K : Type) where
  source : Nat
  target : Nat
  weight : K
  deriving Repr

/-- The successors of each node with the weights of the edges to them, and its predecessors. -/
structure Topology (K : Type) where
  outgoing : Array (List (Nat × K))
  incoming : Array (List Nat)

namespace Topology

variable {K : Type}

def inRange (size : Nat) (a : Arc K) : Bool :=
  a.source < size && a.target < size

def push (a : Arc K) (t : Topology K) : Topology K where
  outgoing := t.outgoing.modify a.source ((a.target, a.weight) :: ·)
  incoming := t.incoming.modify a.target (a.source :: ·)

/-- The adjacency of a list of arcs; those with an end out of range are left out. -/
def ofArcs (size : Nat) (arcs : List (Arc K)) : Topology K :=
  (arcs.filter (inRange size)).foldr push ⟨Array.replicate size [], Array.replicate size []⟩

def size (t : Topology K) : Nat :=
  t.outgoing.size

/-- The targets of the edges that leave a node, with their weights. -/
def weightedSuccessors (t : Topology K) (v : Nat) : List (Nat × K) :=
  t.outgoing.getD v []

def successors (t : Topology K) (v : Nat) : List Nat :=
  (t.weightedSuccessors v).map (·.1)

def predecessors (t : Topology K) (v : Nat) : List Nat :=
  t.incoming.getD v []

def hasSelfLoop (t : Topology K) (v : Nat) : Bool :=
  v ∈ t.successors v

def edgeCount (t : Topology K) : Nat :=
  t.outgoing.toList.foldr (fun es n => es.length + n) 0

def outWeight [Scalar K] (t : Topology K) (v : Nat) : K :=
  Scalar.sum ((t.weightedSuccessors v).map (·.2))

end Topology

end ModuleGraph
