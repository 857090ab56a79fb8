import ModuleGraph.Graph.Basic
import ModuleGraph.Scalar

namespace ModuleGraph

/-- The number of edges that arrive at a node and that leave it. -/
structure Degree where
  incoming : Nat := 0
  outgoing : Nat := 0
  deriving DecidableEq, Repr

/-- Counts an edge at its source and at its target, where these are in range. -/
def countEdge (counts : Array Degree) (edge : Nat × Nat) : Array Degree :=
  (counts.modify edge.1 fun d => { d with outgoing := d.outgoing + 1 }).modify edge.2
    fun d => { d with incoming := d.incoming + 1 }

/-- The degree of every node; an edge from a node to itself counts once either way. -/
def degrees (size : Nat) (edges : List (Nat × Nat)) : Array Degree :=
  edges.foldl countEdge (Array.replicate size {})

namespace Statistics

open Scalar

variable {K : Type} [Scalar K]

def averageDegree (degrees : List Nat) : K :=
  if degrees.length = 0 then zero else ofNat (degrees.foldr (· + ·) 0) / ofNat degrees.length

/-- The number of edges in proportion to that of ordered pairs of different nodes. -/
def edgeDensity (nodeCount edgeCount : Nat) : K :=
  if nodeCount < 2 then zero
  else ofNat edgeCount / (ofNat nodeCount * (ofNat nodeCount - one))

def compute (metrics : List (NodeMetrics K)) (edgeCount clusterCount cycleCount : Nat) :
    Statistics K where
  nodeCount := metrics.length
  edgeCount
  avgDegree := averageDegree (metrics.map NodeMetrics.degree)
  density := edgeDensity metrics.length edgeCount
  clusterCount
  cycleCount

end Statistics

end ModuleGraph
