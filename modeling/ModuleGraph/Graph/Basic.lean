import ModuleGraph.Declaration
import ModuleGraph.FileRecord

namespace ModuleGraph

structure NodeMetrics (K : Type) where
  inDegree : Nat
  outDegree : Nat
  betweenness : K
  pageRank : K
  deriving DecidableEq, Repr

def NodeMetrics.degree {K : Type} (m : NodeMetrics K) : Nat :=
  m.inDegree + m.outDegree

structure Node (K : Type) where
  id : String
  file : FileRecord K
  cluster : String
  exports : List Export
  metrics : NodeMetrics K
  deriving DecidableEq, Repr

structure Edge (K : Type) where
  source : String
  target : String
  importedNames : List String
  isTypeOnly : Bool
  weight : K
  deriving DecidableEq, Repr

/-- A group of files with a common top-level directory. -/
structure Cluster where
  name : String
  nodes : List String
  internalEdges : Nat
  externalEdges : Nat
  suggestedDomain : String
  deriving DecidableEq, Repr

/-- Orders of the nodes, and nodes with a particular role. -/
structure Rankings where
  byImportance : List String := []
  byConnectivity : List String := []
  clusterCenters : List String := []
  leafNodes : List String := []
  bridgeNodes : List String := []
  orphanNodes : List String := []
  deriving DecidableEq, Repr

structure Statistics (K : Type) where
  nodeCount : Nat
  edgeCount : Nat
  avgDegree : K
  density : K
  clusterCount : Nat
  cycleCount : Nat
  deriving DecidableEq, Repr

/-- A dependency graph with all that is computed about it. A cycle is the list of its members. -/
structure Graph (K : Type) where
  nodes : List (Node K)
  edges : List (Edge K)
  clusters : List Cluster
  cycles : List (List String)
  rankings : Rankings
  statistics : Statistics K
  deriving DecidableEq, Repr

namespace Graph

variable {K : Type}

def node? (g : Graph K) (id : String) : Option (Node K) :=
  g.nodes.find? (·.id == id)

def dependencies (g : Graph K) (id : String) : List (Edge K) :=
  g.edges.filter (·.source == id)

def dependents (g : Graph K) (id : String) : List (Edge K) :=
  g.edges.filter (·.target == id)

end Graph

end ModuleGraph
