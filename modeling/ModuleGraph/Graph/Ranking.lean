import ModuleGraph.Graph.Basic
import ModuleGraph.Order.StableSort
import ModuleGraph.Scalar

namespace ModuleGraph.Rankings

open Scalar

variable {K : Type} [Scalar K]

def descending (a b : K) : Ordering :=
  order b a

/-- By rank, betweenness, incoming edges and score, all descending, then by id. -/
def importance (a b : Node K) : Ordering :=
  (descending a.metrics.pageRank b.metrics.pageRank).then
    ((descending a.metrics.betweenness b.metrics.betweenness).then
      ((compare b.metrics.inDegree a.metrics.inDegree).then
        ((descending a.file.score b.file.score).then (compare a.id b.id))))

/-- By degree, rank and score, all descending, then by id. -/
def connectivity (a b : Node K) : Ordering :=
  (compare b.metrics.degree a.metrics.degree).then
    ((descending a.metrics.pageRank b.metrics.pageRank).then
      ((descending a.file.score b.file.score).then (compare a.id b.id)))

def bridging (a b : Node K) : Ordering :=
  (descending a.metrics.betweenness b.metrics.betweenness).then (importance a b)

def sortBy (order : Node K → Node K → Ordering) (nodes : List (Node K)) : List (Node K) :=
  stableSort (fun a b => order a b == .lt) nodes

def ids (nodes : List (Node K)) : List String :=
  nodes.map (·.id)

def center? (byImportance : List String) (cluster : Cluster) : Option String :=
  byImportance.find? (· ∈ cluster.nodes)

def compute (nodes : List (Node K)) (clusters : List Cluster) (bridgeCount : Nat) : Rankings :=
  let byImportance := ids (sortBy importance nodes)
  let between := nodes.filter fun n => less zero n.metrics.betweenness
  { byImportance
    byConnectivity := ids (sortBy connectivity nodes)
    clusterCenters := clusters.filterMap (center? byImportance)
    leafNodes := ids (nodes.filter fun n => n.metrics.outDegree > 0 && n.metrics.inDegree == 0)
    bridgeNodes := ids ((sortBy bridging between).take bridgeCount)
    orphanNodes := ids (nodes.filter fun n => n.metrics.degree == 0) }

end ModuleGraph.Rankings
