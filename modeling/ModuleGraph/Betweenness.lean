import ModuleGraph.Topology

namespace ModuleGraph.Betweenness

open Scalar

/-- What a breadth-first search from one source knows: the nodes it has taken up, latest first, those still
to be taken up, and for each node its distance, its number of shortest paths and its predecessors on them,
latest first. -/
structure Search (K : Type) where
  taken : List Nat
  queue : List Nat
  distance : Array (Option Nat)
  paths : Array K
  parents : Array (List Nat)

variable {K : Type} [Scalar K]

def Search.start (size source : Nat) : Search K where
  taken := []
  queue := [source]
  distance := (Array.replicate size none).modify source fun _ => some 0
  paths := (Array.replicate size zero).modify source fun _ => one
  parents := Array.replicate size []

/-- Follows an edge from a node at distance `d` to a node `w`. -/
def Search.follow (v d : Nat) (s : Search K) (w : Nat) : Search K :=
  let s := if s.distance.getD w none = none then
      { s with distance := s.distance.modify w fun _ => some (d + 1), queue := s.queue ++ [w] }
    else s
  if s.distance.getD w none = some (d + 1) then
    { s with
      paths := s.paths.modify w (· + s.paths.getD v zero)
      parents := s.parents.modify w (v :: ·) }
  else s

def Search.step (t : Topology K) (s : Search K) : Search K :=
  match s.queue with
  | [] => s
  | v :: queue =>
    let s := { s with taken := v :: s.taken, queue }
    match s.distance.getD v none with
    | none => s
    | some d => (t.successors v).foldl (Search.follow v d) s

/-- Searches until the queue is empty; a node enters it once, so as many steps as there are nodes do. -/
def Search.run (t : Topology K) : (left : Nat) → Search K → Search K
  | 0, s => s
  | left + 1, s => run t left (s.step t)

def search (t : Topology K) (source : Nat) : Search K :=
  Search.run t t.size (.start t.size source)

/-- The dependency of the source on each node, summed up over the nodes taken up, farthest first. -/
def shareBack (s : Search K) (share : Array K) (w : Nat) : Array K :=
  (s.parents.getD w []).foldr
    (fun v share =>
      share.modify v
        (· + s.paths.getD v zero / s.paths.getD w zero * (one + share.getD w zero)))
    share

def accumulate (t : Topology K) (centrality : Array K) (source : Nat) : Array K :=
  let s := search t source
  let start := Array.replicate t.size zero
  (s.taken.foldl
    (fun (state : Array K × Array K) w =>
      let share := shareBack s state.2 w
      let centrality :=
        if w = source then state.1 else state.1.modify w (· + share.getD w zero)
      (centrality, share))
    (centrality, start)).1

def compute (t : Topology K) : List K :=
  ((List.range t.size).foldl (accumulate t) (Array.replicate t.size zero)).toList

end ModuleGraph.Betweenness
