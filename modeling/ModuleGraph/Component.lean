import ModuleGraph.Order.StableSort
import ModuleGraph.Topology

namespace ModuleGraph.Component

/-- What the search knows: the order in which nodes were discovered, the earliest open node that each one is
known to reach, the nodes whose component is still open, latest first, and the cycles found, latest first. -/
structure Search where
  index : Array (Option Nat)
  lowLink : Array Nat
  onStack : Array Bool
  stack : List Nat
  nextIndex : Nat
  cycles : List (List Nat)

namespace Search

def start (size : Nat) : Search where
  index := Array.replicate size none
  lowLink := Array.replicate size 0
  onStack := Array.replicate size false
  stack := []
  nextIndex := 0
  cycles := []

def discovery (s : Search) (v : Nat) : Nat :=
  (s.index.getD v none).getD s.nextIndex

def low (s : Search) (v : Nat) : Nat :=
  s.lowLink.getD v 0

def discover (s : Search) (v : Nat) : Search :=
  { s with
    index := s.index.modify v fun _ => some s.nextIndex
    lowLink := s.lowLink.modify v fun _ => s.nextIndex
    onStack := s.onStack.modify v fun _ => true
    stack := v :: s.stack
    nextIndex := s.nextIndex + 1 }

/-- Notes that a node reaches an open node with the given discovery number. -/
def lower (s : Search) (v reached : Nat) : Search :=
  { s with lowLink := s.lowLink.modify v (Nat.min · reached) }

/-- The open nodes from the latest one down to `v`, and those below it. -/
def popTo (v : Nat) : List Nat → List Nat × List Nat
  | [] => ([], [])
  | w :: ws =>
    if w = v then ([w], ws)
    else
      let (members, rest) := popTo v ws
      (w :: members, rest)

variable {K : Type}

/-- Closes the component of `v` and keeps it if it is a cycle, its members in order of discovery. -/
def close (t : Topology K) (s : Search) (v : Nat) : Search :=
  let (members, rest) := popTo v s.stack
  let s := { s with
    stack := rest
    onStack := members.foldl (fun flags w => flags.modify w fun _ => false) s.onStack }
  if 2 ≤ members.length || t.hasSelfLoop v then
    { s with cycles := sortOn s.discovery members.reverse :: s.cycles }
  else s

def finish (t : Topology K) (s : Search) (v : Nat) : Search :=
  if some (s.low v) = s.index.getD v none then s.close t v else s

/-- Searches from a new node. Every level of the search discovers a node, so the number of nodes bounds its
depth. -/
def visit (t : Topology K) : (depth : Nat) → Search → (v : Nat) → Search
  | 0, s, _ => s
  | depth + 1, s, v =>
    let explore := fun (s : Search) (w : Nat) =>
      if s.index.getD w none = none then
        let s := visit t depth s w
        s.lower v (s.low w)
      else if s.onStack.getD w false then s.lower v (s.discovery w)
      else s
    ((t.successors v).foldl explore (s.discover v)).finish t v

/-- Searches from a node unless it was discovered before. -/
def visitRoot (t : Topology K) (s : Search) (v : Nat) : Search :=
  if s.index.getD v none = none then visit t t.size s v else s

end Search

/-- The cycles of a graph in the order in which their components are completed. -/
def cycles {K : Type} (t : Topology K) : List (List Nat) :=
  ((List.range t.size).foldl (Search.visitRoot t) (.start t.size)).cycles.reverse

end ModuleGraph.Component
