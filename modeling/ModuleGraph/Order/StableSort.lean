namespace ModuleGraph

/-- Puts an element into a list that is sorted from last to first, as far to the front as it can stand
without passing an element that it does not precede. -/
def insertBackward {α : Type} (precedes : α → α → Bool) (x : α) : List α → List α
  | [] => [x]
  | y :: ys => if precedes x y then y :: insertBackward precedes x ys else x :: y :: ys

/-- Sorts a list by a strict comparison, keeping the order of what it does not separate. -/
def stableSort {α : Type} (precedes : α → α → Bool) (xs : List α) : List α :=
  (xs.foldl (fun sorted x => insertBackward precedes x sorted) []).reverse

def sortOn {α : Type} (key : α → Nat) (xs : List α) : List α :=
  stableSort (fun x y => key x < key y) xs

end ModuleGraph
