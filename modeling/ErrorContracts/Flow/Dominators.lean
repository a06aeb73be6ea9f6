import ErrorContracts.Collection.SortedMap
import ErrorContracts.Flow.Graph

/-!
# Immediate dominators

The tree of immediate dominators is found by iteration.  Nodes are swept in reverse postorder; each
gets as parent the meet, in the tree so far, of its predecessors that have a parent already.  Sweeps
are repeated as long as they move some node towards the root.
-/

namespace ErrorContracts

/-- Repeats a step for as long as it lowers a measure, and ends with the first one that does not. -/
def descend {α : Type} (measure : α → Nat) (step : α → α) (a : α) : α :=
  if measure (step a) < measure a then descend measure step (step a) else step a
termination_by measure a

/-- The parent of each node; the root is its own parent. -/
abbrev ParentMap (ν : Type) [Ord ν] := SortedMap ν ν

namespace ParentMap

variable {ν : Type} [Ord ν] [DecidableEq ν]

/-- The proper ancestors of a node, the nearest first. -/
def ancestors (parents : ParentMap ν) (n : ν) : List ν :=
  trail (fun n => (parents.get? n).filter fun parent => parent ≠ n) parents.keys n

/-- Whether `a` is `b` or one of its ancestors. -/
def isAbove (parents : ParentMap ν) (a b : ν) : Bool := a = b || a ∈ parents.ancestors b

/-- The children of a node in ascending order. -/
def children (parents : ParentMap ν) (n : ν) : List ν :=
  (parents.toList.filter fun (child, parent) => parent = n ∧ child ≠ n).map Prod.fst

/-- The nearest common ancestor of two nodes, found by moving up the one of higher rank. -/
def meet (parents : ParentMap ν) (rank : ν → Nat) (a b : ν) : ν :=
  if a = b then a
  else if rank b < rank a then
    let up := parents.getD a a
    if rank up < rank a then meet parents rank up b else a
  else
    let up := parents.getD b b
    if rank up < rank b then meet parents rank a up else b
termination_by rank a + rank b

end ParentMap

namespace Graph

variable {ν : Type} [Ord ν] [DecidableEq ν]

/-- How far the nodes are from the root in total; a node without parent is farthest. -/
def remoteness (order : List ν) (parents : ParentMap ν) : Nat :=
  order.foldr (fun n total => ((parents.get? n).map order.idxOf).getD order.length + total) 0

variable [Std.TransOrd ν] [Std.LawfulEqOrd ν]

/-- Gives a node the meet of those predecessors that have a parent. -/
def adopt (g : Graph ν) (rank : ν → Nat) (parents : ParentMap ν) (n : ν) : ParentMap ν :=
  match (g.preds n).filter fun p => parents.contains p with
  | [] => parents
  | p :: rest => parents.insert n (rest.foldl (fun found q => parents.meet rank q found) p)

/-- Visits all nodes but the entry once, in the given order. -/
def sweep (g : Graph ν) (order : List ν) (parents : ParentMap ν) : ParentMap ν :=
  (order.filter fun n => n ≠ g.entry).foldl (g.adopt order.idxOf) parents

/-- The immediate dominators of the nodes that can be reached from the entry. -/
def dominators (g : Graph ν) : ParentMap ν :=
  let order := g.reversePostorder
  descend (remoteness order) (g.sweep order) ((∅ : ParentMap ν).insert g.entry g.entry)

/-- The immediate post-dominators of the nodes from which the exit can be reached. -/
def postDominators (g : Graph ν) (exit : ν) : ParentMap ν := (g.reversed exit).dominators

end Graph

end ErrorContracts
