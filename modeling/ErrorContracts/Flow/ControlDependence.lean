import ErrorContracts.Flow.Dominators

/-!
# Control dependence

A node depends on `a` if some edge out of `a` commits control to it while `a` itself does not.  For
each edge from `a` the dependents are met on the way up the tree of post-dominators, from the target
of the edge to the immediate post-dominator of `a`.
-/

namespace ErrorContracts

variable {ν : Type} [Ord ν] [DecidableEq ν]

/-- The dependents listed for `a`. -/
def dependentsIn (dependence : List (ν × SortedSet ν)) (a : ν) : SortedSet ν :=
  (Bindings.find? a dependence).getD ∅

/-- The nodes that the edge from `a` to `s` commits control to and `a` does not. -/
def Graph.committed (postParents : ParentMap ν) (a s : ν) : List ν :=
  (s :: postParents.ancestors s).takeWhile fun n => some n ≠ postParents.get? a

variable [Std.TransOrd ν] [Std.LawfulEqOrd ν]

/-- The nodes that have `b` among their dependents. -/
def controllersIn (dependence : List (ν × SortedSet ν)) (b : ν) : SortedSet ν :=
  SortedSet.ofList ((dependence.filter fun (_, dependents) => b ∈ dependents).map Prod.fst)

namespace Graph

/-- The nodes that are control dependent on `a`. -/
def dependentsOf (g : Graph ν) (postParents : ParentMap ν) (a : ν) : SortedSet ν :=
  SortedSet.ofList ((g.succs a).flatMap (committed postParents a))

/-- The listed nodes with their dependents. -/
def dependence (g : Graph ν) (postParents : ParentMap ν) : List (ν × SortedSet ν) :=
  g.nodes.map fun a => (a, g.dependentsOf postParents a)

end Graph

end ErrorContracts
