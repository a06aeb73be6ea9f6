import ErrorContracts.CallGraph.Basic
import ErrorContracts.Collection.SortedMap
import ErrorContracts.Collection.Trail

/-!
# Strongly connected components

One depth-first walk numbers the nodes in the order of discovery and keeps them on a stack.  The low
mark of a node is the least number that it is known to lead back to; a node whose low mark is its own
number closes a component, which is then taken off the stack.  Components come out callees first.
-/

namespace ErrorContracts

/-- What a walk for components knows: numbers, low marks, the stack, and the components closed. -/
structure Survey where
  number : SortedMap Handle Nat := ∅
  low : SortedMap Handle Nat := ∅
  stack : List Handle := []
  closed : List (List Handle) := []

namespace Survey

/-- Discovers a node. -/
def enter (s : Survey) (v : Handle) : Survey :=
  let n := s.number.size
  { s with number := s.number.insert v n, low := s.low.insert v n, stack := v :: s.stack }

/-- Lowers the low mark of a node. -/
def lower (s : Survey) (v : Handle) (n : Nat) : Survey :=
  { s with low := s.low.insert v (min (s.low.getD v n) n) }

/-- Notes an edge from `v` to a node that has been discovered before. -/
def touch (s : Survey) (v w : Handle) : Survey :=
  if w ∈ s.stack then s.lower v (s.number.getD w 0) else s

/-- Takes the nodes from `v` upwards off the stack as one component. -/
def close (s : Survey) (v : Handle) : Survey :=
  { s with
    stack := (s.stack.dropWhile fun w => w ≠ v).tail
    closed := s.closed ++ [(s.stack.takeWhile fun w => w ≠ v) ++ [v]] }

/-- Leaves a node for the one it was entered from. -/
def leave (s : Survey) (v : Handle) (parent : Option Handle) : Survey :=
  let low := s.low.getD v 0
  let s := match parent with
    | some p => s.lower p low
    | none => s
  if s.number.get? v = some low then s.close v else s

/-- Walks on from the open frames, then from the remaining roots. -/
def walk (next : Handle → List Handle) (fresh roots : List Handle)
    (frames : List (Handle × List Handle)) (s : Survey) : Survey :=
  match frames with
  | [] =>
      match roots with
      | [] => s
      | v :: roots =>
          if _h : v ∈ fresh then walk next (fresh.erase v) roots [(v, next v)] (s.enter v)
          else walk next fresh roots [] s
  | (v, []) :: rest => walk next fresh roots rest (s.leave v (rest.head?.map Prod.fst))
  | (v, w :: untried) :: rest =>
      if _h : w ∈ fresh then
        walk next (fresh.erase w) roots ((w, next w) :: (v, untried) :: rest) (s.enter w)
      else walk next fresh roots ((v, untried) :: rest) (s.touch v w)
termination_by (fresh.length, workLeft frames + roots.length)
decreasing_by
  · exact Prod.Lex.left _ _ (length_erase_lt _h)
  · exact Prod.Lex.right _ (by simp)
  · exact Prod.Lex.right _ (by simp [workLeft])
  · exact Prod.Lex.left _ _ (length_erase_lt _h)
  · exact Prod.Lex.right _ (by simp [workLeft])

end Survey

namespace CallGraph

/-- The strongly connected components, each in the order in which it leaves the stack. -/
def components (g : CallGraph) : List (List Handle) :=
  (Survey.walk g.callees g.nodes g.nodes [] {}).closed

/-- The functions, callees first; the members of a component keep the order of the nodes. -/
def bottomUp (g : CallGraph) : List Handle :=
  g.components.flatMap fun component => g.nodes.filter fun f => f ∈ component

end CallGraph

end ErrorContracts
