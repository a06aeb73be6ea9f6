import ErrorContracts.Formula.Connectives
import ErrorContracts.Program.Casts
import ErrorContracts.Routine.Basic

/-!
# Path conditions

The condition of a block over a call says which results of the call let control reach the block.  It
is built backwards along control dependence.  A controlling branch on a comparison of the call with a
constant contributes that comparison, or its negation, together with the condition of its own block;
any other branch contributes the condition of its block alone.  The contributions of several
controlling branches are alternatives.

Each controlling branch is expanded once; meeting it again adds nothing, except that a finished
contribution to the same block is used again.
-/

namespace ErrorContracts

/-- The signed relation that a comparison is read as, whether it is signed or not. -/
def Predicate.relation : Predicate → Relation
  | eq => .eq
  | ne => .ne
  | ugt => .gt
  | uge => .ge
  | ult => .lt
  | ule => .le
  | sgt => .gt
  | sge => .ge
  | slt => .lt
  | sle => .le

/-- A comparison of two values. -/
structure Comparison where
  predicate : Predicate
  lhs : Handle
  rhs : Handle
  deriving DecidableEq

namespace Module

/-- The comparison that a branch is taken on. -/
def comparison? (m : Module) : Terminator → Option Comparison
  | .branch (.value h) _ _ =>
      match m.op? h with
      | some (.compare predicate lhs rhs) => some ⟨predicate, lhs, rhs⟩
      | _ => none
  | _ => none

/-- The integer that a value is up to casts; the null pointer is 0. -/
def constantOperand? (m : Module) (h : Handle) : Option Int :=
  match m.kind? (m.ignoreCasts h) with
  | some (.constant n) => some n
  | some .null => some 0
  | _ => none

/-- A comparison with a constant as a relation of the other side, the tracked result. -/
def relationOf? (m : Module) (c : Comparison) : Option Formula :=
  match m.constantOperand? c.lhs with
  | some n => some (.relation c.predicate.relation (.int n) .result)
  | none =>
      (m.constantOperand? c.rhs).map fun n => .relation c.predicate.relation .result (.int n)

/-- What is known of the tracked result when a comparison has turned out true or false. -/
def inducedFact? (m : Module) (c : Comparison) (outcome : Bool) : Option Formula :=
  (m.relationOf? c).map fun f => if outcome then f else .not f

/-- Whether a side of a comparison is the target up to casts. -/
def involves (m : Module) (target : Handle) (c : Comparison) : Bool :=
  m.ignoreCasts c.lhs = target || m.ignoreCasts c.rhs = target

end Module

/-- What a search for a path condition has done. -/
structure ConditionSearch where
  expanded : List Handle := []
  finished : List ((Handle × Handle) × Option Formula) := []

namespace Routine

/-- Whether a branch is taken to its first target on every way to a block. -/
def takenToward (r : Routine) (b : Handle) : Terminator → Bool
  | .branch _ onTrue _ => r.dominates onTrue b
  | _ => false

/--
Collects what the controlling blocks `untried` contribute to the condition of a block.  An expanded
block is not fresh.
-/
def conditionThrough (m : Module) (r : Routine) (target : Handle) (fresh : List Handle) (b : Handle)
    (untried : List Block) (facts : List Formula) (s : ConditionSearch) :
    Option Formula × ConditionSearch :=
  match untried with
  | [] => (Formula.join? facts, s)
  | dep :: untried =>
      match Bindings.find? (b, dep.handle) s.finished with
      | some fact? => conditionThrough m r target fresh b untried (facts ++ fact?.toList) s
      | none =>
          if dep.handle ∈ s.expanded then conditionThrough m r target fresh b untried facts s
          else if _h : dep.handle ∈ fresh then
            let (inner, s) :=
              conditionThrough m r target (fresh.erase dep.handle) dep.handle
                (r.directControllers dep.handle) []
                { s with expanded := dep.handle :: s.expanded }
            match (m.comparison? dep.terminator).filter (m.involves target) with
            | some c =>
                let own := m.inducedFact? c (r.takenToward b dep.terminator)
                let fact? := Formula.meet? own inner
                conditionThrough m r target fresh b untried (facts ++ fact?.toList)
                  { s with finished := Bindings.assign (b, dep.handle) fact? s.finished }
            | none => conditionThrough m r target fresh b untried (facts ++ inner.toList) s
          else conditionThrough m r target fresh b untried facts s
termination_by (fresh.length, untried.length)
decreasing_by
  · exact Prod.Lex.right _ (by simp)
  · exact Prod.Lex.right _ (by simp)
  · exact Prod.Lex.left _ _ (length_erase_lt _h)
  · exact Prod.Lex.right _ (by simp)
  · exact Prod.Lex.right _ (by simp)
  · exact Prod.Lex.right _ (by simp)

/-- The condition on the result of `target` under which control reaches a block, if it is known. -/
def pathCondition? (m : Module) (r : Routine) (b target : Handle) : Option Formula :=
  (conditionThrough m r target (r.blocks.map Block.handle) b (r.directControllers b) [] {}).1

end Routine

end ErrorContracts
