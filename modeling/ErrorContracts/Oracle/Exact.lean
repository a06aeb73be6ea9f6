import ErrorContracts.Formula.Decision
import ErrorContracts.Oracle.Basic

/-!
# The exact oracle

It decides every complete formula.  In an incomplete one it reports what it meets first, operands
from left to right and an operator after its operands.
-/

namespace ErrorContracts

namespace Formula

/-- The first obstacle to reading `f`, which is a part of `whole`. -/
def obstacleIn (whole : Formula) : Formula → Option OracleFault
  | absent => some (.incomplete whole)
  | bool _ => none
  | symbol _ => none
  | int _ => none
  | relation _ lhs rhs => (obstacleIn whole lhs).or (obstacleIn whole rhs)
  | foreign op lhs rhs =>
      (obstacleIn whole lhs).or ((obstacleIn whole rhs).or (some (.unsupported op)))
  | and lhs rhs => (obstacleIn whole lhs).or (obstacleIn whole rhs)
  | or lhs rhs => (obstacleIn whole lhs).or (obstacleIn whole rhs)
  | not operand => obstacleIn whole operand

def obstacle (f : Formula) : Option OracleFault := obstacleIn f f

theorem obstacleIn_eq_none_iff {whole f : Formula} :
    obstacleIn whole f = none ↔ f.Complete := by
  induction f <;> simp_all [obstacleIn, Complete]

theorem obstacle_eq_none_iff {f : Formula} : f.obstacle = none ↔ f.Complete :=
  obstacleIn_eq_none_iff

/-- The verdict on a formula, or the first obstacle in it. -/
def verdict (f : Formula) : Except OracleFault Verdict :=
  match f.obstacle with
  | some fault => .error fault
  | none => .ok (if f.satisfiable then .sat else .unsat)

end Formula

namespace Oracle

/-- The exact oracle; its state counts the questions. -/
def exact : Oracle Nat where
  ask f asked := (f.verdict, asked + 1)

/-- The answer that stands at a place of a script; past the end the last one repeats. -/
def scriptedAnswer (script : List (Except Text.UnknownWord Verdict)) (place : Nat) :
    Except Text.UnknownWord Verdict :=
  script.getD place (script.getLast?.getD (.ok .unknown))

/-- An oracle that reads its answers from a script; its state counts the questions. -/
def scripted (script : List (Except Text.UnknownWord Verdict)) : Oracle Nat where
  ask _ asked := ((scriptedAnswer script asked).mapError .notVerdict, asked + 1)

end Oracle

end ErrorContracts
