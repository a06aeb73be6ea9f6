import ErrorContracts.Formula.Text

/-!
# Satisfiability oracles

An oracle answers whether some word satisfies a formula.  It may keep a state between two questions,
may fail, and may leave a question open.
-/

namespace ErrorContracts

inductive Verdict where
  | sat
  | unsat
  | unknown
  deriving DecidableEq

namespace Verdict

def all : List Verdict := [sat, unsat, unknown]

def word : Verdict → String
  | sat => "sat"
  | unsat => "unsat"
  | unknown => "unknown"

def read : String → Except Text.UnknownWord Verdict :=
  Text.readWord "SolverResult" all word

/-- The definite answer, if the question was not left open. -/
def definite? : Verdict → Option Bool
  | sat => some true
  | unsat => some false
  | unknown => none

end Verdict

/-- Why an oracle gives no verdict. -/
inductive OracleFault where
  | incomplete (formula : Formula)
  | unsupported (operator : String)
  | notVerdict (answer : Text.UnknownWord)
  deriving DecidableEq

def OracleFault.message : OracleFault → String
  | incomplete formula => s!"cannot translate formula {formula.outline}"
  | unsupported operator => s!"unsupported relation {Text.quoted operator}"
  | notVerdict answer => answer.message

/-- An oracle whose state is `σ`. -/
structure Oracle (σ : Type) where
  ask : Formula → σ → Except OracleFault Verdict × σ

end ErrorContracts
