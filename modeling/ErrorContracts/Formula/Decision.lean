import ErrorContracts.Formula.Basic

/-!
# Deciding formulas

Comparisons with finitely many constants split the 32-bit words into the constants themselves and
the gaps between neighbouring ones.  A formula has the same truth value throughout a gap, so it is
enough to test the least word, every constant, and the word after every constant.  The constants 0
and 1 are always among the tested ones because they are the truth values.
-/

namespace ErrorContracts.Formula

/-- The constants of a formula as 32-bit words. -/
def constants : Formula → List Int
  | absent => []
  | bool _ => []
  | symbol _ => []
  | int n => [Word32.wrap n]
  | relation _ lhs rhs => lhs.constants ++ rhs.constants
  | foreign _ lhs rhs => lhs.constants ++ rhs.constants
  | and lhs rhs => lhs.constants ++ rhs.constants
  | or lhs rhs => lhs.constants ++ rhs.constants
  | not operand => operand.constants

/-- Words that meet every constant and every gap between constants. -/
def testPoints (f : Formula) : List Int :=
  Word32.minValue :: (0 :: 1 :: f.constants).flatMap fun c => [c, c + 1]

/-- Some word satisfies the formula. -/
def satisfiable (f : Formula) : Bool := f.testPoints.any f.holds

theorem exists_of_satisfiable {f : Formula} (h : f.satisfiable = true) :
    ∃ x, Word32.minValue ≤ x ∧ x ≤ Word32.maxValue ∧ f.holds x = true := by
  obtain ⟨x, -, hx⟩ := List.any_eq_true.1 h
  refine ⟨Word32.wrap x, Word32.minValue_le_wrap x, Word32.wrap_le_maxValue x, ?_⟩
  simpa [holds] using hx

end ErrorContracts.Formula
