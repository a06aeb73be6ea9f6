import ErrorContracts.Word32

/-!
# Formulas over one 32-bit result

A path condition says which values of a tracked result let control reach a block.  It is a boolean
combination of signed comparisons between the result and constants.  A formula may be unfinished:
`absent` stands for a part that is not known, and `foreign` for a comparison whose operator has no
meaning here.

Truth values count as the integers 0 and 1, so one integer evaluator covers formulas, terms and any
mixture of the two.
-/

namespace ErrorContracts

inductive Relation where
  | eq
  | ne
  | lt
  | le
  | gt
  | ge
  deriving DecidableEq

namespace Relation

def symbol : Relation → String
  | eq => "=="
  | ne => "!="
  | lt => "<"
  | le => "<="
  | gt => ">"
  | ge => ">="

def all : List Relation := [eq, ne, lt, le, gt, ge]

def holds : Relation → Int → Int → Bool
  | eq, a, b => a == b
  | ne, a, b => a != b
  | lt, a, b => a < b
  | le, a, b => a ≤ b
  | gt, a, b => b < a
  | ge, a, b => b ≤ a

end Relation

inductive Formula where
  | absent
  | bool (value : Bool)
  | symbol (name : String)
  | int (value : Int)
  | relation (op : Relation) (lhs rhs : Formula)
  | foreign (op : String) (lhs rhs : Formula)
  | and (lhs rhs : Formula)
  | or (lhs rhs : Formula)
  | not (operand : Formula)
  deriving DecidableEq

namespace Formula

instance : Inhabited Formula := ⟨absent⟩

/-- The tracked result. -/
def result : Formula := symbol "x"

def truth (b : Bool) : Int := if b then 1 else 0

/--
The value of a formula at a word.  A conjunction has the value of its first operand where that is
zero and else the value of its second; a disjunction has the value of its first operand where that
is not zero.
-/
def value (x : Int) : Formula → Int
  | absent => 0
  | bool b => truth b
  | symbol _ => x
  | int n => Word32.wrap n
  | relation op lhs rhs => truth (op.holds (lhs.value x) (rhs.value x))
  | foreign _ _ _ => 0
  | and lhs rhs => if lhs.value x = 0 then lhs.value x else rhs.value x
  | or lhs rhs => if lhs.value x = 0 then rhs.value x else lhs.value x
  | not operand => truth (operand.value x = 0)

/-- Truth of a formula where the tracked result is `x`, read as a 32-bit word. -/
def holds (f : Formula) (x : Int) : Bool := f.value (Word32.wrap x) ≠ 0

theorem truth_eq_zero_iff {b : Bool} : truth b = 0 ↔ b = false := by
  cases b <;> simp [truth]

@[simp]
theorem holds_bool (b : Bool) (x : Int) : (bool b).holds x = b := by
  cases b <;> simp [holds, value, truth]

@[simp]
theorem holds_and (f g : Formula) (x : Int) : (and f g).holds x = (f.holds x && g.holds x) := by
  by_cases h : f.value (Word32.wrap x) = 0 <;> simp [holds, value, h]

@[simp]
theorem holds_or (f g : Formula) (x : Int) : (or f g).holds x = (f.holds x || g.holds x) := by
  by_cases h : f.value (Word32.wrap x) = 0 <;> simp [holds, value, h]

@[simp]
theorem holds_not (f : Formula) (x : Int) : (not f).holds x = !f.holds x := by
  by_cases h : f.value (Word32.wrap x) = 0 <;> simp [holds, value, truth, h]

/-- A comparison with an integer compares the readings. -/
theorem holds_equal {f : Formula} {n x : Int} :
    (relation .eq f (int n)).holds x = true ↔ f.value (Word32.wrap x) = Word32.wrap n := by
  simp [holds, value, truth_eq_zero_iff, Relation.holds]

/-- No part is absent and every operator is known. -/
def Complete : Formula → Prop
  | absent => False
  | bool _ => True
  | symbol _ => True
  | int _ => True
  | relation _ lhs rhs => lhs.Complete ∧ rhs.Complete
  | foreign _ _ _ => False
  | and lhs rhs => lhs.Complete ∧ rhs.Complete
  | or lhs rhs => lhs.Complete ∧ rhs.Complete
  | not operand => operand.Complete

end Formula

end ErrorContracts
