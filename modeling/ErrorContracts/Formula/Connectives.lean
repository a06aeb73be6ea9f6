import ErrorContracts.Collection.SortedSet
import ErrorContracts.Formula.Basic

/-!
# Conjunction and disjunction of many formulas

The folds drop the neutral constant and stop at the absorbing one, so that a single remaining
formula stands alone.
-/

namespace ErrorContracts.Formula

/-- Conjoins `fs` to what has been collected so far. -/
def conjoinFrom (collected : Formula) : List Formula → Formula
  | [] => collected
  | f :: fs =>
      if f = bool false then bool false
      else if f = bool true then conjoinFrom collected fs
      else if collected = bool true then conjoinFrom f fs
      else conjoinFrom (and collected f) fs

/-- The conjunction of a list; the empty one is true. -/
def conjoin (fs : List Formula) : Formula := conjoinFrom (bool true) fs

/-- Disjoins `fs` to what has been collected so far. -/
def disjoinFrom (collected : Formula) : List Formula → Formula
  | [] => collected
  | f :: fs =>
      if f = bool true then bool true
      else if f = bool false then disjoinFrom collected fs
      else if collected = bool false then disjoinFrom f fs
      else disjoinFrom (or collected f) fs

/-- The disjunction of a list; the empty one is false. -/
def disjoin (fs : List Formula) : Formula := disjoinFrom (bool false) fs

/-- The subject equals one of the codes. -/
def anyOf (codes : SortedSet Int) (subject : Formula) : Formula :=
  disjoin (codes.toList.map fun c => relation .eq subject (int c))

/-- Conjunction of two conditions of which either may be unknown. -/
def meet? : Option Formula → Option Formula → Option Formula
  | none, g => g
  | f, none => f
  | some f, some g => some (conjoin [f, g])

/-- Disjunction of the known conditions, unknown when there is none. -/
def join? : List Formula → Option Formula
  | [] => none
  | fs => some (disjoin fs)

theorem holds_conjoinFrom (f : Formula) (fs : List Formula) (x : Int) :
    (conjoinFrom f fs).holds x = (f.holds x && fs.all fun g => g.holds x) := by
  induction fs generalizing f with
  | nil => simp [conjoinFrom]
  | cons g gs ih =>
      rw [conjoinFrom]
      split
      · simp [*]
      split
      · simp [*]
      split
      · simp [*]
      · simp [ih, Bool.and_assoc]

@[simp]
theorem holds_conjoin (fs : List Formula) (x : Int) :
    (conjoin fs).holds x = fs.all fun g => g.holds x := by
  simp [conjoin, holds_conjoinFrom]

theorem holds_disjoinFrom (f : Formula) (fs : List Formula) (x : Int) :
    (disjoinFrom f fs).holds x = (f.holds x || fs.any fun g => g.holds x) := by
  induction fs generalizing f with
  | nil => simp [disjoinFrom]
  | cons g gs ih =>
      rw [disjoinFrom]
      split
      · simp [*]
      split
      · simp [*]
      split
      · simp [*]
      · simp [ih, Bool.or_assoc]

@[simp]
theorem holds_disjoin (fs : List Formula) (x : Int) :
    (disjoin fs).holds x = fs.any fun g => g.holds x := by
  simp [disjoin, holds_disjoinFrom]

end ErrorContracts.Formula
