import ErrorContracts.Oracle.Exact
import Mathlib.Data.Finset.Max
import Mathlib.Data.Int.Order.Basic

/-!
# The exact oracle decides

A formula sees its variable only through comparisons with its constants and with the truth values 0
and 1.  Two words that lie in the same gap between these numbers are therefore indistinguishable,
and every gap holds a test point.  Hence testing finitely many points is exact.

Formulas have a second reading, as terms over 32-bit vectors with signed comparisons.  On well-typed
formulas the two readings agree, so the verdict is the same for both.
-/

namespace ErrorContracts.Formula

/-! ## Gaps between constants -/

/-- No constant separates the two words. -/
def SameGap (constants : List Int) (x y : Int) : Prop :=
  ∀ c ∈ constants, (x < c ↔ y < c) ∧ (c < x ↔ c < y)

/--
Two values of one formula, at `x` and at `y`, that no comparison tells apart: each is the word
itself, or both are the same constant.
-/
def Steady (constants : List Int) (x y a b : Int) : Prop :=
  (a = x ∧ b = y) ∨ (a = b ∧ a ∈ constants)

theorem SameGap.holds_eq {constants : List Int} {x y : Int} (gap : SameGap constants x y)
    {a b a' b' : Int} (first : Steady constants x y a b) (second : Steady constants x y a' b')
    (op : Relation) : op.holds a a' = op.holds b b' := by
  rcases first with ⟨rfl, rfl⟩ | ⟨rfl, listed⟩
  · rcases second with ⟨rfl, rfl⟩ | ⟨rfl, listed'⟩
    · cases op <;> simp [Relation.holds]
    · obtain ⟨below, above⟩ := gap a' listed'
      cases op <;> simp only [Relation.holds] <;> grind
  · rcases second with ⟨rfl, rfl⟩ | ⟨rfl, -⟩
    · obtain ⟨below, above⟩ := gap a listed
      cases op <;> simp only [Relation.holds] <;> grind
    · rfl

theorem SameGap.eq_zero_iff {constants : List Int} {x y : Int} (gap : SameGap constants x y)
    (zero : 0 ∈ constants) {a b : Int} (steady : Steady constants x y a b) :
    a = 0 ↔ b = 0 := by
  have same := gap.holds_eq steady (.inr ⟨rfl, zero⟩) .eq
  simpa [Relation.holds] using same

theorem steady_truth {constants : List Int} (zero : 0 ∈ constants) (one : 1 ∈ constants)
    (x y : Int) (b : Bool) : Steady constants x y (truth b) (truth b) := by
  refine .inr ⟨rfl, ?_⟩
  cases b
  · exact zero
  · exact one

/-- Within a gap the value of a formula is the word itself throughout, or one constant throughout. -/
theorem steady_value {constants : List Int} {x y : Int} (gap : SameGap constants x y)
    (zero : 0 ∈ constants) (one : 1 ∈ constants) (f : Formula)
    (listed : ∀ c ∈ f.constants, c ∈ constants) :
    Steady constants x y (f.value x) (f.value y) := by
  induction f with
  | absent => exact .inr ⟨rfl, zero⟩
  | bool b => exact steady_truth zero one x y b
  | symbol name => exact .inl ⟨rfl, rfl⟩
  | int n => exact .inr ⟨rfl, listed _ (by simp [Formula.constants, value])⟩
  | relation op lhs rhs left right =>
      have first := left fun c hc => listed c (by simp [Formula.constants, hc])
      have second := right fun c hc => listed c (by simp [Formula.constants, hc])
      simp only [value]
      rw [gap.holds_eq first second op]
      exact steady_truth zero one x y _
  | foreign op lhs rhs left right => exact .inr ⟨rfl, zero⟩
  | and lhs rhs left right =>
      have first := left fun c hc => listed c (by simp [Formula.constants, hc])
      have second := right fun c hc => listed c (by simp [Formula.constants, hc])
      have same := gap.eq_zero_iff zero first
      simp only [value]
      by_cases absurd : lhs.value x = 0
      · rw [if_pos absurd, if_pos (same.1 absurd)]
        exact first
      · rw [if_neg absurd, if_neg (mt same.2 absurd)]
        exact second
  | or lhs rhs left right =>
      have first := left fun c hc => listed c (by simp [Formula.constants, hc])
      have second := right fun c hc => listed c (by simp [Formula.constants, hc])
      have same := gap.eq_zero_iff zero first
      simp only [value]
      by_cases absurd : lhs.value x = 0
      · rw [if_pos absurd, if_pos (same.1 absurd)]
        exact second
      · rw [if_neg absurd, if_neg (mt same.2 absurd)]
        exact first
  | not operand inner =>
      have same := gap.eq_zero_iff zero (inner listed)
      simp only [value]
      rw [decide_eq_decide.2 same]
      exact steady_truth zero one x y _

/-- The numbers that split the words into gaps. -/
def marks (f : Formula) : List Int := 0 :: 1 :: f.constants

/-- Words in the same gap satisfy the same formulas. -/
theorem holds_eq_of_sameGap (f : Formula) {x y : Int}
    (gap : SameGap f.marks (Word32.wrap x) (Word32.wrap y)) : f.holds x = f.holds y := by
  have steady := steady_value gap (by simp [marks]) (by simp [marks]) f fun c hc => by
    simp [marks, hc]
  have same := gap.eq_zero_iff (by simp [marks]) steady
  simp only [holds, ne_eq]
  rw [decide_eq_decide.2 (not_congr same)]

/-! ## Every gap holds a test point -/

theorem bounds_of_mem_constants {f : Formula} {c : Int} (listed : c ∈ f.constants) :
    Word32.minValue ≤ c ∧ c ≤ Word32.maxValue := by
  induction f with
  | int n =>
      obtain rfl : c = Word32.wrap n := by simpa [Formula.constants] using listed
      exact ⟨Word32.minValue_le_wrap n, Word32.wrap_le_maxValue n⟩
  | relation op lhs rhs left right =>
      exact (List.mem_append.1 listed).elim left right
  | foreign op lhs rhs left right =>
      exact (List.mem_append.1 listed).elim left right
  | and lhs rhs left right => exact (List.mem_append.1 listed).elim left right
  | or lhs rhs left right => exact (List.mem_append.1 listed).elim left right
  | not operand inner => exact inner listed
  | _ => simp [Formula.constants] at listed

theorem bounds_of_mem_marks {f : Formula} {c : Int} (listed : c ∈ f.marks) :
    Word32.minValue ≤ c ∧ c ≤ Word32.maxValue := by
  rcases List.mem_cons.1 listed with rfl | listed
  · decide
  rcases List.mem_cons.1 listed with rfl | listed
  · decide
  · exact bounds_of_mem_constants listed

/-- Either nothing listed lies below a number, or one listed number is the nearest from below. -/
theorem nearest_below (l : List Int) (x : Int) :
    (∀ c ∈ l, x ≤ c) ∨ ∃ c ∈ l, c < x ∧ ∀ d ∈ l, d < x → d ≤ c := by
  by_cases some_below : ∃ c ∈ l, c < x
  · obtain ⟨c, hc, below⟩ := some_below
    obtain ⟨top, htop, greatest⟩ := (l.toFinset.filter (· < x)).exists_max_image id
      ⟨c, by simp [hc, below]⟩
    simp only [Finset.mem_filter, List.mem_toFinset] at htop
    refine .inr ⟨top, htop.1, htop.2, ?_⟩
    intro d hd lower
    exact greatest d (by simp [hd, lower])
  · exact .inl fun c hc => not_lt.1 fun below => some_below ⟨c, hc, below⟩

/-- The gap of a word begins at the least word or just after the nearest mark from below. -/
theorem exists_testPoint (f : Formula) {x : Int} (low : Word32.minValue ≤ x)
    (high : x ≤ Word32.maxValue) :
    ∃ p ∈ f.testPoints, SameGap f.marks (Word32.wrap p) (Word32.wrap x) := by
  rw [Word32.wrap_of_bounds low high]
  by_cases listed : x ∈ f.marks
  · refine ⟨x, ?_, ?_⟩
    · exact List.mem_cons_of_mem _ (List.mem_flatMap.2 ⟨x, listed, by simp⟩)
    · rw [Word32.wrap_of_bounds low high]
      exact fun c _ => ⟨Iff.rfl, Iff.rfl⟩
  rcases nearest_below f.marks x with none_below | ⟨c, hc, below, nearest⟩
  · refine ⟨Word32.minValue, by simp [testPoints], ?_⟩
    rw [Word32.wrap_of_bounds le_rfl (by decide)]
    intro d hd
    have above := none_below d hd
    have other : d ≠ x := fun same => listed (same ▸ hd)
    constructor <;> constructor <;> intro <;> omega
  · refine ⟨c + 1, ?_, ?_⟩
    · exact List.mem_cons_of_mem _ (List.mem_flatMap.2 ⟨c, hc, by simp⟩)
    obtain ⟨above, -⟩ := bounds_of_mem_marks hc
    rw [Word32.wrap_of_bounds (by omega) (by omega)]
    intro d hd
    have other : d ≠ x := fun same => listed (same ▸ hd)
    have upper := nearest d hd
    constructor <;> constructor <;> intro <;> omega

/-- Testing the points decides whether some word satisfies a formula. -/
theorem satisfiable_iff {f : Formula} :
    f.satisfiable = true ↔
      ∃ x, Word32.minValue ≤ x ∧ x ≤ Word32.maxValue ∧ f.holds x = true := by
  constructor
  · exact exists_of_satisfiable
  · rintro ⟨x, low, high, hx⟩
    obtain ⟨p, tested, gap⟩ := exists_testPoint f low high
    refine List.any_eq_true.2 ⟨p, tested, ?_⟩
    rw [holds_eq_of_sameGap f gap]
    exact hx

end ErrorContracts.Formula

namespace ErrorContracts

/-! ## Formulas as terms over 32-bit vectors -/

namespace Relation

/-- A relation between two vectors, both read as signed numbers. -/
def onWords : Relation → BitVec 32 → BitVec 32 → Bool
  | eq, a, b => a == b
  | ne, a, b => a != b
  | lt, a, b => a.slt b
  | le, a, b => a.sle b
  | gt, a, b => b.slt a
  | ge, a, b => b.sle a

/-- A relation between two truth values; they can be the same or not, and have no order. -/
def onTruths : Relation → Bool → Bool → Option Bool
  | eq, a, b => some (a == b)
  | ne, a, b => some (a != b)
  | _, _, _ => none

theorem onWords_eq_holds (op : Relation) (a b : BitVec 32) :
    op.onWords a b = op.holds a.toInt b.toInt := by
  have same : (a == b) = (a.toInt == b.toInt) := by
    rw [Bool.eq_iff_iff, beq_iff_eq, beq_iff_eq, BitVec.toInt_inj]
  cases op with
  | eq => exact same
  | ne => simp only [onWords, holds, bne, same]
  | lt => exact BitVec.slt_eq_decide
  | le => exact BitVec.sle_eq_decide
  | gt => exact BitVec.slt_eq_decide
  | ge => exact BitVec.sle_eq_decide

end Relation

namespace Formula

/-- The vector that a side of a comparison stands for, where the variable is `w`. -/
def wordAt (w : BitVec 32) : Formula → Option (BitVec 32)
  | symbol _ => some w
  | int n => some (BitVec.ofInt 32 n)
  | _ => none

/-- The truth value of a formula as a term over vectors, where the variable is `w`. -/
def truthAt (w : BitVec 32) : Formula → Option Bool
  | bool b => some b
  | relation op lhs rhs =>
      match lhs.wordAt w, rhs.wordAt w with
      | some a, some b => some (op.onWords a b)
      | _, _ =>
          (lhs.truthAt w).bind fun a => (rhs.truthAt w).bind fun b => op.onTruths a b
  | and lhs rhs => (lhs.truthAt w).bind fun a => (rhs.truthAt w).map fun b => a && b
  | or lhs rhs => (lhs.truthAt w).bind fun a => (rhs.truthAt w).map fun b => a || b
  | not operand => (operand.truthAt w).map fun a => !a
  | _ => none

/-- A side of a comparison: the variable or an integer. -/
inductive IsTerm (name : String) : Formula → Prop where
  | symbol : IsTerm name (symbol name)
  | int (n : Int) : IsTerm name (int n)

/-- Formulas over one variable in which every part has the sort that its place asks for. -/
inductive WellTyped (name : String) : Formula → Prop where
  | bool (b : Bool) : WellTyped name (bool b)
  | compare (op : Relation) {lhs rhs : Formula} :
      IsTerm name lhs → IsTerm name rhs → WellTyped name (relation op lhs rhs)
  | same {op : Relation} {lhs rhs : Formula} (kind : op = .eq ∨ op = .ne) :
      WellTyped name lhs → WellTyped name rhs → WellTyped name (relation op lhs rhs)
  | and {lhs rhs : Formula} :
      WellTyped name lhs → WellTyped name rhs → WellTyped name (and lhs rhs)
  | or {lhs rhs : Formula} :
      WellTyped name lhs → WellTyped name rhs → WellTyped name (or lhs rhs)
  | not {operand : Formula} : WellTyped name operand → WellTyped name (not operand)

theorem IsTerm.wordAt_toInt {name : String} {f : Formula} (term : f.IsTerm name)
    (w : BitVec 32) : ∃ a, f.wordAt w = some a ∧ a.toInt = f.value w.toInt := by
  cases term with
  | symbol => exact ⟨w, rfl, rfl⟩
  | int n => exact ⟨BitVec.ofInt 32 n, rfl, BitVec.toInt_ofInt n⟩

theorem IsTerm.complete {name : String} {f : Formula} (term : f.IsTerm name) : f.Complete := by
  cases term <;> trivial

theorem wrap_toInt (w : BitVec 32) : Word32.wrap w.toInt = w.toInt :=
  Word32.wrap_of_bounds (BitVec.le_toInt w) (Int.lt_add_one_iff.1 BitVec.toInt_lt)

namespace WellTyped

variable {name : String} {f : Formula}

theorem wordAt_eq_none (typed : f.WellTyped name) (w : BitVec 32) : f.wordAt w = none := by
  cases typed <;> rfl

theorem complete (typed : f.WellTyped name) : f.Complete := by
  induction typed with
  | bool b => trivial
  | compare op left right => exact ⟨left.complete, right.complete⟩
  | same kind left right first second => exact ⟨first, second⟩
  | and left right first second => exact ⟨first, second⟩
  | or left right first second => exact ⟨first, second⟩
  | not inner ih => exact ih

/-- A well-typed formula is a truth value, and the same one in both readings. -/
theorem exists_truth (typed : f.WellTyped name) (w : BitVec 32) :
    ∃ b, f.truthAt w = some b ∧ f.value w.toInt = truth b := by
  induction typed with
  | bool b => exact ⟨b, rfl, rfl⟩
  | compare op left right =>
      obtain ⟨a, first, a_eq⟩ := left.wordAt_toInt w
      obtain ⟨b, second, b_eq⟩ := right.wordAt_toInt w
      refine ⟨op.onWords a b, by simp only [truthAt, first, second], ?_⟩
      simp only [value, op.onWords_eq_holds, a_eq, b_eq]
  | same kind left right first second =>
      obtain ⟨a, first, a_eq⟩ := first
      obtain ⟨b, second, b_eq⟩ := second
      simp only [truthAt, left.wordAt_eq_none w, first, second, value, a_eq, b_eq,
        Option.bind_some]
      rcases kind with rfl | rfl <;> cases a <;> cases b <;> exact ⟨_, rfl, rfl⟩
  | and left right first second =>
      obtain ⟨a, first, a_eq⟩ := first
      obtain ⟨b, second, b_eq⟩ := second
      refine ⟨a && b, by simp [truthAt, first, second], ?_⟩
      simp only [value, a_eq, b_eq]
      cases a <;> rfl
  | or left right first second =>
      obtain ⟨a, first, a_eq⟩ := first
      obtain ⟨b, second, b_eq⟩ := second
      refine ⟨a || b, by simp [truthAt, first, second], ?_⟩
      simp only [value, a_eq, b_eq]
      cases a <;> rfl
  | not inner ih =>
      obtain ⟨a, first, a_eq⟩ := ih
      refine ⟨!a, by simp [truthAt, first], ?_⟩
      simp only [value, a_eq]
      cases a <;> rfl

theorem truthAt_eq_holds (typed : f.WellTyped name) (w : BitVec 32) :
    f.truthAt w = some (f.holds w.toInt) := by
  obtain ⟨b, first, b_eq⟩ := typed.exists_truth w
  rw [first, holds, wrap_toInt, b_eq]
  cases b <;> rfl

end WellTyped

/-- Some signed 32-bit word satisfies the formula. -/
def HasSolution (f : Formula) : Prop :=
  ∃ x : Int, -2147483648 ≤ x ∧ x < 2147483648 ∧ f.holds x = true

theorem satisfiable_iff_hasSolution {f : Formula} : f.satisfiable = true ↔ f.HasSolution := by
  rw [satisfiable_iff]
  refine exists_congr fun x => and_congr Iff.rfl (and_congr ?_ Iff.rfl)
  exact Int.lt_add_one_iff.symm

/-- A solution among the vectors is a solution among the words. -/
theorem WellTyped.exists_truthAt_iff {name : String} {f : Formula} (typed : f.WellTyped name) :
    (∃ w, f.truthAt w = some true) ↔ f.HasSolution := by
  constructor
  · rintro ⟨w, yes⟩
    rw [typed.truthAt_eq_holds w] at yes
    exact ⟨w.toInt, BitVec.le_toInt w, BitVec.toInt_lt, Option.some.inj yes⟩
  · rintro ⟨x, low, high, yes⟩
    refine ⟨BitVec.ofInt 32 x, ?_⟩
    rw [typed.truthAt_eq_holds, BitVec.toInt_ofInt]
    have same : x.bmod (2 ^ 32) = x := Word32.wrap_of_bounds low (Int.lt_add_one_iff.1 high)
    rw [same, yes]

end Formula

namespace Oracle

open Formula

/--
The exact oracle answers every well-typed question, and answers it rightly in both readings of the
formula: over signed words and over 32-bit vectors.
-/
theorem exact_decides {name : String} {f : Formula} (typed : f.WellTyped name) (asked : Nat) :
    (f.HasSolution →
      (exact.ask f asked).1 = .ok .sat ∧
        (exact.ask f asked).1.map Verdict.definite? = .ok (some true)) ∧
    (¬ f.HasSolution →
      (exact.ask f asked).1 = .ok .unsat ∧
        (exact.ask f asked).1.map Verdict.definite? = .ok (some false)) ∧
    ((∃ w, f.truthAt w = some true) ↔ f.HasSolution) := by
  have answer : (exact.ask f asked).1 = .ok (if f.satisfiable then .sat else .unsat) := by
    simp only [exact, verdict, obstacle_eq_none_iff.2 typed.complete]
  refine ⟨fun solution => ?_, fun none => ?_, typed.exists_truthAt_iff⟩
  · rw [answer, if_pos (satisfiable_iff_hasSolution.2 solution)]
    exact ⟨rfl, rfl⟩
  · rw [answer, if_neg (mt satisfiable_iff_hasSolution.1 none)]
    exact ⟨rfl, rfl⟩

/-- The constant lies outside the signed range: below `4294967295`, read as `-1`, lies `-2`. -/
theorem exact_decides_wrapped :
    (relation .eq (relation .lt (symbol "x") (int 4294967295))
        (not (relation .ge (symbol "x") (int 7)))).WellTyped "x" ∧
      (exact.ask (relation .eq (relation .lt (symbol "x") (int 4294967295))
        (not (relation .ge (symbol "x") (int 7)))) 0).1 = .ok .sat := by
  have typed : (relation .eq (relation .lt (symbol "x") (int 4294967295))
      (not (relation .ge (symbol "x") (int 7)))).WellTyped "x" :=
    .same (.inl rfl) (.compare .lt .symbol (.int _)) (.not (.compare .ge .symbol (.int _)))
  exact ⟨typed, ((exact_decides typed 0).1 ⟨-2, by decide⟩).1⟩

end Oracle

end ErrorContracts
