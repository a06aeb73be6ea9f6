import ErrorContracts.Proofs.Questions
import Mathlib.Data.Int.ModEq

/-!
# Formulas modulo the number of words

Only the residues of integers count in a formula, be it the tracked result or a constant, however
deep it stands.  The folds that drop neutral constants and stop at absorbing ones keep the meaning of
their operands, and a set of codes is tested in the order of the codes, however they are listed.
-/

namespace ErrorContracts

/-- Two integers have the same reading exactly if they have the same residue. -/
theorem Word32.wrap_eq_wrap_iff {n k : Int} : wrap n = wrap k ↔ n ≡ k [ZMOD 2 ^ 32] := by
  constructor
  · intro same
    have residues : wrap n % modulus = wrap k % modulus := by rw [same]
    rwa [wrap, wrap, Int.bmod_emod, Int.bmod_emod] at residues
  · intro same
    have residues : n % modulus = k % modulus := same
    rw [wrap, ← Int.emod_bmod, residues, Int.emod_bmod, ← wrap]

namespace Formula

/-! ## Multiples of the modulus -/

/-- The second formula is the first with multiples of `2 ^ 32` added to its integers. -/
inductive Shifted : Formula → Formula → Prop where
  | absent : Shifted absent absent
  | bool (b : Bool) : Shifted (bool b) (bool b)
  | symbol (name : String) : Shifted (symbol name) (symbol name)
  | int (n k : Int) : Shifted (int n) (int (n + 2 ^ 32 * k))
  | relation {f g f' g' : Formula} (op : Relation) (left : Shifted f f') (right : Shifted g g') :
      Shifted (relation op f g) (relation op f' g')
  | foreign {f g f' g' : Formula} (op : String) (left : Shifted f f') (right : Shifted g g') :
      Shifted (foreign op f g) (foreign op f' g')
  | and {f g f' g' : Formula} (left : Shifted f f') (right : Shifted g g') :
      Shifted (and f g) (and f' g')
  | or {f g f' g' : Formula} (left : Shifted f f') (right : Shifted g g') :
      Shifted (or f g) (or f' g')
  | not {f f' : Formula} (operand : Shifted f f') : Shifted (not f) (not f')

namespace Shifted

variable {f g : Formula}

/-- The values agree, also those of terms and of mixtures that are no truth values. -/
theorem value_eq (shifted : f.Shifted g) (x : Int) : g.value x = f.value x := by
  induction shifted with
  | absent => rfl
  | bool b => rfl
  | symbol name => rfl
  | int n k => exact Word32.wrap_add_mul n k
  | relation op _ _ left right => rw [value, value, left, right]
  | foreign op _ _ _ _ => rfl
  | and _ _ left right => rw [value, value, left, right]
  | or _ _ left right => rw [value, value, left, right]
  | not _ operand => rw [value, value, operand]

theorem holds_eq (shifted : f.Shifted g) (x k : Int) : g.holds (x + 2 ^ 32 * k) = f.holds x := by
  have reading : Word32.wrap (x + 2 ^ 32 * k) = Word32.wrap x := Word32.wrap_add_mul x k
  rw [holds, holds, reading, shifted.value_eq]

end Shifted

/-! ## Codes and optional conditions -/

theorem anyOf_congr {codes codes' : List Int} (same : ∀ c, c ∈ codes ↔ c ∈ codes')
    (subject : Formula) :
    anyOf (.ofList codes) subject = anyOf (.ofList codes') subject := by
  have sets : SortedSet.ofList codes = SortedSet.ofList codes' := by
    apply SortedSet.ext
    intro c
    rw [SortedSet.mem_ofList, SortedSet.mem_ofList, same]
  rw [sets]

theorem holds_anyOf {codes : SortedSet Int} {subject : Formula} {x : Int} :
    (anyOf codes subject).holds x = true ↔
      ∃ c ∈ codes, subject.value (Word32.wrap x) = Word32.wrap c := by
  simp only [anyOf, holds_disjoin, List.any_map, List.any_eq_true, Function.comp_apply, holds_equal]
  rfl

theorem isSome_meet? (f? g? : Option Formula) :
    (meet? f? g?).isSome = (f?.isSome || g?.isSome) := by
  cases f? <;> cases g? <;> rfl

theorem all_meet? (f? g? : Option Formula) (x : Int) :
    (meet? f? g?).all (fun f => f.holds x) =
      (f?.all (fun f => f.holds x) && g?.all fun g => g.holds x) := by
  cases f? <;> cases g? <;> simp [meet?]

/--
For complete formulas the two folds are complete and hold where all, or some, of their operands do.  A
disjunction over codes is one formula however the codes are listed, and holds where some code has the
residue of the result.  A condition that is absent counts as true in a conjunction, which is absent
only if both are.  Multiples of `2 ^ 32` change nothing, neither in the result nor in any integer.
-/
theorem holds_modulo_words {fs : List Formula} (complete : ∀ f ∈ fs, f.Complete) (x : Int) :
    ((conjoin fs).Complete ∧ ((conjoin fs).holds x = true ↔ ∀ f ∈ fs, f.holds x = true)) ∧
      ((disjoin fs).Complete ∧ ((disjoin fs).holds x = true ↔ ∃ f ∈ fs, f.holds x = true)) ∧
      (∀ codes codes' : List Int, (∀ c, c ∈ codes ↔ c ∈ codes') → ∀ subject,
        anyOf (.ofList codes) subject = anyOf (.ofList codes') subject) ∧
      (∀ codes : List Int, (anyOf (.ofList codes) result).Complete ∧
        ((anyOf (.ofList codes) result).holds x = true ↔ ∃ c ∈ codes, c ≡ x [ZMOD 2 ^ 32])) ∧
      (∀ f? g? : Option Formula, (meet? f? g?).isSome = (f?.isSome || g?.isSome) ∧
        (meet? f? g?).all (fun f => f.holds x) =
          (f?.all (fun f => f.holds x) && g?.all fun g => g.holds x)) ∧
      ∀ (f g : Formula) (k : Int), f.Shifted g → g.holds (x + 2 ^ 32 * k) = f.holds x := by
  refine ⟨⟨complete_conjoin complete, by simp⟩, ⟨composed_complete.disjoin complete, by simp⟩,
    fun codes codes' => anyOf_congr, fun codes => ⟨complete_anyOf _, ?_⟩,
    fun f? g? => ⟨isSome_meet? f? g?, all_meet? f? g? x⟩, fun f g k shifted => shifted.holds_eq x k⟩
  rw [holds_anyOf]
  constructor
  · rintro ⟨c, listed, same⟩
    exact ⟨c, SortedSet.mem_ofList.1 listed, Word32.wrap_eq_wrap_iff.1 same.symm⟩
  · rintro ⟨c, listed, same⟩
    exact ⟨c, SortedSet.mem_ofList.2 listed, (Word32.wrap_eq_wrap_iff.2 same).symm⟩

/-- The greatest unsigned word is below zero and is the code -1, once all is read as signed. -/
theorem holds_modulo_words_negative :
    (conjoin [relation .lt result (int (2 ^ 32)), bool true, not (and result (bool false))]).holds
        (2 ^ 32 - 1) = true ∧
      anyOf (.ofList [7, -1, 7]) result = anyOf (.ofList [-1, 7]) result ∧
      (anyOf (.ofList [7, -1, 7]) result).holds (2 ^ 32 - 1) = true ∧
      (relation .lt result (int (0 + 2 ^ 32 * 3))).holds (2 ^ 32 - 1 + 2 ^ 32 * (-1)) =
        (relation .lt result (int 0)).holds (2 ^ 32 - 1) := by
  have complete : ∀ f ∈ [relation .lt result (int (2 ^ 32)), bool true,
      not (and result (bool false))], f.Complete := by
    simp [Complete, result]
  obtain ⟨⟨-, conjunction⟩, -, listed, codes, -, shifted⟩ :=
    holds_modulo_words complete (2 ^ 32 - 1)
  refine ⟨conjunction.2 (by decide), listed _ _ (by simp) _, (codes _).2.2 ⟨-1, by simp, by decide⟩, ?_⟩
  exact shifted _ _ (-1) (.relation .lt (.symbol "x") (.int 0 3))

end Formula

end ErrorContracts
