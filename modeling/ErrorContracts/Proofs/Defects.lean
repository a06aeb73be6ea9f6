import ErrorContracts.Inference.Fixpoint
import ErrorContracts.Proofs.Building

/-!
# Functions that cannot be read

However a module is built, its blocks list instructions and terminators only.  A function can
therefore be read unless it has one of four defects: it has no block, one of its blocks does not end in
a terminator or has one before its end, or a branch leads to a block that is not its own.
-/

namespace ErrorContracts

namespace Module

/-- What stands in a block is an instruction that control runs through, or a terminator. -/
theorem Tidy.op_or_terminator {m : Module} (tidy : m.Tidy []) {b h : Handle}
    (inside : h ∈ m.instructionsOf b) : (m.op? h).isSome = !(m.terminator? h).isSome := by
  obtain ⟨⟨name, type, kind⟩, known, belongs⟩ :=
    value?_of_home? (tidy.placed (.instructions b) h inside)
  unfold op? terminator? kind?
  rw [known]
  cases kind with
  | instruction => rfl
  | terminator => rfl
  | _ => cases belongs

/-! ## Reading functions -/

/-- What keeps a function from being read. -/
inductive Defective (m : Module) (f : Handle) : Prop where
  | noBlock (none : m.blocksOf f = [])
  | unterminated {b : Handle} (block : b ∈ m.blocksOf f) (without : m.terminatorOf? b = none)
  | early {b h : Handle} (block : b ∈ m.blocksOf f) (before : h ∈ (m.instructionsOf b).dropLast)
      (terminator : (m.terminator? h).isSome = true)
  | foreign {b exit s : Handle} {t : Terminator} (block : b ∈ m.blocksOf f)
      (last : m.terminatorOf? b = some exit) (terminator : m.terminator? exit = some t)
      (successor : s ∈ t.successors) (outside : s ∉ m.blocksOf f)

end Module

/-- A list can be read if each of its elements can. -/
theorem exists_mapM_ok {ε α β : Type} {f : α → Except ε β} {l : List α} :
    (∃ read, l.mapM f = .ok read) ↔ ∀ a ∈ l, ∃ b, f a = .ok b := by
  simp only [mapM_eq_ok_iff]
  induction l with
  | nil => simp
  | cons a l ih =>
      rw [List.forall_mem_cons, ← ih]
      simp only [List.forall₂_cons_left_iff]
      constructor
      · rintro ⟨_, b, rest, first, others, rfl⟩
        exact ⟨⟨b, first⟩, rest, others⟩
      · rintro ⟨⟨b, first⟩, rest, others⟩
        exact ⟨b :: rest, b, rest, first, others, rfl⟩

namespace Routine

variable {m : Module}

/-- The instructions in front of a terminator can be read unless there is a terminator among them. -/
theorem stepsOf?_isSome (tidy : m.Tidy []) {b : Handle} :
    (stepsOf? m (m.instructionsOf b).dropLast).isSome = true ↔
      ∀ h ∈ (m.instructionsOf b).dropLast, (m.terminator? h).isSome = false := by
  have each : ∀ h ∈ (m.instructionsOf b).dropLast,
      ((m.op? h).isSome = true ↔ (m.terminator? h).isSome = false) := by
    intro h before
    rw [tidy.op_or_terminator (List.dropLast_subset _ before), Bool.not_eq_true']
  unfold stepsOf?
  generalize (m.instructionsOf b).dropLast = before at each
  induction before with
  | nil => simp
  | cons h rest ih =>
      obtain ⟨own, others⟩ := List.forall_mem_cons.1 each
      rw [List.forall_mem_cons, List.mapM_cons]
      apply Iff.trans ?_ (and_congr own (ih others))
      cases m.op? h with
      | none => simp
      | some op =>
          cases rest.mapM fun h => (m.op? h).map fun op => (⟨h, op⟩ : Step) with
          | none => simp
          | some steps => simp

theorem exists_readBlock_iff (tidy : m.Tidy []) {name : String} {owned : List Handle} {b : Handle} :
    (∃ block, readBlock m name owned b = .ok block) ↔
      ∃ exit t, m.terminatorOf? b = some exit ∧ m.terminator? exit = some t ∧
        (∀ h ∈ (m.instructionsOf b).dropLast, (m.terminator? h).isSome = false) ∧
        ∀ s ∈ t.successors, s ∈ owned := by
  simp only [readBlock_eq_ok_iff, ← stepsOf?_isSome tidy]
  constructor
  · rintro ⟨block, rfl, -, last, terminator, steps, inside⟩
    refine ⟨block.exit, block.terminator, ?_, terminator, by rw [steps, Option.isSome_some], inside⟩
    simp [Module.terminatorOf?, last, terminator]
  · rintro ⟨exit, t, last, terminator, before, inside⟩
    obtain ⟨last, -⟩ := Option.filter_eq_some_iff.1 last
    obtain ⟨steps, found⟩ := Option.isSome_iff_exists.1 before
    exact ⟨⟨b, m.nameOf b, steps, exit, t⟩, rfl, rfl, last, terminator, found, inside⟩

theorem exists_ofFunction {f : Handle} :
    (∃ r, ofFunction m f = .ok r) ↔ m.blocksOf f ≠ [] ∧
      ∃ blocks, (m.blocksOf f).mapM (readBlock m (m.nameOf f) (m.blocksOf f)) = .ok blocks := by
  constructor
  · rintro ⟨r, read⟩
    refine ⟨fun none => ?_, r.blocks, (ofFunction_ok read).2⟩
    rw [← handles_eq read, List.map_eq_nil_iff] at none
    exact r.nonempty none
  · rintro ⟨nonempty, blocks, found⟩
    unfold ofFunction
    split
    · rename_i failed
      rw [found] at failed
      cases failed
    · rename_i found'
      rw [← (readBlocks_ok found').1, Ne, List.map_eq_nil_iff] at nonempty
      rw [dif_neg nonempty]
      exact ⟨_, rfl⟩

/-- A function can be read exactly if it has no defect. -/
theorem exists_ofFunction_iff (tidy : m.Tidy []) {f : Handle} :
    (∃ r, ofFunction m f = .ok r) ↔ ¬m.Defective f := by
  rw [exists_ofFunction, exists_mapM_ok]
  constructor
  · rintro ⟨nonempty, each⟩ defect
    cases defect with
    | noBlock none => exact nonempty none
    | unterminated block without =>
        obtain ⟨exit, t, last, -⟩ := (exists_readBlock_iff tidy).1 (each _ block)
        rw [without] at last
        cases last
    | early block before terminator =>
        obtain ⟨_, _, _, _, none, -⟩ := (exists_readBlock_iff tidy).1 (each _ block)
        rw [none _ before] at terminator
        cases terminator
    | foreign block last terminator successor outside =>
        obtain ⟨_, _, last', terminator', -, inside⟩ := (exists_readBlock_iff tidy).1 (each _ block)
        rw [last] at last'
        cases last'
        rw [terminator] at terminator'
        cases terminator'
        exact outside (inside _ successor)
  · intro sound
    refine ⟨fun none => sound (.noBlock none), fun b block => (exists_readBlock_iff tidy).2 ?_⟩
    cases last : m.terminatorOf? b with
    | none => exact absurd (.unterminated block last) sound
    | some exit =>
        obtain ⟨t, terminator⟩ := Option.isSome_iff_exists.1 (Option.filter_eq_some_iff.1 last).2
        refine ⟨exit, t, rfl, terminator, fun h before => ?_, fun s successor => ?_⟩
        · rw [← Bool.not_eq_true]
          exact fun isTerminator => sound (.early block before isTerminator)
        · by_contra outside
          exact sound (.foreign block last terminator successor outside)

end Routine

/-- Some functions can be read exactly if none of them has a defect. -/
theorem exists_routinesOf_iff {m : Module} (tidy : m.Tidy []) {functions : List Handle} :
    (∃ routines, routinesOf m functions = .ok routines) ↔ ∀ f ∈ functions, ¬m.Defective f := by
  rw [routinesOf, exists_mapM_ok]
  constructor
  · exact fun read f listed => (Routine.exists_ofFunction_iff tidy).1 (read f listed)
  · exact fun sound f listed => (Routine.exists_ofFunction_iff tidy).2 (sound f listed)

end ErrorContracts
