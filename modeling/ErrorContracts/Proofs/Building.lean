import ErrorContracts.Proofs.Upkeep
import ErrorContracts.Routine.Basic
import Mathlib.Data.List.Forall2

/-!
# Handles of blocks

However a module is built, its handles are positive and below the next one, and no block is listed
twice, be it by one function or by two.  So the blocks of a routine have distinct handles, none of
them is the exit node, and no two functions share one.
-/

namespace ErrorContracts

namespace Module

/-- Handles are given out in ascending order, and each block is listed once. -/
structure Numbered (m : Module) : Prop where
  positive : 0 < m.next
  nodup : ∀ f, (m.blocksOf f).Nodup
  bounded : ∀ f, ∀ h ∈ m.blocksOf f, 0 < h ∧ h < m.next
  apart : ∀ f g h, h ∈ m.blocksOf f → h ∈ m.blocksOf g → f = g

theorem Tidy.numbered {m : Module} (tidy : m.Tidy []) : m.Numbered where
  positive := tidy.positive
  nodup f := tidy.once (.blocks f)
  bounded f h inside := by
    obtain ⟨v, found, -⟩ := value?_of_home? (tidy.placed (.blocks f) h inside)
    exact (tidy.given h).2 (.inl (by rw [found, Option.isSome_some]))
  apart f g h inside inside' := by
    have same : Listing.blocks f = .blocks g := tidy.eq_of_listed inside inside'
    simpa using same

/-- Handles are in order after every list of edits. -/
theorem numbered_build (edits : List Edit) : (build {} edits).Numbered := (tidy_build edits).numbered

end Module

/-- A list is read by reading its elements in turn. -/
theorem mapM_eq_ok_iff {ε α β : Type} {f : α → Except ε β} {l : List α} {read : List β} :
    l.mapM f = .ok read ↔ List.Forall₂ (fun a b => f a = .ok b) l read := by
  induction l generalizing read with
  | nil =>
      rw [List.forall₂_nil_left_iff]
      constructor
      · rintro ⟨⟩
        rfl
      · rintro rfl
        rfl
  | cons a l ih =>
      simp only [List.mapM_cons, List.forall₂_cons_left_iff, ← ih]
      cases first : f a with
      | error e => exact iff_of_false (by rintro ⟨⟩) (by rintro ⟨_, _, ⟨⟩, _⟩)
      | ok b =>
          cases others : l.mapM f with
          | error e => exact iff_of_false (by rintro ⟨⟩) (by rintro ⟨_, _, _, ⟨⟩, _⟩)
          | ok rest =>
              constructor
              · rintro ⟨⟩
                exact ⟨b, rest, rfl, rfl, rfl⟩
              · rintro ⟨_, _, ⟨⟩, ⟨⟩, rfl⟩
                rfl

theorem exists_of_mem_mapM {ε α β : Type} {f : α → Except ε β} {l : List α} {read : List β}
    (done : l.mapM f = .ok read) {b : β} (member : b ∈ read) : ∃ a ∈ l, f a = .ok b := by
  induction mapM_eq_ok_iff.1 done with
  | nil => cases member
  | @cons a _ l _ first others ih =>
      rcases List.mem_cons.1 member with rfl | later
      · exact ⟨a, List.mem_cons_self, first⟩
      · obtain ⟨a', listed, found⟩ := ih (mapM_eq_ok_iff.2 others) later
        exact ⟨a', List.mem_cons_of_mem a listed, found⟩

namespace Routine

variable {m : Module} {f : Handle} {r : Routine}

/-- A block is read if it ends in its only terminator and control stays among the owned blocks. -/
theorem readBlock_eq_ok_iff {name : String} {owned : List Handle} {h : Handle} {b : Block} :
    readBlock m name owned h = .ok b ↔ b.handle = h ∧ b.name = m.nameOf h ∧
      (m.instructionsOf h).getLast? = some b.exit ∧ m.terminator? b.exit = some b.terminator ∧
      stepsOf? m (m.instructionsOf h).dropLast = some b.steps ∧
      ∀ s ∈ b.terminator.successors, s ∈ owned := by
  constructor
  · intro read
    unfold readBlock at read
    split at read
    · cases read
    · rename_i exit t ended
      obtain ⟨_, last, ended⟩ := Option.bind_eq_some_iff.1 ended
      obtain ⟨_, terminator, same⟩ := Option.map_eq_some_iff.1 ended
      cases same
      split at read
      · cases read
      · rename_i steps found
        split at read
        · cases read
        · rename_i inside
          cases read
          exact ⟨rfl, rfl, last, terminator, found, by simpa using inside⟩
  · obtain ⟨handle, name, steps, exit, t⟩ := b
    dsimp only
    rintro ⟨rfl, rfl, last, terminator, found, inside⟩
    have none : (t.successors.find? fun s => s ∉ owned) = none := by simpa using inside
    simp only [readBlock, last, terminator, found, none, Option.bind_some, Option.map_some]

/-- The blocks of a routine are read from those that its function owns. -/
theorem ofFunction_ok (read : ofFunction m f = .ok r) : r.handle = f ∧
    (m.blocksOf f).mapM (readBlock m (m.nameOf f) (m.blocksOf f)) = .ok r.blocks := by
  unfold ofFunction at read
  split at read
  · cases read
  · split at read
    · cases read
    · cases read
      exact ⟨rfl, ‹_›⟩

theorem handles_eq (read : ofFunction m f = .ok r) : r.blocks.map Block.handle = m.blocksOf f :=
  (readBlocks_ok (ofFunction_ok read).2).1

/-- A routine whose blocks have distinct handles, none of them the exit node. -/
structure Numbered (r : Routine) : Prop where
  nodup : (r.blocks.map Block.handle).Nodup
  inside : ∀ b ∈ r.blocks, b.handle ≠ exitNode

theorem numbered_of_tidy (tidy : m.Tidy []) (read : ofFunction m f = .ok r) : r.Numbered := by
  have numbered := tidy.numbered
  constructor
  · rw [handles_eq read]
    exact numbered.nodup f
  · intro b inside zero
    have listed : b.handle ∈ r.blocks.map Block.handle := List.mem_map_of_mem inside
    rw [handles_eq read, zero] at listed
    exact Nat.lt_irrefl 0 (numbered.bounded f _ listed).1

theorem numbered_of_read {edits : List Edit}
    (read : ofFunction (Module.build {} edits) f = .ok r) : r.Numbered :=
  numbered_of_tidy (Module.tidy_build edits) read

/-- The terminator of a block is the last that its module lists there. -/
theorem getLast?_of_read (read : ofFunction m f = .ok r) {b : Block} (inside : b ∈ r.blocks) :
    (m.instructionsOf b.handle).getLast? = some b.exit := by
  obtain ⟨h, -, readHere⟩ := exists_of_mem_mapM (ofFunction_ok read).2 inside
  obtain ⟨rfl, -, last, -⟩ := readBlock_eq_ok_iff.1 readHere
  exact last

/-- A block belongs to one function only. -/
theorem eq_of_shared_block {edits : List Edit} {g : Handle} {r' : Routine}
    (read : ofFunction (Module.build {} edits) f = .ok r)
    (read' : ofFunction (Module.build {} edits) g = .ok r') {b b' : Block} (inside : b ∈ r.blocks)
    (inside' : b' ∈ r'.blocks) (same : b.handle = b'.handle) : f = g := by
  have numbered := Module.numbered_build edits
  apply numbered.apart f g b.handle
  · rw [← handles_eq read]
    exact List.mem_map_of_mem inside
  · rw [← handles_eq read', same]
    exact List.mem_map_of_mem inside'

end Routine

end ErrorContracts
