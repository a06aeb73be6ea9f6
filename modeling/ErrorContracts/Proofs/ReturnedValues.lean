import ErrorContracts.Routine.Returns

/-!
# Values collected for a block

The values that may be returned after a block are collected without repeats.  A block that goes to a
return through nothing but jumps and phis has one value only, and both summaries of what it returns
give this value.
-/

namespace ErrorContracts.Routine

variable {r : Routine} {fresh : List Handle} {b : Block}

theorem nodup_returnsThrough {untried collected : List Handle}
    {known : SortedMap Handle (List Handle)} (once : collected.Nodup) :
    (r.returnsThrough fresh b untried collected known).1.Nodup := by
  fun_induction returnsThrough r fresh b untried collected known with
  | case1 fresh b collected known => exact once
  | case2 fresh b collected known s untried missing ih => exact ih once
  | case3 fresh b collected known s untried next found values finished ih =>
      exact ih (nodup_extend _ once)
  | case4 fresh b collected known s untried next found unfinished isFresh values known' entered
      inner ih => exact ih (nodup_extend _ once)
  | case5 fresh b collected known s untried next found unfinished taken ih => exact ih once

theorem nodup_blockReturns (r : Routine) (b : Block) : (r.blockReturns b).Nodup := by
  unfold blockReturns
  split
  · rename_i v returned
    cases v <;> simp
  · exact nodup_returnsThrough List.nodup_nil

/-- What is collected for a block that is entered anew, and what is known then. -/
def returnsAfter (r : Routine) (fresh : List Handle) (b : Block)
    (known : SortedMap Handle (List Handle)) : List Handle × SortedMap Handle (List Handle) :=
  match b.terminator with
  | .ret v => (v.toList, known)
  | t => r.returnsThrough fresh b t.successors [] known

theorem blockReturns_eq (r : Routine) (b : Block) :
    r.blockReturns b = (r.returnsAfter ((r.blocks.map Block.handle).erase b.handle) b ∅).1 := by
  unfold blockReturns returnsAfter
  cases b.terminator <;> rfl

/-- A block that jumps to a fresh block passes on what is collected there. -/
theorem returnsAfter_of_jump {t : Handle} {next : Block} (jumps : b.terminator = .jump t)
    (isFresh : t ∈ fresh) (found : r.block? t = some next) :
    (r.returnsAfter fresh b ∅).1 =
      extend [] ((r.returnsAfter (fresh.erase t) next ∅).1.map (next.through b.handle)) := by
  have unknown : (∅ : SortedMap Handle (List Handle)).get? t = none := rfl
  rw [returnsAfter, jumps]
  simp only [Terminator.successors]
  rw [returnsThrough, found]
  simp only [unknown, isFresh, dite_true]
  rw [returnsThrough]
  rfl

/-- Where a block can only return one value, this value is all that is collected. -/
theorem returnsAfter_of_returnAfter? {v : Handle} (returned : r.returnAfter? fresh b = some v) :
    (r.returnsAfter fresh b ∅).1 = [v] := by
  fun_induction returnAfter? r fresh b generalizing v with
  | case1 fresh b w ret =>
      simp [returnsAfter, ret, returned]
  | case2 fresh b t jumps isFresh next found forwards ih =>
      obtain ⟨w, after, rfl⟩ := Option.map_eq_some_iff.1 returned
      rw [returnsAfter_of_jump jumps isFresh found, ih after]
      simp [extend]
  | case3 | case4 | case5 | case6 => cases returned

theorem blockReturns_of_blockReturn? {v : Handle} (returned : r.blockReturn? b = some v) :
    r.blockReturns b = [v] := by
  rw [blockReturns_eq]
  exact returnsAfter_of_returnAfter? (Option.filter_eq_some_iff.1 returned).1

end ErrorContracts.Routine
