import ErrorContracts.Proofs.ReturnPaths

/-!
# The search for returned values ends and invents nothing

The values that may be returned after a block are found by a loop over a stack of blocks.  The block
on top tries its successors one by one: of one that was left before it takes the values that are
kept, one that stands on the stack adds nothing, and any other is entered.  Here the loop is given
turn by turn and without a bound.  It ends on every routine, whatever its cycles are.

Each value found is that of a path to a return that repeats no block.  The path may be put together
from pieces that were searched at different times, but behind its first block it passes only blocks
that were left, and the blocks on the stack are not among these.
-/

namespace ErrorContracts

/-! ## The loop -/

/-- A block that the search has entered, the successors still to try and the values collected. -/
structure Visit where
  block : Block
  untried : List Block
  collected : List Handle

namespace Visit

def start (r : Routine) (b : Block) : Visit := ⟨b, r.successors b, []⟩

/-- The values of the block when it is left. -/
def values (visit : Visit) : List Handle :=
  match visit.block.terminator with
  | .ret v => v.toList
  | _ => visit.collected

/-- Collects the values of a successor, as they are in front of the edge to it. -/
def collect (visit : Visit) (next : Block) (values : List Handle) : Visit :=
  { visit with
    collected := Routine.extend visit.collected (values.map (next.through visit.block.handle)) }

end Visit

/--
The state of the search: the visit on top of the stack, those below it, the blocks of all of them,
and the values of the blocks that were left.
-/
structure ReturnSearch where
  top : Visit
  below : List Visit
  stacked : SortedSet Handle
  known : SortedMap Handle (List Handle)

namespace ReturnSearch

def start (r : Routine) (b : Block) : ReturnSearch := ⟨.start r b, [], .singleton b.handle, ∅⟩

/-- Leaves the block on top: the one below collects its values.  The last one gives the result. -/
def leave (s : ReturnSearch) : ReturnSearch ⊕ List Handle :=
  match s.below with
  | [] => .inr s.top.values
  | visit :: below =>
      .inl
        { top := visit.collect s.top.block s.top.values
          below
          stacked := s.stacked.filter fun k => k ≠ s.top.block.handle
          known := s.known.insert s.top.block.handle s.top.values }

/-- One turn of the loop. -/
def turn (r : Routine) (s : ReturnSearch) : ReturnSearch ⊕ List Handle :=
  match s.top.untried with
  | [] => s.leave
  | next :: untried =>
      let top := { s.top with untried }
      match s.known.get? next.handle with
      | some values => .inl { s with top := top.collect next values }
      | none =>
          if next.handle ∈ s.stacked then .inl { s with top }
          else
            .inl
              { top := .start r next
                below := top :: s.below
                stacked := s.stacked.insert next.handle
                known := s.known }

/-- The loop ends with the given values; a loop that runs for ever ends with none. -/
inductive Ends (r : Routine) : ReturnSearch → List Handle → Prop where
  | done {s : ReturnSearch} {values : List Handle} (last : s.turn r = .inr values) : Ends r s values
  | turn {s t : ReturnSearch} {values : List Handle} (next : s.turn r = .inl t)
      (onward : Ends r t values) : Ends r s values

variable {r : Routine} {b : Block} {fresh untried collected values : List Handle}
  {below : List Visit} {stacked : SortedSet Handle} {known : SortedMap Handle (List Handle)}

theorem Ends.unique {s : ReturnSearch} {others : List Handle} (ends : Ends r s values)
    (again : Ends r s others) : values = others := by
  induction ends with
  | done last =>
      cases again with
      | done last' => exact Sum.inr.inj (last.symm.trans last')
      | turn next _ => cases last.symm.trans next
  | turn next _ ih =>
      cases again with
      | done last => cases next.symm.trans last
      | turn next' onward => exact ih (Sum.inl.inj (next'.symm.trans next) ▸ onward)

/-- The fresh blocks are those that do not stand on the stack. -/
structure Tracks (r : Routine) (fresh : List Handle) (stacked : SortedSet Handle) : Prop where
  distinct : fresh.Nodup
  apart : ∀ k ∈ r.blocks.map Block.handle, k ∈ fresh ↔ k ∉ stacked

theorem Tracks.enter (tracks : Tracks r fresh stacked) (s : Handle) :
    Tracks r (fresh.erase s) (stacked.insert s) where
  distinct := tracks.distinct.erase s
  apart k listed := by
    rw [tracks.distinct.mem_erase_iff, tracks.apart k listed, SortedSet.mem_insert, not_or]

theorem filter_insert {s : Handle} (new : s ∉ stacked) :
    ((stacked.insert s).filter fun k => k ≠ s) = stacked := by
  ext k
  simp only [SortedSet.mem_filter, SortedSet.mem_insert, decide_eq_true_eq]
  constructor
  · rintro ⟨rfl | member, other⟩
    · exact absurd rfl other
    · exact member
  · exact fun member => ⟨.inr member, ne_of_mem_of_not_mem member new⟩

theorem values_of_left (known : SortedMap Handle (List Handle)) :
    Visit.values ⟨b, [], (r.returnsThrough fresh b b.terminator.successors [] known).1⟩ =
      (r.returnsAfter fresh b known).1 := by
  unfold Visit.values Routine.returnsAfter
  cases b.terminator <;> rfl

/-- The loop ends if it does once the block on top has tried the given successors. -/
theorem ends_of_returnsThrough (tracks : Tracks r fresh stacked)
    (onward : Ends r ⟨⟨b, [], (r.returnsThrough fresh b untried collected known).1⟩, below, stacked,
      (r.returnsThrough fresh b untried collected known).2⟩ values) :
    Ends r ⟨⟨b, untried.filterMap r.block?, collected⟩, below, stacked, known⟩ values := by
  fun_induction Routine.returnsThrough r fresh b untried collected known
    generalizing below stacked values with
  | case1 fresh b collected known => exact onward
  | case2 fresh b collected known s untried missing ih =>
      rw [List.filterMap_cons_none missing]
      exact ih tracks onward
  | case3 fresh b collected known s untried next found kept finished ih =>
      rw [List.filterMap_cons_some found]
      obtain rfl := Routine.handle_of_block? found
      refine .turn ?_ (ih tracks onward)
      simp only [turn, finished]
      rfl
  | case4 fresh b collected known s untried next found unfinished isFresh kept known' entered
      inner ih =>
      obtain rfl : (r.returnsAfter (fresh.erase s) next known).1 = kept := congrArg Prod.fst entered
      obtain rfl : (r.returnsAfter (fresh.erase s) next known).2 = known' :=
        congrArg Prod.snd entered
      rw [List.filterMap_cons_some found]
      have listed := Routine.mem_handles_of_block? found
      obtain rfl := Routine.handle_of_block? found
      have new := (tracks.apart _ listed).1 isFresh
      refine .turn (t := ⟨.start r next, ⟨b, untried.filterMap r.block?, collected⟩ :: below,
        stacked.insert next.handle, known⟩) ?_ ?_
      · simp only [turn, unfinished, if_neg new]
      -- the block is searched to its end, and left
      refine inner next.terminator (tracks.enter _) (.turn ?_ (ih tracks onward))
      simp only [turn, leave, values_of_left, filter_insert new]
      rw [Routine.returnsAfter_snd]
      rfl
  | case5 fresh b collected known s untried next found unfinished taken ih =>
      rw [List.filterMap_cons_some found]
      have listed := Routine.mem_handles_of_block? found
      obtain rfl := Routine.handle_of_block? found
      have old := not_not.1 (mt (tracks.apart _ listed).2 taken)
      refine .turn ?_ (ih tracks onward)
      simp only [turn, unfinished, if_pos old]

/-- The loop ends, and what it ends with is what is collected by recursion. -/
theorem ends_iff (numbered : r.Numbered) :
    Ends r (start r b) values ↔ values = r.blockReturns b := by
  suffices ends : Ends r (start r b) (r.blockReturns b) from
    ⟨fun other => other.unique ends, fun same => same ▸ ends⟩
  have tracks :
      Tracks r ((r.blocks.map Block.handle).erase b.handle) (.singleton b.handle) := by
    refine ⟨numbered.nodup.erase _, fun k listed => ?_⟩
    rw [numbered.nodup.mem_erase_iff, SortedSet.mem_singleton]
    exact and_iff_left listed
  refine ends_of_returnsThrough tracks (.done ?_)
  simp only [turn, leave, values_of_left, Routine.blockReturns_eq]

end ReturnSearch

namespace Routine

/-! ## Where the values come from -/

/-- A path on which no block is repeated gives the value; behind `n` it passes known blocks only. -/
def Traced (r : Routine) (known : SortedMap Handle (List Handle)) (n v : Handle) : Prop :=
  ∃ rest w, r.ReturnsAlong (n :: rest) n w ∧ (n :: rest).Nodup ∧
    (∀ k ∈ rest, known.contains k = true) ∧ r.carried (n :: rest) w = v

/-- The known blocks are not on the way to the present one, and their values are those of paths. -/
structure Grounded (r : Routine) (fresh : List Handle) (known : SortedMap Handle (List Handle)) :
    Prop where
  within : ∀ k, known.contains k = true → k ∈ fresh
  traced : ∀ s values, known.get? s = some values → ∀ v ∈ values, r.Traced known s v

variable {r : Routine} {b : Block} {fresh untried collected values : List Handle}
  {known later : SortedMap Handle (List Handle)} {n s v : Handle}

theorem Traced.mono (traced : r.Traced known n v)
    (grows : ∀ k, known.contains k = true → later.contains k = true) : r.Traced later n v := by
  obtain ⟨rest, w, along, once, passes, carried⟩ := traced
  exact ⟨rest, w, along, once, fun k member => grows k (passes k member), carried⟩

theorem traced_of_returned (inside : b ∈ r.blocks) (returned : b.terminator = .ret (some v)) :
    r.Traced known b.handle v :=
  ⟨[], v, ⟨b, inside, returned, .here _⟩, List.nodup_singleton _, by simp, rfl⟩

/-- A block that is not known itself takes over the value of a known successor. -/
theorem Traced.through (traced : r.Traced known s v) (edge : s ∈ r.graph.succs n)
    (done : known.contains s = true) (off : ¬known.contains n = true) :
    r.Traced known n (r.through n s v) := by
  obtain ⟨rest, w, ⟨e, last, returned, path⟩, once, passes, rfl⟩ := traced
  have passes : ∀ k ∈ s :: rest, known.contains k = true := List.forall_mem_cons.2 ⟨done, passes⟩
  refine ⟨s :: rest, w, ⟨e, last, returned, .step edge path⟩, ?_, passes, rfl⟩
  exact List.nodup_cons.2 ⟨fun again => off (passes n again), once⟩

theorem Grounded.enter (grounded : r.Grounded fresh known) (unfinished : known.get? s = none) :
    r.Grounded (fresh.erase s) known where
  within k done := by
    refine (List.mem_erase_of_ne ?_).2 (grounded.within k done)
    rintro rfl
    simp [SortedMap.contains, unfinished] at done
  traced := grounded.traced

/-- A block that is left is known from then on. -/
theorem Grounded.leave (grounded : r.Grounded (fresh.erase s) known) (isFresh : s ∈ fresh)
    (traced : ∀ v ∈ values, r.Traced known s v) : r.Grounded fresh (known.insert s values) where
  within k done := by
    rcases SortedMap.contains_insert.1 done with rfl | done
    · exact isFresh
    · exact List.mem_of_mem_erase (grounded.within k done)
  traced k others found v member := by
    have earlier : r.Traced known k v := by
      rw [SortedMap.get?_insert] at found
      split at found
      · rename_i same
        cases found
        exact same ▸ traced v member
      · exact grounded.traced k others found v member
    exact earlier.mono fun k done => SortedMap.contains_insert.2 (.inr done)

/-- What is collected stays traced when the values of a known successor are added. -/
theorem Grounded.collect {next : Block} (grounded : r.Grounded fresh known) (off : n ∉ fresh)
    (edge : s ∈ r.graph.succs n) (found : r.block? s = some next)
    (kept : known.get? s = some values) (traced : ∀ v ∈ collected, r.Traced known n v) :
    ∀ v ∈ extend collected (values.map (next.through n)), r.Traced known n v := by
  intro v member
  rcases mem_extend.1 member with old | new
  · exact traced v old
  · obtain ⟨w, value, rfl⟩ := List.mem_map.1 new
    rw [← through_of_block? found]
    have done : known.contains s = true := by simp [SortedMap.contains, kept]
    exact (grounded.traced s values kept w value).through edge done (mt (grounded.within n) off)

/--
What is known stays grounded, and what is collected is traced.  The present block is off the fresh
ones, so no path through known blocks comes back to it.
-/
theorem traced_returnsThrough (numbered : r.Numbered) (inside : b ∈ r.blocks)
    (listed : untried ⊆ b.terminator.successors) (distinct : fresh.Nodup) (off : b.handle ∉ fresh)
    (grounded : r.Grounded fresh known) (traced : ∀ v ∈ collected, r.Traced known b.handle v) :
    r.Grounded fresh (r.returnsThrough fresh b untried collected known).2 ∧
      ∀ v ∈ (r.returnsThrough fresh b untried collected known).1,
        r.Traced (r.returnsThrough fresh b untried collected known).2 b.handle v := by
  fun_induction returnsThrough r fresh b untried collected known with
  | case1 fresh b collected known => exact ⟨grounded, traced⟩
  | case2 fresh b collected known s untried missing ih =>
      exact ih inside (List.cons_subset.1 listed).2 distinct off grounded traced
  | case3 fresh b collected known s untried next found values finished ih =>
      obtain ⟨successor, listed⟩ := List.cons_subset.1 listed
      have edge := numbered.mem_succs_of_successor inside successor
      exact ih inside listed distinct off grounded
        (grounded.collect off edge found finished traced)
  | case4 fresh b collected known s untried next found unfinished isFresh values known' entered
      inner ih =>
      obtain rfl : (r.returnsAfter (fresh.erase s) next known).1 = values :=
        congrArg Prod.fst entered
      obtain rfl : (r.returnsAfter (fresh.erase s) next known).2 = known' :=
        congrArg Prod.snd entered
      obtain ⟨successor, others⟩ := List.cons_subset.1 listed
      have edge := numbered.mem_succs_of_successor inside successor
      have member := List.mem_of_find?_eq_some found
      obtain rfl := handle_of_block? found
      obtain ⟨kept, reached⟩ := inner next.terminator member (fun _ h => h) (distinct.erase _)
        distinct.not_mem_erase (grounded.enter unfinished) (by simp)
      rw [← returnsAfter_snd] at kept reached
      have left : ∀ v ∈ (r.returnsAfter (fresh.erase next.handle) next known).1,
          r.Traced (r.returnsAfter (fresh.erase next.handle) next known).2 next.handle v := by
        intro v value
        rcases mem_returnsAfter.1 value with returned | passed
        · exact traced_of_returned member returned
        · exact reached v passed
      have kept := kept.leave isFresh left
      refine ih inside others distinct off kept (kept.collect off edge found ?_ ?_)
      · rw [SortedMap.get?_insert, if_pos rfl]
      · intro v old
        refine (traced v old).mono fun k done => SortedMap.contains_insert.2 (.inr ?_)
        rw [returnsAfter_snd]
        exact contains_returnsThrough done
  | case5 fresh b collected known s untried next found unfinished taken ih =>
      exact ih inside (List.cons_subset.1 listed).2 distinct off grounded traced

/-- Every value of a block is that of a path on which no block is repeated. -/
theorem Numbered.traced_blockReturns (numbered : r.Numbered) (inside : b ∈ r.blocks)
    (member : v ∈ r.blockReturns b) :
    ∃ passed w, r.ReturnsAlong passed b.handle w ∧ passed.Nodup ∧ r.carried passed w = v := by
  have start : r.Grounded ((r.blocks.map Block.handle).erase b.handle) ∅ :=
    ⟨fun k done => (by cases done), fun s values found => (by cases found)⟩
  have bare : ∀ v ∈ ([] : List Handle), r.Traced ∅ b.handle v := by simp
  obtain ⟨-, traced⟩ := traced_returnsThrough numbered inside (fun _ h => h)
    (numbered.nodup.erase _) numbered.nodup.not_mem_erase start bare
  rw [blockReturns_eq, mem_returnsAfter] at member
  rcases member with returned | passed
  · exact ⟨_, v, ⟨b, inside, returned, .here _⟩, List.nodup_singleton _, rfl⟩
  · obtain ⟨rest, w, along, once, -, carried⟩ := traced v passed
    exact ⟨_, w, along, once, carried⟩

/--
Whatever cycles a routine has, the search for the values of a block ends.  It gives no value twice,
and only values that a path to a return has on which no block is repeated.
-/
theorem blockReturns_along_paths {m : Module} {edits : List Edit} {f : Handle} {r : Routine}
    (built : m = Module.build {} edits) (read : ofFunction m f = .ok r) {b : Block}
    (inside : b ∈ r.blocks) :
    (∀ values, ReturnSearch.Ends r (.start r b) values ↔ values = r.blockReturns b) ∧
      (r.blockReturns b).Nodup ∧
      ∀ v ∈ r.blockReturns b, ∃ e ∈ r.blocks, ∃ w passed, e.terminator = .ret (some w) ∧
        r.graph.Path b.handle e.handle passed ∧ passed.Nodup ∧ v = r.carried passed w := by
  subst built
  have numbered := numbered_of_read read
  refine ⟨fun values => ReturnSearch.ends_iff numbered, nodup_blockReturns r b, fun v member => ?_⟩
  obtain ⟨passed, w, ⟨e, last, returned, path⟩, once, rfl⟩ :=
    numbered.traced_blockReturns inside member
  exact ⟨e, last, w, passed, returned, path, once, rfl⟩

end Routine

/-- The values of `entry` are the constant that `stop` returns and what enters the phi of `a`. -/
theorem blockReturns_along_paths_crossed :
    ∃ r entry, Routine.ofFunction crossed 2 = .ok r ∧ entry ∈ r.blocks ∧
      ReturnSearch.Ends r (.start r entry) [10, 13] ∧
      ∀ v ∈ [10, 13], ∃ e ∈ r.blocks, ∃ w passed, e.terminator = .ret (some w) ∧
        r.graph.Path entry.handle e.handle passed ∧ passed.Nodup ∧ v = r.carried passed w := by
  obtain ⟨r, entry, _, _, _, read, -, ⟨inside, -, values⟩, -⟩ := crossed_read
  have found := Routine.blockReturns_along_paths (m := crossed) rfl read inside
  rw [values] at found
  exact ⟨r, entry, read, inside, (found.1 _).2 rfl, found.2.2⟩

end ErrorContracts
