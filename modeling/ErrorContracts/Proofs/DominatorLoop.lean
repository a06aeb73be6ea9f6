import ErrorContracts.Proofs.Admission
import ErrorContracts.Proofs.Lookups

/-!
# The iteration for dominators ends

The tree of dominators is found by loops: one climbs from two nodes to where they meet, one visits
the nodes of a sweep, and one repeats sweeps until nothing changes.  None of them carries a
bound.  Here they are given as relations between where a loop begins and where it ends, so that a
loop that runs for ever is related to nothing.  On every graph with coherent edges the loops end,
and they end with the tree of dominators.  In a routine, the tree therefore tells dominance by
paths.
-/

namespace ErrorContracts

variable {ν : Type} [Ord ν] [DecidableEq ν]

/-! ## The loops -/

namespace ParentMap

/-- Moving up the later of two nodes, for as long as they differ, ends with both at `c`. -/
inductive Climbs (parents : ParentMap ν) (order : List ν) : ν → ν → ν → Prop where
  | met (a : ν) : Climbs parents order a a a
  | left {a b up c : ν} (listed : a ∈ order) (later : order.idxOf b < order.idxOf a)
      (parent : parents.get? a = some up) (rest : Climbs parents order up b c) :
      Climbs parents order a b c
  | right {a b up c : ν} (listed : b ∈ order) (later : order.idxOf a < order.idxOf b)
      (parent : parents.get? b = some up) (rest : Climbs parents order a up c) :
      Climbs parents order a b c

/-- Climbing from the nodes of a list, one after the other, to where they meet all before ends. -/
inductive ClimbsAll (parents : ParentMap ν) (order : List ν) : List ν → ν → ν → Prop where
  | done (found : ν) : ClimbsAll parents order [] found found
  | next {q found met c : ν} {rest : List ν} (climbs : Climbs parents order q found met)
      (more : ClimbsAll parents order rest met c) : ClimbsAll parents order (q :: rest) found c

variable {parents : ParentMap ν} {order : List ν}

theorem climbs_of_meet? {a b c : ν} (found : parents.meet? order a b = some c) :
    parents.Climbs order a b c := by
  fun_induction parents.meet? order a b with
  | case1 a =>
      cases found
      exact .met _
  | case2 a b other listed later up parent lower ih => exact .left listed.1 later parent (ih found)
  | case5 a b other listed notLater up parent lower ih =>
      have later : order.idxOf a < order.idxOf b := by
        refine lt_of_le_of_ne (not_lt.1 notLater) fun same => other ?_
        exact (List.idxOf_inj listed.1).1 same
      exact .right listed.2 later parent (ih found)
  | case3 | case4 | case6 | case7 | case8 => cases found

theorem climbsAll_of_foldlM {found c : ν} {rest : List ν}
    (folded : rest.foldlM (fun found q => parents.meet? order q found) found = some c) :
    parents.ClimbsAll order rest found c := by
  induction rest generalizing found with
  | nil =>
      cases folded
      exact .done _
  | cons q rest ih =>
      rw [List.foldlM_cons] at folded
      obtain ⟨met, climbed, more⟩ := Option.bind_eq_some_iff.1 folded
      exact .next (climbs_of_meet? climbed) (ih more)

end ParentMap

namespace Graph

variable [Std.TransOrd ν] [Std.LawfulEqOrd ν]

/-- Visiting the nodes of a list leads from one tree to another. -/
inductive Sweeps (g : Graph ν) : List ν → ParentMap ν → ParentMap ν → Prop where
  | done (parents : ParentMap ν) : Sweeps g [] parents parents
  | skip {n : ν} {todo : List ν} {parents final : ParentMap ν}
      (bare : ((g.preds n).filter fun p => parents.contains p) = [])
      (more : Sweeps g todo parents final) : Sweeps g (n :: todo) parents final
  | visit {n p m : ν} {rest todo : List ν} {parents final : ParentMap ν}
      (placed : ((g.preds n).filter fun p => parents.contains p) = p :: rest)
      (climbs : parents.ClimbsAll g.reversePostorder rest p m)
      (more : Sweeps g todo (SortedMap.insert parents n m) final) :
      Sweeps g (n :: todo) parents final

/-- Sweeping all nodes but the entry, until a sweep changes nothing, ends. -/
inductive Settles (g : Graph ν) : ParentMap ν → ParentMap ν → Prop where
  | still {parents : ParentMap ν}
      (sweeps : g.Sweeps (g.reversePostorder.filter fun n => n ≠ g.entry) parents parents) :
      Settles g parents parents
  | again {parents next final : ParentMap ν}
      (sweeps : g.Sweeps (g.reversePostorder.filter fun n => n ≠ g.entry) parents next)
      (changed : next ≠ parents) (more : Settles g next final) : Settles g parents final

variable {g : Graph ν} {parents final : ParentMap ν}

theorem sweeps_of_foldlM {todo : List ν}
    (swept : todo.foldlM (g.adopt? g.reversePostorder) parents = some final) :
    g.Sweeps todo parents final := by
  induction todo generalizing parents with
  | nil =>
      cases swept
      exact .done _
  | cons n todo ih =>
      rw [List.foldlM_cons] at swept
      obtain ⟨next, visited, more⟩ := Option.bind_eq_some_iff.1 swept
      unfold adopt? at visited
      split at visited
      · rename_i bare
        cases visited
        exact .skip bare (ih more)
      · rename_i p rest placed
        obtain ⟨m, folded, rfl⟩ := Option.map_eq_some_iff.1 visited
        exact .visit placed (ParentMap.climbsAll_of_foldlM folded) (ih more)

/-- A sweep of a tree in the making ends. -/
theorem Sweeping.sweeps (coherent : g.Coherent) (sweeping : g.Sweeping 1 parents) :
    g.Sweeps (g.reversePostorder.filter fun n => n ≠ g.entry) parents
      (g.sweep g.reversePostorder parents) := by
  rw [filter_reversePostorder, sweep_eq]
  exact sweeps_of_foldlM (sweeping.foldlM_adopt? coherent Nat.one_pos rfl)

/-- A sweep that brings no node closer to the root changes nothing. -/
theorem Sweeping.sweep_eq_self (coherent : g.Coherent) (sweeping : g.Sweeping 1 parents)
    (ended : ¬remoteness g.reversePostorder (g.sweep g.reversePostorder parents) <
      remoteness g.reversePostorder parents) : g.sweep g.reversePostorder parents = parents := by
  rw [sweep_eq] at ended ⊢
  rcases (sweeping.foldl_adopt coherent Nat.one_pos rfl).2 with closer | ⟨unchanged, -⟩
  · exact absurd closer ended
  · exact unchanged

/-- The sweeps end with the tree of dominators. -/
theorem settles_dominators (coherent : g.Coherent) :
    g.Settles ((∅ : ParentMap ν).insert g.entry g.entry) g.dominators := by
  have settles : ∀ parents, g.Sweeping 1 parents → g.Settles parents
      (descend (remoteness g.reversePostorder) (g.sweep g.reversePostorder) parents) := by
    intro parents sweeping
    fun_induction descend (remoteness g.reversePostorder) (g.sweep g.reversePostorder) parents with
    | case1 parents closer ih =>
        refine .again (sweeping.sweeps coherent) ?_ (ih (sweeping.sweep coherent))
        intro same
        rw [same] at closer
        exact lt_irrefl _ closer
    | case2 parents ended =>
        have swept := sweeping.sweeps coherent
        rw [sweeping.sweep_eq_self coherent ended] at swept ⊢
        exact .still swept
  exact settles _ g.sweeping_entry

end Graph

/--
Whatever the edges of a routine are, the sweeps for its dominators end with the tree that is kept,
and the tree tells of two blocks whether all paths to the second, of which there is one, lead
through the first.
-/
theorem Routine.dominates_iff_paths {m : Module} {edits : List Edit} {f : Handle} {r : Routine}
    (built : m = Module.build {} edits) (read : ofFunction m f = .ok r) :
    r.graph.Settles ((∅ : ParentMap Nat).insert r.graph.entry r.graph.entry) r.idom ∧
      ∀ a ∈ r.blocks, ∀ b ∈ r.blocks, (r.dominates a.handle b.handle = true ↔
        a = b ∨ r.graph.Reaches r.graph.entry b.handle ∧
          ∀ passed, r.graph.Path r.graph.entry b.handle passed → a.handle ∈ passed) := by
  subst built
  have numbered := numbered_of_read read
  constructor
  · rw [r.idom_eq]
    exact Graph.settles_dominators numbered.coherent
  · intro a inside b inside'
    rw [numbered.dominates_iff]
    refine or_congr_left ⟨fun same => ?_, congrArg Block.handle⟩
    exact List.inj_on_of_nodup_map numbered.nodup inside inside' same

/-! ## A tangled function -/

/--
A function with a loop that is entered at both of its blocks, `left` and `right`, a loop that is
never left, and a block that control never comes to.
-/
def tangled : Module :=
  Module.build {}
    [.external "read" .i32,
      .function "f" .i32 [],
      .block 2 "entry", .block 2 "left", .block 2 "right", .block 2 "spin", .block 2 "out",
      .block 2 "dead",
      .call (some 3) 1 [] "t" none,
      .compare (some 3) .slt (.value 9) (.literal 0) "c", .branch (some 3) (.value 10) 4 5,
      .branch (some 4) (.value 10) 5 6,
      .branch (some 5) (.value 10) 4 7,
      .jump (some 6) 6,
      .ret (some 7) none,
      .jump (some 8) 7]

theorem tangled_read :
    ∃ r, Routine.ofFunction tangled 2 = .ok r ∧ r.graph.entry = 3 ∧
      (∀ n ∈ [3, 4, 5, 7, 8], ∃ b ∈ r.blocks, b.handle = n) ∧
      r.dominates 5 7 = true ∧ r.dominates 4 7 = false ∧ r.dominates 3 8 = false := by
  have checked : (Routine.ofFunction tangled 2).toOption.any (fun r =>
      r.graph.entry = 3 ∧ (∀ n ∈ [3, 4, 5, 7, 8], ∃ b ∈ r.blocks, b.handle = n) ∧
        r.dominates 5 7 = true ∧ r.dominates 4 7 = false ∧ r.dominates 3 8 = false) = true := by
    cbv
  obtain ⟨r, read, facts⟩ := Routine.exists_read checked
  exact ⟨r, read, of_decide_eq_true facts⟩

/-- All paths to `out` lead through `right`, some lead around `left`, and none leads to `dead`. -/
theorem dominates_iff_paths_tangled :
    ∃ r, Routine.ofFunction tangled 2 = .ok r ∧
      r.graph.Settles ((∅ : ParentMap Nat).insert r.graph.entry r.graph.entry) r.idom ∧
      (∀ passed, r.graph.Path r.graph.entry 7 passed → 5 ∈ passed) ∧
      (∃ passed, r.graph.Path r.graph.entry 7 passed ∧ 4 ∉ passed) ∧
      ¬r.graph.Reaches r.graph.entry 8 := by
  obtain ⟨r, read, start, listed, through, around, unreached⟩ := tangled_read
  obtain ⟨settles, tells⟩ := Routine.dominates_iff_paths (m := tangled) rfl read
  obtain ⟨entry, inside3, at3⟩ := listed 3 (by decide)
  obtain ⟨left, inside4, at4⟩ := listed 4 (by decide)
  obtain ⟨right, inside5, at5⟩ := listed 5 (by decide)
  obtain ⟨out, inside7, at7⟩ := listed 7 (by decide)
  obtain ⟨dead, inside8, at8⟩ := listed 8 (by decide)
  have passes := tells right inside5 out inside7
  have avoids := tells left inside4 out inside7
  have misses := tells entry inside3 dead inside8
  rw [at5, at7, through] at passes
  rw [at4, at7, around] at avoids
  rw [at3, at8, unreached] at misses
  obtain ⟨reached, every⟩ := (passes.1 rfl).resolve_left fun same => by
    rw [same, at7] at at5
    cases at5
  refine ⟨r, read, settles, every, ?_, fun reached => ?_⟩
  · by_contra none
    simp only [not_exists, not_and, not_not] at none
    exact absurd (avoids.2 (.inr ⟨reached, none⟩)) (by decide)
  · have first : ∀ passed, r.graph.Path r.graph.entry 8 passed → 3 ∈ passed :=
      fun _ path => start ▸ path.start_mem
    exact absurd (misses.2 (.inr ⟨reached, first⟩)) (by decide)

end ErrorContracts
