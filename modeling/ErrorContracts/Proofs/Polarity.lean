import ErrorContracts.Proofs.ControlChains

/-!
# The side of a branch

A block behind a single predecessor that controls it has no other controller, with loops as without
them.  So its path condition starts with the test of that predecessor, taken as the branch is taken
toward the block.  This is read off dominance: the test counts as passed if the true target dominates
the block.  For the true target itself this is right.  For the false target it is right too, unless
control comes to the branch through the true target only, as it does where the branch goes back to
the head of a loop.
-/

namespace ErrorContracts

namespace Graph

variable {ν : Type} [DecidableEq ν] {g : Graph ν} {exit b d s : ν}

/-- The way from a node to one that post-dominates it ends at a predecessor that is bound to it. -/
theorem PostDominates.exists_pred (commits : g.PostDominates exit b s) (other : b ≠ s)
    (leaves : g.Reaches s exit) :
    ∃ q, b ∈ g.succs q ∧ b ≠ q ∧ g.PostDominates exit b q ∧ g.Reaches q exit := by
  obtain ⟨passed, path⟩ := leaves
  induction path with
  | here n => exact absurd (List.mem_singleton.1 (commits _ (.here n))) other
  | @step n t exit passed edge rest ih =>
      by_cases entered : b = t
      · subst entered
        exact ⟨n, edge, other, commits, _, .step edge rest⟩
      · exact ih (commits.succ other edge) entered

section

variable [Ord ν] [Std.TransOrd ν] [Std.LawfulEqOrd ν] (coherent : g.Coherent) (closed : g.Closed)

include coherent closed

theorem leaves_of_postParent {p : ν} (parent : (g.postDominators exit).get? s = some p) :
    g.Reaches s exit := by
  obtain ⟨sweeping, -⟩ := dominators_settled (coherent_reversed g exit)
  obtain ⟨passed, path⟩ := sweeping.reached (ParentMap.contains_of_get? parent)
  exact ⟨_, path.of_reversed coherent closed⟩

theorem leaves_of_above (above : (g.postDominators exit).Above b s) (other : b ≠ s) :
    g.Reaches s exit := by
  rcases Relation.ReflTransGen.cases_head above with same | ⟨p, parent, -⟩
  · exact absurd same.symm other
  · exact leaves_of_postParent coherent closed parent

/-- A successor that post-dominates a node is its immediate post-dominator. -/
theorem get?_postDominators (edge : b ∈ g.succs d) (leaves : g.Reaches d exit) (inner : d ≠ exit)
    (other : b ≠ d) (commits : g.PostDominates exit b d) :
    (g.postDominators exit).get? d = some b := by
  obtain ⟨sweeping, -⟩ := dominators_settled (coherent_reversed g exit)
  have rooted : (g.postDominators exit).Rooted (g.reversed exit).reversePostorder exit :=
    sweeping.rooted
  obtain ⟨p, parent, strict⟩ := exists_postParent coherent closed leaves inner
  have upper : (g.postDominators exit).Above b p := (strict b).2 ⟨other, commits⟩
  have lower : (g.postDominators exit).Above p b := by
    obtain ⟨passed, path⟩ := leaves
    have onward : g.Reaches b exit := (path.reaches_of_mem (commits passed path)).2
    obtain ⟨different, bound⟩ := (strict p).1 (.refl _ p)
    rw [above_postDominators_iff coherent closed onward]
    exact bound.succ different edge
  rw [parent, rooted.antisymm upper lower]

/-- A predecessor that controls a node although it is the only one is its only controller. -/
theorem eq_of_committed {a s' : ν} (sole : ∀ q, b ∈ g.succs q → q = d) (inner : d ≠ exit)
    (controls : b ∈ committed (g.postDominators exit) d s) (edge : s' ∈ g.succs a)
    (controls' : b ∈ committed (g.postDominators exit) a s') : a = d := by
  obtain ⟨sweeping, -⟩ := dominators_settled (coherent_reversed g exit)
  have rooted : (g.postDominators exit).Rooted (g.reversed exit).reversePostorder exit :=
    sweeping.rooted
  have upward : b ∈ s' :: (g.postDominators exit).ancestors s' :=
    (List.takeWhile_sublist _).subset controls'
  rcases List.mem_cons.1 upward with rfl | above
  · exact sole a edge
  · -- otherwise the predecessor is bound to the node, and does not control it
    obtain ⟨other, above⟩ := rooted.mem_ancestors_iff.1 above
    have leaves := leaves_of_above coherent closed above other
    have commits := (above_postDominators_iff coherent closed leaves).1 above
    obtain ⟨q, into, strict, bound, leaves'⟩ := commits.exists_pred other leaves
    obtain rfl := sole q into
    have parent := get?_postDominators coherent closed into leaves' inner strict bound
    have free := List.mem_takeWhile_imp controls
    simp [parent] at free

end

end Graph

namespace Routine

variable {m : Module} {r : Routine} {b d : Block}

namespace Numbered

variable (numbered : r.Numbered) (single : r.singlePredecessor? b = some d)

include numbered single

/-- All edges to a block with a single predecessor come from there. -/
theorem eq_of_singlePredecessor? {q : Nat} (edge : b.handle ∈ r.graph.succs q) : q = d.handle := by
  obtain ⟨e, inside, rfl, -⟩ := exists_block_of_mem_succs edge
  have listed : e ∈ r.predecessors b := by
    rw [predecessors, List.mem_filterMap]
    exact ⟨e.handle, (numbered.coherent _ _).2 edge, numbered.block?_handle inside⟩
  unfold singlePredecessor? at single
  split at single
  · rename_i p alone
    cases single
    rw [alone] at listed
    rw [List.mem_singleton.1 listed]
  · cases single

/-- A single predecessor that controls a block is its only controller. -/
theorem directControllers_of_single (controls : d ∈ r.directControllers b.handle) :
    r.directControllers b.handle = [d] := by
  obtain ⟨n, among, found⟩ := mem_directControllers.1 controls
  obtain rfl := handle_of_block? found
  obtain ⟨s, -, met⟩ := mem_controllers.1 among
  have inner : d.handle ≠ exitNode := numbered.inside d (List.mem_of_find?_eq_some found)
  have only : ∀ e ∈ r.directControllers b.handle, e = d := by
    intro e controls'
    obtain ⟨k, among', found'⟩ := mem_directControllers.1 controls'
    obtain ⟨s', edge', met'⟩ := mem_controllers.1 among'
    rw [r.ipdom_eq] at met met'
    have same : k = d.handle := Graph.eq_of_committed numbered.coherent r.closed_graph
      (fun _ => numbered.eq_of_singlePredecessor? single) inner met edge' met'
    rw [same, found] at found'
    exact (Option.some.inj found').symm
  have repeated := List.eq_replicate_of_mem only
  have once : (r.directControllers b.handle).Nodup := .of_map _ (r.nodup_directControllers b.handle)
  rw [repeated, List.nodup_replicate] at once
  have some_one := List.length_pos_of_mem controls
  rw [repeated, show (r.directControllers b.handle).length = 1 by omega]
  rfl

end Numbered

/-- A sole controller makes the whole condition of a block, together with its own condition. -/
theorem exists_pathCondition?_eq (m : Module) (target : Handle)
    (alone : r.directControllers b.handle = [d]) (inside : d ∈ r.blocks) :
    ∃ inner, pathCondition? m r b.handle target =
      Formula.join? (r.contribution m target b.handle d inner).toList := by
  have isFresh : d.handle ∈ r.blocks.map Block.handle := List.mem_map_of_mem inside
  rw [pathCondition?, alone, conditionThrough]
  simp only [Bindings.find?, List.not_mem_nil, if_false, isFresh, dite_true]
  generalize conditionThrough m r target ((r.blocks.map Block.handle).erase d.handle) d.handle
    (r.directControllers d.handle) [] { expanded := [d.handle] } = searched
  refine ⟨searched.1, ?_⟩
  rw [contribution, Module.fact?]
  cases (m.comparison? d.terminator).filter (m.involves target) with
  | none =>
      dsimp only
      rw [conditionThrough]
      rfl
  | some c =>
      dsimp only
      rw [conditionThrough]
      rfl

/-- The condition of a block holds where its sole controller is left toward the block. -/
theorem exists_condition_of_sole {target callee : Handle} {arguments : List Handle}
    (call : m.op? target = some (.call callee arguments))
    (alone : r.directControllers b.handle = [d]) (inside : d ∈ r.blocks) {test : Int → Bool}
    (tested : m.test? target d.terminator = some test) :
    ∃ c, pathCondition? m r b.handle target = some c ∧
      ∀ x, c.holds x = true → test x = r.takenToward b.handle d.terminator := by
  obtain ⟨inner, known⟩ := exists_pathCondition?_eq m target alone inside
  have contributes : (r.contribution m target b.handle d inner).isSome = true := by
    rw [contribution_isSome call, tested]
    exact .inl rfl
  obtain ⟨g, contributed⟩ := Option.isSome_iff_exists.1 contributes
  rw [contributed] at known
  refine ⟨_, known, fun x holds => ?_⟩
  have passed : g.holds x = true := by simpa using holds
  exact ((holds_contribution call contributed).1 passed).1 test tested

/-- What dominates a block with a single predecessor, and is not the block, dominates that. -/
theorem Numbered.dominates_of_single (numbered : r.Numbered) (single : r.singlePredecessor? b = some d)
    {a : Handle} (dominates : r.graph.Dominates a b.handle) (other : a ≠ b.handle) :
    r.graph.Dominates a d.handle := by
  rcases dominates.1.eq_or_exists_edge with entry | ⟨q, reached, edge⟩
  · rw [entry] at dominates other
    exact absurd dominates.eq_entry other
  · obtain rfl := numbered.eq_of_singlePredecessor? single edge
    exact dominates.pred other edge reached

/--
A block that is control dependent on its single predecessor has a condition on the result that the
predecessor tests.  Where it holds, the test has come out true if the block is the true target.  If it
is the false target, the test has come out false, unless the true target dominates the block; and it
does not, unless it dominates the predecessor.
-/
theorem condition_of_branch {edits : List Edit} (built : m = Module.build {} edits) {f : Handle}
    (read : ofFunction m f = .ok r) {target callee : Handle} {arguments : List Handle}
    (call : m.op? target = some (.call callee arguments))
    (single : r.singlePredecessor? b = some d) (controls : d ∈ r.directControllers b.handle)
    {condition : Operand} {onTrue onFalse : Handle}
    (branches : d.terminator = .branch condition onTrue onFalse) (different : onTrue ≠ onFalse)
    {test : Int → Bool} (tested : m.test? target d.terminator = some test) :
    ∃ c, pathCondition? m r b.handle target = some c ∧ ∀ x, c.holds x = true →
      (b.handle = onTrue → test x = true) ∧
      (b.handle = onFalse → (test x = true ↔ r.graph.Dominates onTrue b.handle)) ∧
      (b.handle = onFalse → ¬r.graph.Dominates onTrue d.handle → test x = false) := by
  subst built
  have numbered := numbered_of_read read
  have inside : d ∈ r.blocks := by
    obtain ⟨n, -, found⟩ := mem_directControllers.1 controls
    exact List.mem_of_find?_eq_some found
  have alone := numbered.directControllers_of_single single controls
  obtain ⟨c, known, toward⟩ := exists_condition_of_sole call alone inside tested
  refine ⟨c, known, fun x holds => ?_⟩
  have outcome : test x = true ↔ onTrue = b.handle ∨ r.graph.Dominates onTrue b.handle := by
    rw [toward x holds, branches, ← numbered.dominates_iff]
    rfl
  have far : b.handle = onFalse → (test x = true ↔ r.graph.Dominates onTrue b.handle) := by
    rintro rfl
    rw [outcome]
    exact or_iff_right different
  refine ⟨fun near => outcome.2 (.inl near.symm), far, fun place free => ?_⟩
  rw [Bool.eq_false_iff, ne_eq, far place]
  exact fun dominates => free (numbered.dominates_of_single single dominates (place ▸ different))

/--
The block is control dependent on its single predecessor, which leaves by `exit` and tests the result;
the condition of the block holds of `x`, and the test comes out as given.
-/
def hasSide (m : Module) (r : Routine) (place target : Handle) (exit : Terminator) (x : Int)
    (outcome : Bool) : Bool :=
  r.blocks.any fun b => b.handle = place && (r.singlePredecessor? b).any fun d =>
    d ∈ r.directControllers b.handle && d.terminator = exit &&
      (m.test? target exit).any (fun test => test x == outcome) &&
      (pathCondition? m r b.handle target).any fun c => c.holds x

theorem of_hasSide {place target : Handle} {exit : Terminator} {x : Int} {outcome : Bool}
    (has : hasSide m r place target exit x outcome = true) :
    ∃ b ∈ r.blocks, b.handle = place ∧ ∃ d, r.singlePredecessor? b = some d ∧
      d ∈ r.directControllers b.handle ∧ d.terminator = exit ∧
      (∃ test, m.test? target exit = some test ∧ test x = outcome) ∧
      ∃ c, pathCondition? m r b.handle target = some c ∧ c.holds x = true := by
  simpa [hasSide, Option.any_eq_true, and_assoc] using has

end Routine

/-! ## A branch back to the head of a loop -/

/-- A function that calls `check` and `attempt` again and again, until one of them gives an end. -/
def retrying : Module :=
  Module.build {}
    [.external "check" .i32, .external "attempt" .i32, .function "f" .i32 [], .block 3 "entry",
      .block 3 "again", .block 3 "fail", .block 3 "retry", .block 3 "done", .jump (some 4) 5,
      .call (some 5) 1 [] "s" none, .compare (some 5) .slt (.value 10) (.literal 0) "c",
      .branch (some 5) (.value 11) 6 7, .ret (some 6) (some (.literal (-1))),
      .call (some 7) 2 [] "t" none, .compare (some 7) .ne (.value 16) (.literal 0) "e",
      .branch (some 7) (.value 17) 5 8, .ret (some 8) (some (.literal 0))]

/-- The false target of `again` has a right condition, that of `retry` a wrong one. -/
theorem retrying_read : ∃ r, Routine.ofFunction retrying 3 = .ok r ∧
    r.hasSide retrying 7 10 (.branch (.value 11) 6 7) 1 false = true ∧
      r.hasSide retrying 8 16 (.branch (.value 17) 5 8) 1 true = true ∧
      r.dominates 6 7 = false := by
  have checked : (Routine.ofFunction retrying 3).toOption.any (fun r =>
      r.hasSide retrying 7 10 (.branch (.value 11) 6 7) 1 false &&
        r.hasSide retrying 8 16 (.branch (.value 17) 5 8) 1 true && !r.dominates 6 7) = true := by
    cbv
  simpa [and_assoc] using Routine.exists_read checked

/-- The result 1 sends control back to the loop, and the condition of the way out holds of it. -/
theorem retrying_condition_reversed :
    ∃ r b d test c, Routine.ofFunction retrying 3 = .ok r ∧ b ∈ r.blocks ∧
      r.singlePredecessor? b = some d ∧ d ∈ r.directControllers b.handle ∧
      d.terminator = .branch (.value 17) 5 b.handle ∧ b.handle ≠ 5 ∧
      retrying.op? 16 = some (.call 2 []) ∧ retrying.test? 16 d.terminator = some test ∧
      Routine.pathCondition? retrying r b.handle 16 = some c ∧ c.holds 1 = true ∧
      test 1 = true := by
  obtain ⟨r, read, -, side, -⟩ := retrying_read
  obtain ⟨b, inside, place, d, single, controls, branches, ⟨test, tested, comes⟩, c, known, holds⟩ :=
    Routine.of_hasSide side
  have call : retrying.op? 16 = some (.call 2 []) := by cbv
  refine ⟨r, b, d, test, c, read, inside, single, controls, ?_, ?_, call, ?_, known, holds, comes⟩
  · rw [branches, place]
  · rw [place]
    decide
  · rw [branches]
    exact tested

/-- The result 1 passes the check, and the condition of the way on holds of it. -/
theorem condition_of_branch_retrying :
    ∃ r b c, Routine.ofFunction retrying 3 = .ok r ∧ b ∈ r.blocks ∧ b.handle = 7 ∧
      Routine.pathCondition? retrying r b.handle 10 = some c ∧ c.holds 1 = true ∧
      ∀ test, retrying.test? 10 (.branch (.value 11) 6 7) = some test →
        ∀ x, c.holds x = true → test x = false := by
  obtain ⟨r, read, side, -, apart⟩ := retrying_read
  obtain ⟨b, inside, place, d, single, controls, branches, -, c, known, holds⟩ :=
    Routine.of_hasSide side
  have call : retrying.op? 10 = some (.call 1 []) := by cbv
  refine ⟨r, b, c, read, inside, place, known, holds, fun test tested x passed => ?_⟩
  obtain ⟨c', known', sides⟩ := Routine.condition_of_branch (m := retrying) rfl read call single
    controls branches (by decide) (branches ▸ tested)
  rw [known] at known'
  cases known'
  have free : ¬r.graph.Dominates 6 b.handle := by
    intro dominates
    rw [(Routine.numbered_of_read read).dominates_iff.2 (.inr (place ▸ dominates))] at apart
    cases apart
  rw [Bool.eq_false_iff, ne_eq, (sides x passed).2.1 place]
  exact free

end ErrorContracts
