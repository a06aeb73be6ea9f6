import ErrorContracts.Proofs.Admission
import ErrorContracts.Proofs.Dependence

/-!
# Chains of single controllers

Where a block and all blocks above it have at most one controller each, nothing is lost in a path
condition.  In a routine without cycles every path to the block passes its controller, and leaves it
by the one edge that commits control to the block.  The true target of a branch dominates the block
exactly if this edge leads to it.  So the condition holds exactly of the results that are admitted on
some path.
-/

namespace ErrorContracts

namespace Graph

variable {ν : Type} [DecidableEq ν] {g : Graph ν} {exit a b c n s : ν} {passed rest : List ν}

theorem Path.append (path : g.Path a b passed) (edge : s ∈ g.succs b) (path' : g.Path s c rest) :
    g.Path a c (passed ++ rest) := by
  induction path with
  | here b => exact .step edge path'
  | step first _ ih => exact .step first (ih edge)

/-- A path leads to and from each node it passes. -/
theorem Path.reaches_of_mem (path : g.Path a b passed) (inside : n ∈ passed) :
    g.Reaches a n ∧ g.Reaches n b := by
  induction path with
  | here a =>
      rw [List.mem_singleton.1 inside]
      exact ⟨.refl g a, .refl g a⟩
  | @step a s b passed edge path ih =>
      rcases List.mem_cons.1 inside with rfl | later
      · exact ⟨.refl g n, .step edge ⟨passed, path⟩⟩
      · exact ⟨.step edge (ih later).1, (ih later).2⟩

theorem Acyclic.eq_of_reaches (acyclic : g.Acyclic) (there : g.Reaches a b)
    (back : g.Reaches b a) : a = b := by
  obtain ⟨passed, path⟩ := there
  cases path with
  | here => rfl
  | step edge path => exact absurd (.trans ⟨_, path⟩ back) (acyclic _ _ edge)

/-- A path to a node that control was not committed to at first takes an edge that commits it. -/
theorem Path.exists_controls (path : g.Path a b passed) (uncommitted : ¬g.PostDominates exit b a) :
    ∃ d s, g.Controls exit d s b ∧ s ∈ passed := by
  have chain : passed.IsChain fun _ s => s ∈ passed :=
    (List.isChain_isInfix passed).imp fun _ _ part => part.subset (by simp)
  obtain ⟨d, s, controls, inside, -⟩ :=
    Travels.exists_controls (travels_iff.2 ⟨passed, path, chain⟩) uncommitted
  exact ⟨d, s, controls, inside⟩

end Graph

namespace Routine

variable {r : Routine}

/-! ## The edge that commits control -/

/-- A node has two successors at most. -/
theorem Numbered.eq_or_eq_of_succs (numbered : r.Numbered) {n s s' t : Nat}
    (first : s ∈ r.graph.succs n) (second : s' ∈ r.graph.succs n) (distinct : s ≠ s')
    (edge : t ∈ r.graph.succs n) : t = s ∨ t = s' := by
  obtain ⟨b, inside, rfl, -⟩ := exists_block_of_mem_succs first
  rw [numbered.succs_handle inside] at first second edge
  unfold Block.targets at first second edge
  cases exit : b.terminator with
  | branch condition onTrue onFalse =>
      simp only [exit, Terminator.mem_successors_branch] at first second edge
      grind
  | jump next =>
      simp only [exit, Terminator.successors, List.mem_singleton] at first second
      exact absurd (first.trans second.symm) distinct
  | ret value =>
      simp only [exit, List.mem_singleton] at first second
      exact absurd (first.trans second.symm) distinct
  | unreachable =>
      simp only [exit, List.mem_singleton] at first second
      exact absurd (first.trans second.symm) distinct

section

variable {isOpen : Nat → Nat → Prop} {n s b : Nat} (numbered : r.Numbered)
  (flows : r.graph.Flows exitNode isOpen)

include numbered flows

/-- A controller has one edge that commits control to a block. -/
theorem eq_of_controls {s' : Nat} (first : r.graph.Controls exitNode n s b)
    (second : r.graph.Controls exitNode n s' b) : s = s' := by
  by_contra distinct
  apply flows.not_postDominates_of_controls first
  intro passed path
  cases path with
  | here =>
      obtain ⟨block, inside, same, -⟩ := exists_block_of_mem_succs first.edge
      exact absurd same (numbered.inside block inside)
  | step edge rest =>
      apply List.mem_cons_of_mem
      rcases numbered.eq_or_eq_of_succs first.edge second.edge distinct edge with rfl | rfl
      · exact first.commits _ rest
      · exact second.commits _ rest

/-- The target of the edge dominates the block if nothing else controls it. -/
theorem dominates_of_controls (controls : r.graph.Controls exitNode n s b)
    (only : ∀ k t, r.graph.Controls exitNode k t b → k = n) (reached : r.graph.Reaches r.graph.entry b) :
    r.graph.Dominates s b := by
  refine ⟨reached, fun passed path => ?_⟩
  have uncommitted : ¬r.graph.PostDominates exitNode b r.graph.entry :=
    fun commits => flows.not_controls_of_postDominates commits n s controls
  obtain ⟨k, t, controls', inside⟩ := path.exists_controls uncommitted
  obtain rfl := only k t controls'
  exact eq_of_controls numbered flows controls controls' ▸ inside

/-- A successor of the controller that dominates the block is the target of the edge. -/
theorem eq_of_dominates {t : Nat} (controls : r.graph.Controls exitNode n s b)
    (edge : t ∈ r.graph.succs n) (dominates : t = b ∨ r.graph.Dominates t b) : s = t := by
  -- if control is committed to the block at the successor, too, the two are the same
  have settle : r.graph.PostDominates exitNode b t → s = t := fun commits =>
    eq_of_controls numbered flows controls ⟨edge, commits, controls.uncommitted⟩
  rcases dominates with rfl | dominates
  · exact settle (.refl exitNode t)
  · obtain ⟨before, path⟩ := flows.reached n s controls.edge
    obtain ⟨after, path'⟩ := (flows.travels_of_controls controls).reaches
    rcases List.mem_append.1 (dominates.2 _ (path.append controls.edge path')) with early | late
    · exact absurd (path.reaches_of_mem early).2 (flows.acyclic n t edge)
    · obtain ⟨onward, back⟩ := path'.reaches_of_mem late
      rcases controls.commits.forward onward with commits | around
      · exact settle commits
      · obtain rfl := flows.acyclic.eq_of_reaches back around
        exact settle (.refl exitNode t)

/-- A branch is taken toward a block that it alone controls exactly if its edge is the true one. -/
theorem takenToward_iff {d : Block} {condition : Operand} {onTrue onFalse : Handle}
    (inside : d ∈ r.blocks) (controls : r.graph.Controls exitNode d.handle s b)
    (only : ∀ k t, r.graph.Controls exitNode k t b → k = d.handle)
    (reached : r.graph.Reaches r.graph.entry b)
    (exit : d.terminator = .branch condition onTrue onFalse) :
    r.takenToward b d.terminator = true ↔ s = onTrue := by
  rw [exit, takenToward, numbered.dominates_iff]
  have edge : onTrue ∈ r.graph.succs d.handle := by
    rw [numbered.succs_handle inside, Block.targets, exit]
    exact Terminator.mem_successors_branch.2 (.inl rfl)
  constructor
  · exact eq_of_dominates numbered flows controls edge
  · rintro rfl
    exact .inr (dominates_of_controls numbered flows controls only reached)

/-- The test of a block that alone controls another comes out as its edge says. -/
theorem admits_iff {m : Module} {target : Handle} {x : Int} {d : Block} (inside : d ∈ r.blocks)
    (controls : r.graph.Controls exitNode d.handle s b)
    (only : ∀ k t, r.graph.Controls exitNode k t b → k = d.handle)
    (reached : r.graph.Reaches r.graph.entry b) :
    r.Admits m target x d.handle s ↔
      ∀ p, m.test? target d.terminator = some p → p x = r.takenToward b d.terminator := by
  have direction {condition : Operand} {onTrue onFalse : Handle}
      (exit : d.terminator = .branch condition onTrue onFalse) :=
    takenToward_iff numbered flows inside controls only reached exit
  constructor
  · intro admits p tested
    obtain ⟨condition, onTrue, onFalse, exit⟩ := Module.exists_branch_of_test? tested
    have distinct := distinct_of_controls numbered flows inside controls exit
    have taken := admits d inside rfl condition onTrue onFalse p exit distinct tested
    rw [Bool.eq_iff_iff, direction exit, taken]
  · intro own d' inside' same condition onTrue onFalse p exit _ tested
    obtain rfl := List.inj_on_of_nodup_map numbered.nodup inside' inside same
    rw [own p tested, direction exit]

end

/-! ## Controllers one above the other -/

/-- The block has one controller at most, and so do all blocks above it. -/
inductive Chained (r : Routine) : Handle → Prop where
  | free {b : Handle} (none : r.directControllers b = []) : Chained r b
  | under {b : Handle} {d : Block} (one : r.directControllers b = [d])
      (above : Chained r d.handle) : Chained r b

/-- Without cycles, single controllers form a chain. -/
theorem chained_of_single (numbered : r.Numbered) (acyclic : r.graph.Acyclic) {b : Handle}
    (own : (r.directControllers b).length ≤ 1)
    (above : ∀ d ∈ r.allControllers b, (r.directControllers d.handle).length ≤ 1) :
    r.Chained b := by
  have climb : ∀ n, (r.directControllers n).length ≤ 1 →
      (∀ d ∈ r.directControllers n, d ∈ r.allControllers b) → r.Chained n := by
    intro n
    induction n using acyclic.induction with
    | step n ih =>
        intro single known
        cases listed : r.directControllers n with
        | nil => exact .free listed
        | cons d rest =>
            rw [listed] at single
            have one : rest = [] := by simpa using single
            subst one
            have direct : d ∈ r.directControllers n := by simp [listed]
            have member := known d direct
            refine .under listed (ih d.handle ?_ (above d member) fun e direct' => ?_)
            · exact numbered.precedes_of_mem_directControllers direct
            · exact mem_allControllers_of_controls member direct'
  exact climb b own fun d => mem_allControllers_of_direct

/-- Without cycles, control can leave the function from every block. -/
theorem LoopFree.leaves (numbered : r.Numbered) (loopFree : r.LoopFree) : r.Leaves := by
  intro b inside
  have flows := flows {} numbered loopFree 0 0
  exact (flows.travels_exit (loopFree.reached b inside)).reaches

section

variable (numbered : r.Numbered) (leaves : r.Leaves)

include numbered leaves

theorem exists_controls_of_direct {b : Handle} {d : Block} (direct : d ∈ r.directControllers b) :
    d ∈ r.blocks ∧ ∃ s, r.graph.Controls exitNode d.handle s b := by
  obtain ⟨n, controls, found⟩ := mem_directControllers.1 direct
  rw [handle_of_block? found]
  exact ⟨List.mem_of_find?_eq_some found, (numbered.mem_controllers_iff leaves).1 controls⟩

theorem exists_direct_of_controls {b : Handle} {n s : Nat}
    (controls : r.graph.Controls exitNode n s b) : ∃ d ∈ r.directControllers b, d.handle = n := by
  obtain ⟨block, inside, rfl, -⟩ := exists_block_of_mem_succs controls.edge
  refine ⟨block, mem_directControllers.2 ⟨block.handle, ?_, numbered.block?_handle inside⟩, rfl⟩
  exact (numbered.mem_controllers_iff leaves).2 ⟨s, controls⟩

end

section

variable {m : Module} {target : Handle} {x : Int} {b : Handle}

theorem expand_singleton {fresh expanded : List Handle} {d : Block} (unmet : d.handle ∉ expanded)
    (inside : d.handle ∈ fresh) :
    (r.expand fresh [d] expanded).1 = .branch d (r.expand (fresh.erase d.handle)
      (r.directControllers d.handle) (d.handle :: expanded)).1 .bare := by
  rw [expand, if_neg unmet, dif_pos inside]
  simp only [expand]

/-- What is expanded for a block with one controller is granted where its test is and what is above. -/
theorem grants_branch_iff {d : Block} {above : Forest} :
    ((Forest.branch d above .bare).Speaks m target →
        (Forest.branch d above .bare).Grants m r target x b) ↔
      (∀ p, m.test? target d.terminator = some p → p x = r.takenToward b d.terminator) ∧
        (above.Speaks m target → above.Grants m r target x d.handle) := by
  simp only [Forest.Speaks, Forest.Grants, or_false]
  constructor
  · intro granted
    constructor
    · intro p tested
      exact (granted (.inl (by simp [tested]))).2.1 p tested
    · intro speaks
      exact (granted (.inr speaks)).2.2 speaks
  · rintro ⟨own, inner⟩ speaks
    exact ⟨speaks, own, inner⟩

/-- The only controller of a block lets through what passes its edge. -/
theorem lets_iff (numbered : r.Numbered) (loopFree : r.LoopFree) {d : Block} {s : Nat}
    (controls : r.graph.Controls exitNode d.handle s b)
    (only : ∀ k t, r.graph.Controls exitNode k t b → k = d.handle) :
    r.graph.Lets exitNode (r.Admits m target x) b ↔
      r.Admits m target x d.handle s ∧ r.graph.Lets exitNode (r.Admits m target x) d.handle := by
  have flows := flows m numbered loopFree target x
  constructor
  · intro lets
    cases lets with
    | free uncontrolled => exact absurd controls (uncontrolled d.handle s)
    | through controls' passable lets =>
        obtain rfl := only _ _ controls'
        rw [eq_of_controls numbered flows controls controls']
        exact ⟨passable, lets⟩
  · rintro ⟨passable, lets⟩
    exact .through controls passable lets

/-- The controllers of a chain grant what they let through. -/
theorem Chained.grants_iff (numbered : r.Numbered) (loopFree : r.LoopFree) (chained : r.Chained b)
    (reached : r.graph.Reaches r.graph.entry b) {fresh expanded : List Handle}
    (unmet : ∀ d ∈ r.blocks, r.graph.Precedes d.handle b →
      d.handle ∈ fresh ∧ d.handle ∉ expanded) :
    ((r.expand fresh (r.directControllers b) expanded).1.Speaks m target →
        (r.expand fresh (r.directControllers b) expanded).1.Grants m r target x b) ↔
      r.graph.Lets exitNode (r.Admits m target x) b := by
  have flows := flows m numbered loopFree target x
  have leaves := loopFree.leaves numbered
  induction chained generalizing fresh expanded with
  | @free b none =>
      have uncontrolled : ∀ n s, ¬r.graph.Controls exitNode n s b := by
        intro n s controls
        obtain ⟨d, direct, -⟩ := exists_direct_of_controls numbered leaves controls
        simp [none] at direct
      rw [none, expand]
      simp [Forest.Speaks, Graph.Lets.free uncontrolled]
  | @under b d one above ih =>
      have direct : d ∈ r.directControllers b := by simp [one]
      have precedes := numbered.precedes_of_mem_directControllers direct
      obtain ⟨inside, s, controls⟩ := exists_controls_of_direct numbered leaves direct
      have only : ∀ k t, r.graph.Controls exitNode k t b → k = d.handle := by
        intro k t controls'
        obtain ⟨e, direct', rfl⟩ := exists_direct_of_controls numbered leaves controls'
        rw [one, List.mem_singleton] at direct'
        rw [direct']
      obtain ⟨listed, unexpanded⟩ := unmet d inside precedes
      -- what lies before the controller has been met neither before nor at the controller itself
      have unmet' : ∀ e ∈ r.blocks, r.graph.Precedes e.handle d.handle →
          e.handle ∈ fresh.erase d.handle ∧ e.handle ∉ d.handle :: expanded := by
        intro e inside' before
        obtain ⟨listed', unexpanded'⟩ := unmet e inside' (before.trans precedes)
        have different : e.handle ≠ d.handle := by
          intro same
          rw [same] at before
          exact loopFree.acyclic.not_precedes d.handle before
        constructor
        · exact (List.mem_erase_of_ne different).2 listed'
        · simp [different, unexpanded']
      rw [one, expand_singleton unexpanded listed, grants_branch_iff,
        ← admits_iff numbered flows inside controls only reached,
        lets_iff numbered loopFree controls only]
      exact and_congr_right' (ih (loopFree.reached d inside) unmet')

end

/--
If a block and all blocks above it have one controller at most, its path condition holds exactly of the
results that are admitted on some path to it.
-/
theorem pathCondition_exact {m : Module} {edits : List Edit} {f target callee : Handle}
    {arguments : List Handle} {r : Routine} {b : Block} (x : Int)
    (built : m = Module.build {} edits) (read : ofFunction m f = .ok r) (loopFree : r.LoopFree)
    (call : m.op? target = some (.call callee arguments)) (inside : b ∈ r.blocks)
    (own : (r.directControllers b.handle).length ≤ 1)
    (above : ∀ d ∈ r.allControllers b.handle, (r.directControllers d.handle).length ≤ 1) :
    (∀ c, pathCondition? m r b.handle target = some c → c.holds x = true) ↔
      r.Admitted m target x b.handle := by
  subst built
  have numbered := numbered_of_read read
  have chained := chained_of_single numbered loopFree.acyclic own above
  rw [forall_pathCondition? numbered loopFree.acyclic call, admitted_iff numbered loopFree inside]
  apply chained.grants_iff numbered loopFree (loopFree.reached b inside)
  intro d listed _
  exact ⟨List.mem_map_of_mem listed, List.not_mem_nil⟩

end Routine

/-! ## Nested checks -/

/-- A block that is reached if the result of a call is negative and, in a further check, -5. -/
def nestedChecks : Module :=
  Module.build {}
    [.external "read" .i32,
      .function "f" .i32 [],
      .block 2 "entry", .block 2 "negative", .block 2 "special", .block 2 "out",
      .call (some 3) 1 [] "t" none,
      .compare (some 3) .slt (.value 7) (.literal 0) "c", .branch (some 3) (.value 8) 4 6,
      .compare (some 4) .eq (.value 7) (.literal (-5)) "d", .branch (some 4) (.value 11) 5 6,
      .ret (some 5) (some (.literal 1)),
      .ret (some 6) (some (.literal 0))]

/-- The flow graph of the function in `nestedChecks`. -/
def nestedGraph : Graph Nat :=
  ⟨3, [(3, [4, 6]), (4, [5, 6]), (5, [0]), (6, [0]), (0, [])]⟩

theorem nestedGraph_acyclic : nestedGraph.Acyclic :=
  .of_rank (fun n => if n = exitNode then 7 else n) (by decide)

theorem nestedGraph_reaches : ∀ n ∈ [3, 4, 5, 6], nestedGraph.Reaches 3 n := by
  have negative : nestedGraph.Reaches 3 4 := .step (by decide) (.refl _ 4)
  have special : nestedGraph.Reaches 4 5 := .step (by decide) (.refl _ 5)
  have out : nestedGraph.Reaches 4 6 := .step (by decide) (.refl _ 6)
  simp only [List.forall_mem_cons]
  exact ⟨.refl _ 3, negative, negative.trans special, negative.trans out, by simp⟩

theorem nestedChecks_read :
    ∃ r, Routine.ofFunction nestedChecks 2 = .ok r ∧ r.LoopFree ∧
      ∃ b ∈ r.blocks, (r.directControllers b.handle).length = 1 ∧
        (∀ d ∈ r.allControllers b.handle, (r.directControllers d.handle).length ≤ 1) ∧
        r.pathCondition? nestedChecks b.handle 7 =
          some (.and (.relation .eq .result (.int (-5))) (.relation .lt .result (.int 0))) := by
  have checked : (Routine.ofFunction nestedChecks 2).toOption.any (fun r =>
      r.graph = nestedGraph ∧ r.blocks.map Block.handle = [3, 4, 5, 6] ∧
        (r.directControllers 5).length = 1 ∧
        ((r.allControllers 5).all fun d => (r.directControllers d.handle).length ≤ 1) = true ∧
        r.pathCondition? nestedChecks 5 7 =
          some (.and (.relation .eq .result (.int (-5))) (.relation .lt .result (.int 0)))) = true := by
    cbv
  obtain ⟨r, read, facts⟩ := Routine.exists_read checked
  obtain ⟨graph, handles, own, above, condition⟩ := of_decide_eq_true facts
  have listed : ∀ n, n ∈ r.blocks.map Block.handle ↔ n ∈ [3, 4, 5, 6] := by simp [handles]
  have loopFree : r.LoopFree := by
    constructor
    · rw [graph]
      exact nestedGraph_acyclic
    · intro b inside
      rw [graph]
      exact nestedGraph_reaches b.handle ((listed _).1 (List.mem_map_of_mem inside))
  obtain ⟨b, inside, special⟩ := List.mem_map.1 ((listed 5).2 (by decide))
  refine ⟨r, read, loopFree, b, inside, ?_⟩
  rw [special]
  simp only [List.all_eq_true, decide_eq_true_eq] at above
  exact ⟨own, above, condition⟩

theorem nestedChecks_call : nestedChecks.op? 7 = some (.call 1 []) := by decide +kernel

/-- Of the results -5 and -4, the first is admitted on a path to the block, the second on none. -/
theorem pathCondition_exact_nestedChecks :
    ∃ r b, Routine.ofFunction nestedChecks 2 = .ok r ∧ r.LoopFree ∧
      nestedChecks.op? 7 = some (.call 1 []) ∧ b ∈ r.blocks ∧
      (r.directControllers b.handle).length = 1 ∧
      (∀ d ∈ r.allControllers b.handle, (r.directControllers d.handle).length ≤ 1) ∧
      r.Admitted nestedChecks 7 (-5) b.handle ∧ ¬r.Admitted nestedChecks 7 (-4) b.handle := by
  obtain ⟨r, read, loopFree, b, inside, own, above, condition⟩ := nestedChecks_read
  have exactness (x : Int) := Routine.pathCondition_exact (m := nestedChecks) x rfl read loopFree
    nestedChecks_call inside own.le above
  refine ⟨r, b, read, loopFree, nestedChecks_call, inside, own, above, ?_, ?_⟩
  · apply (exactness (-5)).1
    intro c known
    rw [condition] at known
    cases known
    decide
  · intro admitted
    have holds := (exactness (-4)).2 admitted _ condition
    exact absurd holds (by decide)

end ErrorContracts
