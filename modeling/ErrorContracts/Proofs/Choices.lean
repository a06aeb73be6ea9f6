import ErrorContracts.Proofs.Admission
import ErrorContracts.Proofs.Dependence

/-!
# Controllers have a choice

A block is control dependent on another if the other has an edge that commits control to it, without
being committed itself.  In a function that can be left from every block, such a controller ends in
a branch with two targets.  For with one successor only, all ways from the controller would pass the
block, so it would have to be the block itself; and then the ways from its successor to the exit
would come back to it for ever.
-/

namespace ErrorContracts

/-- A node that controls something has a second successor. -/
theorem Graph.Controls.exists_other {ν : Type} [DecidableEq ν] {g : Graph ν} {exit a s b : ν}
    (controls : g.Controls exit a s b) (inner : a ≠ exit) (leaves : g.Reaches s exit) :
    ∃ t ∈ g.succs a, t ≠ s := by
  by_contra single
  simp only [not_exists, not_and, not_not] at single
  have bound : g.PostDominates exit b a := by
    intro passed path
    cases path with
    | here => exact absurd rfl inner
    | step edge rest =>
        rw [single _ edge] at rest
        exact List.mem_cons_of_mem a (controls.commits _ rest)
  have same : b = a := by
    by_contra other
    exact controls.uncommitted ⟨other, bound⟩
  -- a way from `s` to the exit passes `a`, and behind it begins a shorter way from `s`
  have endless : ∀ length passed, g.Path s exit passed → passed.length = length → False := by
    intro length
    induction length using Nat.strong_induction_on with
    | _ length ih =>
        intro passed path measured
        have back : a ∈ passed := same ▸ controls.commits passed path
        obtain ⟨before, after, rfl⟩ := List.append_of_mem back
        obtain ⟨-, rest⟩ := path.split
        cases rest with
        | here => exact inner rfl
        | step edge rest =>
            rw [single _ edge] at rest
            refine ih after.length ?_ after rest rfl
            simp only [List.length_append, List.length_cons] at measured
            omega
  obtain ⟨passed, path⟩ := leaves
  exact endless _ passed path rfl

/-- The block returns, or control ends there. -/
def Block.Quits (b : Block) : Prop := (∃ v, b.terminator = .ret v) ∨ b.terminator = .unreachable

theorem Block.Quits.targets {b : Block} (quits : b.Quits) : b.targets = [exitNode] := by
  unfold Block.targets
  rcases quits with ⟨v, returns⟩ | stops
  · rw [returns]
  · rw [stops]

namespace Routine

variable {r : Routine}

theorem leaves_of_quits (numbered : r.Numbered)
    (quits : ∀ b ∈ r.blocks, ∃ e ∈ r.blocks, e.Quits ∧ r.graph.Reaches b.handle e.handle) :
    r.Leaves := by
  intro b inside
  obtain ⟨e, last, ends, reaches⟩ := quits b inside
  refine reaches.trans (.step ?_ (.refl r.graph exitNode))
  rw [numbered.succs_handle last, ends.targets]
  exact List.mem_singleton_self _

/-- The dependents of a node are the nodes that it controls. -/
theorem Numbered.mem_dependents_iff (numbered : r.Numbered) {a b : Nat} :
    b ∈ r.dependents a ↔ a ∈ r.controllers b := by
  rw [mem_controllers, dependents, dependentsIn, r.dependence_eq]
  by_cases listed : a ∈ r.graph.nodes
  · have bound : (a, r.graph.dependentsOf r.ipdom a) ∈ r.graph.dependence r.ipdom :=
      List.mem_map.2 ⟨a, listed, rfl⟩
    have once : ((r.graph.dependence r.ipdom).map Prod.fst).Nodup := by
      rw [Graph.dependence, List.map_map]
      exact numbered.nodup_nodes.map fun _ _ same => same
    rw [Bindings.find?_of_mem once bound]
    simp only [Option.getD_some, Graph.dependentsOf, SortedSet.mem_ofList, List.mem_flatMap]
  · have unbound : Bindings.find? a (r.graph.dependence r.ipdom) = none := by
      rw [← Option.not_isSome_iff_eq_none, Bindings.find?_isSome_iff, Graph.dependence,
        List.map_map]
      simpa using listed
    rw [unbound]
    simp only [Option.getD_none, SortedSet.not_mem_empty, false_iff]
    rintro ⟨s, edge, -⟩
    exact listed (Graph.mem_nodes_of_mem_succs edge)

/-- A controller ends in a branch with two targets. -/
theorem exists_branch_of_controls (numbered : r.Numbered) (leaves : r.Leaves) {a s b : Nat}
    (controls : r.graph.Controls exitNode a s b) :
    ∃ d ∈ r.blocks, d.handle = a ∧
      ∃ condition onTrue onFalse, d.terminator = .branch condition onTrue onFalse ∧
        onTrue ≠ onFalse := by
  obtain ⟨d, inside, rfl, -⟩ := exists_block_of_mem_succs controls.edge
  obtain ⟨t, second, other⟩ := controls.exists_other (numbered.inside d inside)
    (leaves.of_succs controls.edge).2
  have first := controls.edge
  rw [numbered.succs_handle inside, Block.targets] at first second
  refine ⟨d, inside, rfl, ?_⟩
  cases exit : d.terminator with
  | branch condition onTrue onFalse =>
      refine ⟨condition, onTrue, onFalse, rfl, ?_⟩
      rintro rfl
      simp only [exit, Terminator.mem_successors_branch, or_self] at first second
      exact other (second.trans first.symm)
  | jump next =>
      simp only [exit, Terminator.successors, List.mem_singleton] at first second
      exact absurd (second.trans first.symm) other
  | ret value =>
      simp only [exit, List.mem_singleton] at first second
      exact absurd (second.trans first.symm) other
  | unreachable =>
      simp only [exit, List.mem_singleton] at first second
      exact absurd (second.trans first.symm) other

/--
In a function of which every block can come to a block that ends it, the controllers of a block are
the blocks with a successor from which all ways out pass the block, while it does not strictly
post-dominate them.  Dependents are the converse, and every controller ends in a branch with two
targets.
-/
theorem controllers_exact {m : Module} {edits : List Edit} {f : Handle}
    (built : m = Module.build {} edits) (read : ofFunction m f = .ok r)
    (quits : ∀ b ∈ r.blocks, ∃ e ∈ r.blocks, e.Quits ∧ r.graph.Reaches b.handle e.handle)
    (b : Nat) :
    (∀ a, a ∈ r.controllers b ↔ ∃ d ∈ r.blocks, d.handle = a ∧ ∃ s ∈ r.graph.succs a,
        r.graph.PostDominates exitNode b s ∧
          ¬(b ≠ a ∧ r.graph.PostDominates exitNode b a)) ∧
      (∀ a, b ∈ r.dependents a ↔ a ∈ r.controllers b) ∧
      ∀ a ∈ r.controllers b, ∃ d ∈ r.blocks, d.handle = a ∧
        ∃ condition onTrue onFalse, d.terminator = .branch condition onTrue onFalse ∧
          onTrue ≠ onFalse := by
  subst built
  have numbered := numbered_of_read read
  have leaves := leaves_of_quits numbered quits
  refine ⟨fun a => ?_, fun a => numbered.mem_dependents_iff, fun a controls => ?_⟩
  · rw [numbered.mem_controllers_iff leaves]
    constructor
    · rintro ⟨s, controls⟩
      obtain ⟨d, inside, same, -⟩ := exists_block_of_mem_succs controls.edge
      exact ⟨d, inside, same, s, controls.edge, controls.commits, controls.uncommitted⟩
    · rintro ⟨d, -, -, s, edge, commits, uncommitted⟩
      exact ⟨s, edge, commits, uncommitted⟩
  · obtain ⟨s, controls⟩ := (numbered.mem_controllers_iff leaves).1 controls
    exact exists_branch_of_controls numbered leaves controls

end Routine

/-! ## A loop that controls itself -/

/-- A function that calls `read` until the result is not negative, and then returns or stops. -/
def polling : Module :=
  Module.build {}
    [.external "read" .i32,
      .function "f" .i32 [],
      .block 2 "entry", .block 2 "header", .block 2 "body", .block 2 "after", .block 2 "done",
      .block 2 "stop",
      .jump (some 3) 4,
      .call (some 4) 1 [] "t" none,
      .compare (some 4) .slt (.value 10) (.literal 0) "c", .branch (some 4) (.value 11) 5 6,
      .jump (some 5) 4,
      .branch (some 6) (.value 11) 7 8,
      .ret (some 7) none,
      .unreachable (some 8)]

/-- The flow graph of the function in `polling`. -/
def pollingGraph : Graph Nat :=
  ⟨3, [(3, [4]), (4, [5, 6]), (5, [4]), (6, [7, 8]), (7, [0]), (8, [0]), (0, [])]⟩

theorem pollingGraph_reaches :
    ∀ n ∈ [3, 4, 5, 6, 7, 8], pollingGraph.Reaches n 7 ∨ pollingGraph.Reaches n 8 := by
  have done : pollingGraph.Reaches 6 7 := .step (by decide) (.refl _ 7)
  have header : pollingGraph.Reaches 4 7 := .step (by decide) done
  have entry : pollingGraph.Reaches 3 7 := .step (by decide) header
  have body : pollingGraph.Reaches 5 7 := .step (by decide) header
  simp only [List.forall_mem_cons]
  exact ⟨.inl entry, .inl header, .inl body, .inl done, .inl (.refl _ 7), .inr (.refl _ 8), by simp⟩

theorem polling_read :
    ∃ r, Routine.ofFunction polling 2 = .ok r ∧
      (∀ b ∈ r.blocks, ∃ e ∈ r.blocks, e.Quits ∧ r.graph.Reaches b.handle e.handle) ∧
      4 ∈ r.controllers 4 ∧ 4 ∉ r.controllers 6 := by
  have checked : (Routine.ofFunction polling 2).toOption.any (fun r =>
      r.graph = pollingGraph ∧ r.blocks.map Block.handle = [3, 4, 5, 6, 7, 8] ∧
        (∃ e ∈ r.blocks, e.handle = 7 ∧ e.terminator = .ret none) ∧
        (∃ e ∈ r.blocks, e.handle = 8 ∧ e.terminator = .unreachable) ∧
        4 ∈ r.controllers 4 ∧ 4 ∉ r.controllers 6) = true := by
    cbv
  obtain ⟨r, read, facts⟩ := Routine.exists_read checked
  obtain ⟨graph, handles, ⟨done, last, atDone, returns⟩, ⟨stop, last', atStop, stops⟩, own, free⟩ :=
    of_decide_eq_true facts
  refine ⟨r, read, fun b inside => ?_, own, free⟩
  have listed : b.handle ∈ [3, 4, 5, 6, 7, 8] := handles ▸ List.mem_map_of_mem inside
  rcases pollingGraph_reaches b.handle listed with reaches | reaches
  · exact ⟨done, last, .inl ⟨none, returns⟩, by rwa [graph, atDone]⟩
  · exact ⟨stop, last', .inr stops, by rwa [graph, atStop]⟩

/-- The header of the loop has an edge from which all ways out lead back to it; `after` has none. -/
theorem controllers_exact_polling :
    ∃ r, Routine.ofFunction polling 2 = .ok r ∧
      (∃ s ∈ r.graph.succs 4, r.graph.PostDominates exitNode 4 s) ∧ 4 ∈ r.dependents 4 ∧
      (∃ d ∈ r.blocks, d.handle = 4 ∧ ∃ condition onTrue onFalse,
        d.terminator = .branch condition onTrue onFalse ∧ onTrue ≠ onFalse) ∧
      ∀ s ∈ r.graph.succs 4, r.graph.PostDominates exitNode 6 s →
        r.graph.PostDominates exitNode 6 4 := by
  obtain ⟨r, read, quits, own, free⟩ := polling_read
  obtain ⟨found, converse, choice⟩ := Routine.controllers_exact (m := polling) rfl read quits 4
  obtain ⟨found', -, -⟩ := Routine.controllers_exact (m := polling) rfl read quits 6
  obtain ⟨d, inside, same, s, edge, commits, -⟩ := (found 4).1 own
  refine ⟨r, read, ⟨s, edge, commits⟩, (converse 4).2 own, choice 4 own, fun t edge' commits' => ?_⟩
  by_contra uncommitted
  exact free ((found' 4).2 ⟨d, inside, same, t, edge', commits', fun both => uncommitted both.2⟩)

end ErrorContracts
