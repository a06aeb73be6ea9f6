import ErrorContracts.Proofs.Building
import ErrorContracts.Proofs.Commitment

/-!
# Controllers come first

The tree of immediate dominators is built from the edges of a graph, so a node is related to its
parent by every reflexive and transitive relation that holds along edges.  In the tree of
post-dominators a node thus reaches its ancestors, and a block from which another is controlled lies
before it.
-/

namespace ErrorContracts

/-- What a step keeps is kept by repeating it. -/
theorem descend_invariant {α : Type} {measure : α → Nat} {step : α → α} {Inv : α → Prop}
    (keeps : ∀ a, Inv a → Inv (step a)) {a : α} (start : Inv a) : Inv (descend measure step a) := by
  fun_induction descend measure step a with
  | case1 a _ ih => exact ih (keeps a start)
  | case2 a _ => exact keeps a start

theorem rel_of_mem_trail {α : Type} [DecidableEq α] {R : α → α → Prop}
    (trans : ∀ a b c, R a b → R b c → R a c) {next : α → Option α}
    (step : ∀ a b, next a = some b → R b a) {fresh : List α} {a b : α}
    (met : b ∈ trail next fresh a) : R b a := by
  fun_induction trail next fresh a with
  | case1 fresh a _ c found ih =>
      rcases List.mem_cons.1 met with rfl | later
      · exact step a b found
      · exact trans b c a (ih later) (step a c found)
  | case2 => cases met
  | case3 => cases met

section

variable {ν : Type} [Ord ν] [DecidableEq ν] {R : ν → ν → Prop}

/-- Every node is related to its parent. -/
def ParentMap.Along (parents : ParentMap ν) (R : ν → ν → Prop) : Prop :=
  ∀ n p, parents.get? n = some p → R p n

namespace ParentMap.Along

variable {parents : ParentMap ν} (along : parents.Along R) (refl : ∀ n, R n n)
  (trans : ∀ a b c, R a b → R b c → R a c)

include along refl in
theorem getD (n : ν) : R (parents.getD n n) n := by
  unfold SortedMap.getD
  cases found : parents.get? n with
  | none => exact refl n
  | some p => exact along n p found

include along trans in
theorem ancestors {a n : ν} (above : a ∈ parents.ancestors n) : R a n := by
  apply rel_of_mem_trail trans ?_ above
  intro n p found
  exact along n p (Option.filter_eq_some_iff.1 found).1

include along refl trans in
/-- The meet lies above at least one of two nodes. -/
theorem meet (rank : ν → Nat) (a b : ν) :
    R (parents.meet rank a b) a ∨ R (parents.meet rank a b) b := by
  fun_induction parents.meet rank a b with
  | case1 a => exact .inl (refl a)
  | case2 a b _ _ up _ ih =>
      exact ih.imp_left fun above => trans _ _ _ above (along.getD refl a)
  -- a node that has no parent of lower rank ends the search, whatever the other node is
  | case3 a b => exact .inl (refl a)
  | case4 a b _ _ up _ ih =>
      exact ih.imp_right fun above => trans _ _ _ above (along.getD refl b)
  | case5 a b => exact .inr (refl b)

include along refl trans in
theorem foldl_meet (rank : ν → Nat) {n p : ν} {rest : List ν} (others : ∀ a ∈ rest, R a n)
    (first : R p n) : R (rest.foldl (fun found q => parents.meet rank q found) p) n := by
  induction rest generalizing p with
  | nil => exact first
  | cons q rest ih =>
      obtain ⟨second, others⟩ := List.forall_mem_cons.1 others
      apply ih others
      rcases along.meet refl trans rank q p with above | above
      · exact trans _ _ _ above second
      · exact trans _ _ _ above first

variable [Std.TransOrd ν] [Std.LawfulEqOrd ν]

include along in
theorem insert {n p : ν} (above : R p n) : ParentMap.Along (SortedMap.insert parents n p) R := by
  intro k q found
  rw [SortedMap.get?_insert] at found
  split at found
  next same =>
    cases found
    subst same
    exact above
  next => exact along k q found

variable {g : Graph ν} (edge : ∀ n, ∀ a ∈ g.preds n, R a n)

include along refl trans edge in
theorem adopt (rank : ν → Nat) (n : ν) : ParentMap.Along (g.adopt rank parents n) R := by
  unfold Graph.adopt
  split
  · exact along
  · rename_i p rest listed
    have each : ∀ a ∈ p :: rest, R a n := by
      intro a inside
      rw [← listed] at inside
      exact edge n a (List.mem_filter.1 inside).1
    obtain ⟨first, others⟩ := List.forall_mem_cons.1 each
    exact along.insert (foldl_meet along refl trans rank others first)

end ParentMap.Along

variable [Std.TransOrd ν] [Std.LawfulEqOrd ν]

/-- A relation along edges is one along the tree of dominators. -/
theorem Graph.along_dominators {g : Graph ν} (refl : ∀ n, R n n)
    (trans : ∀ a b c, R a b → R b c → R a c) (edge : ∀ n, ∀ a ∈ g.preds n, R a n) :
    g.dominators.Along R := by
  have sweeps : ∀ parents : ParentMap ν, parents.Along R →
      ParentMap.Along (g.sweep g.reversePostorder parents) R := by
    intro parents along
    unfold Graph.sweep
    induction g.reversePostorder.filter fun n => n ≠ g.entry generalizing parents with
    | nil => exact along
    | cons n rest ih => exact ih _ (along.adopt refl trans edge _ n)
  have start : ParentMap.Along ((∅ : ParentMap ν).insert g.entry g.entry) R := by
    apply ParentMap.Along.insert
    · intro n p found
      cases found
    · exact refl g.entry
  exact descend_invariant sweeps start

end

/-! ## The flow graph of a routine -/

namespace Routine

variable {r : Routine}

theorem nodes_eq (r : Routine) : r.graph.nodes = r.blocks.map Block.handle ++ [exitNode] := by
  rw [r.graph_eq]
  simp [flowGraph, Graph.nodes, Function.comp_def]

theorem mem_adjacency_iff {n : Nat} {targets : List Nat} :
    (n, targets) ∈ r.graph.adjacency ↔
      (∃ b ∈ r.blocks, b.handle = n ∧ b.targets = targets) ∨ n = exitNode ∧ targets = [] := by
  rw [r.graph_eq]
  simp [flowGraph]

theorem exists_entry (r : Routine) : ∃ b ∈ r.blocks, b.handle = r.graph.entry := by
  obtain ⟨b, rest, listed⟩ := List.exists_cons_of_ne_nil r.nonempty
  rw [r.graph_eq, listed]
  exact ⟨b, List.mem_cons_self, rfl⟩

/-- Control goes from a block to a block or leaves the function. -/
theorem mem_targets_cases {b : Block} (inside : b ∈ r.blocks) {s : Nat} (target : s ∈ b.targets) :
    s = exitNode ∨ ∃ next ∈ r.blocks, next.handle = s := by
  have closed := r.closed b inside s
  unfold Block.targets at target
  cases exit : b.terminator with
  | ret value =>
      rw [exit] at target
      exact .inl (List.mem_singleton.1 target)
  | unreachable =>
      rw [exit] at target
      exact .inl (List.mem_singleton.1 target)
  | branch condition onTrue onFalse =>
      rw [exit] at target closed
      exact .inr (List.mem_map.1 (closed target))
  | jump next =>
      rw [exit] at target closed
      exact .inr (List.mem_map.1 (closed target))

theorem exists_block_of_mem_succs {n s : Nat} (edge : s ∈ r.graph.succs n) :
    ∃ b ∈ r.blocks, b.handle = n ∧ s ∈ b.targets := by
  unfold Graph.succs at edge
  cases found : Bindings.find? n r.graph.adjacency with
  | none =>
      rw [found] at edge
      cases edge
  | some targets =>
      rw [found] at edge
      rcases mem_adjacency_iff.1 (Bindings.mem_of_find? found) with ⟨b, inside, same, rfl⟩ | ⟨-, rfl⟩
      · exact ⟨b, inside, same, edge⟩
      · cases edge

theorem reached_cases {n : Nat} (reaches : r.graph.Reaches r.graph.entry n) :
    n = exitNode ∨ ∃ b ∈ r.blocks, b.handle = n := by
  rcases reaches.eq_or_exists_edge with rfl | ⟨d, -, edge⟩
  · exact .inr (exists_entry r)
  · obtain ⟨b, inside, -, target⟩ := exists_block_of_mem_succs edge
    exact mem_targets_cases inside target

theorem handle_of_block? {n : Nat} {b : Block} (found : r.block? n = some b) : b.handle = n := by
  simpa using List.find?_some found

theorem mem_byTerminator {nodes : List Nat} {d : Block} :
    d ∈ r.byTerminator nodes ↔ ∃ n ∈ nodes, r.block? n = some d := by
  rw [byTerminator, List.mem_mergeSort, List.mem_filterMap]

theorem mem_directControllers {d : Block} {b : Handle} :
    d ∈ r.directControllers b ↔ ∃ n ∈ r.controllers b, r.block? n = some d := mem_byTerminator

theorem nodup_byTerminator {nodes : List Nat} (nodup : nodes.Nodup) :
    ((r.byTerminator nodes).map Block.handle).Nodup := by
  have same : ((r.byTerminator nodes).map Block.handle).Perm
      ((nodes.filterMap r.block?).map Block.handle) := (List.mergeSort_perm _ _).map _
  rw [same.nodup_iff]
  apply List.Nodup.sublist ?_ nodup
  clear same nodup
  induction nodes with
  | nil => exact .slnil
  | cons n rest ih =>
      rw [List.filterMap_cons]
      cases found : r.block? n with
      | none => exact ih.cons n
      | some d =>
          rw [List.map_cons, handle_of_block? found]
          exact ih.cons_cons n

theorem nodup_directControllers (r : Routine) (b : Handle) :
    ((r.directControllers b).map Block.handle).Nodup :=
  nodup_byTerminator (r.controllers b).ascending.nodup

/-- A controller has an edge on whose way up the node is met. -/
theorem mem_controllers {a b : Nat} :
    a ∈ r.controllers b ↔ ∃ s ∈ r.graph.succs a, b ∈ Graph.committed r.ipdom a s := by
  unfold controllers controllersIn
  rw [r.dependence_eq, SortedSet.mem_ofList]
  simp only [Graph.dependence, Graph.dependentsOf, List.mem_map, List.mem_filter, decide_eq_true_eq]
  constructor
  · rintro ⟨_, ⟨⟨_, _, rfl⟩, depends⟩, rfl⟩
    simpa only [SortedSet.mem_ofList, List.mem_flatMap] using depends
  · rintro ⟨s, edge, met⟩
    refine ⟨_, ⟨⟨a, Graph.mem_nodes_of_mem_succs edge, rfl⟩, ?_⟩, rfl⟩
    simp only [SortedSet.mem_ofList, List.mem_flatMap]
    exact ⟨s, edge, met⟩

namespace Numbered

variable (numbered : r.Numbered)

include numbered

theorem nodup_nodes : r.graph.nodes.Nodup := by
  rw [nodes_eq, List.nodup_append]
  refine ⟨numbered.nodup, by simp, ?_⟩
  intro h listed n last
  obtain ⟨b, inside, rfl⟩ := List.mem_map.1 listed
  rw [List.mem_singleton.1 last]
  exact numbered.inside b inside

theorem succs_eq {n : Nat} {targets : List Nat} (listed : (n, targets) ∈ r.graph.adjacency) :
    r.graph.succs n = targets := by
  unfold Graph.succs
  rw [Bindings.find?_of_mem numbered.nodup_nodes listed]
  rfl

/-- The successors of a block are the nodes that may follow it. -/
theorem succs_handle {b : Block} (inside : b ∈ r.blocks) :
    r.graph.succs b.handle = b.targets :=
  numbered.succs_eq (mem_adjacency_iff.2 (.inl ⟨b, inside, rfl, rfl⟩))

theorem mem_succs_of_mem_preds {a n : Nat} (edge : a ∈ r.graph.preds n) :
    n ∈ r.graph.succs a := by
  obtain ⟨targets, listed, target⟩ := Graph.mem_preds.1 edge
  rw [numbered.succs_eq listed]
  exact target

/-- A node reaches its immediate post-dominator. -/
theorem along_ipdom : r.ipdom.Along fun p n => r.graph.Reaches n p := by
  rw [r.ipdom_eq]
  apply Graph.along_dominators
  · exact Graph.Reaches.refl r.graph
  · intro a b c upper lower
    exact lower.trans upper
  · intro n a edge
    obtain ⟨targets, listed, target⟩ := Graph.mem_preds.1 edge
    simp only [Graph.reversed, List.mem_map, Prod.mk.injEq] at listed
    obtain ⟨_, _, rfl, rfl⟩ := listed
    exact .step (numbered.mem_succs_of_mem_preds target) (.refl r.graph _)

/-- A controller lies before what it controls. -/
theorem precedes_of_mem_controllers {a b : Nat} (controls : a ∈ r.controllers b) :
    r.graph.Precedes a b := by
  obtain ⟨s, edge, committed⟩ := mem_controllers.1 controls
  refine ⟨s, edge, ?_⟩
  have upward : b ∈ s :: r.ipdom.ancestors s := (List.takeWhile_sublist _).subset committed
  rcases List.mem_cons.1 upward with rfl | above
  · exact .refl r.graph b
  · apply numbered.along_ipdom.ancestors ?_ above
    intro a b c upper lower
    exact lower.trans upper

theorem precedes_of_mem_directControllers {d : Block} {b : Handle}
    (controls : d ∈ r.directControllers b) : r.graph.Precedes d.handle b := by
  obtain ⟨n, among, found⟩ := mem_directControllers.1 controls
  rw [handle_of_block? found]
  exact numbered.precedes_of_mem_controllers among

end Numbered

end Routine

end ErrorContracts
