import ErrorContracts.Proofs.Controllers
import ErrorContracts.Proofs.Dominance

/-!
# Control dependence is found

In the tree of post-dominators a node is above another exactly if no way to the exit leads around it.
So the nodes that an edge commits control to, and its source does not, are met on the way up the tree
from the target of the edge, before the immediate post-dominator of the source.  The controllers of a
node in a routine are thus the nodes with an edge that commits control to it.
-/

namespace ErrorContracts

/-! ## Walking up to a node -/

/-- In a list that descends, the elements in front of `p` are those of higher rank. -/
theorem mem_takeWhile_ne_iff {α : Type} [DecidableEq α] {f : α → Nat} {l : List α} {b p : α}
    (descends : l.Pairwise fun x y => f y < f x) (inside : p ∈ l) :
    (b ∈ l.takeWhile fun x => x ≠ p) ↔ b ∈ l ∧ f p < f b := by
  induction l with
  | nil => cases inside
  | cons x l ih =>
      obtain ⟨first, descends⟩ := List.pairwise_cons.1 descends
      by_cases same : x = p
      · subst same
        rw [List.takeWhile_cons_of_neg (by simp)]
        simp only [List.not_mem_nil, List.mem_cons, false_iff, not_and, not_lt]
        rintro (rfl | later)
        · exact le_rfl
        · exact (first b later).le
      · have later : p ∈ l := (List.mem_cons.1 inside).resolve_left fun h => same h.symm
        rw [List.takeWhile_cons_of_pos (by simpa using same), List.mem_cons, ih descends later,
          List.mem_cons]
        constructor
        · rintro (rfl | ⟨member, higher⟩)
          · exact ⟨.inl rfl, first p later⟩
          · exact ⟨.inr member, higher⟩
        · rintro ⟨rfl | member, higher⟩
          · exact .inl rfl
          · exact .inr ⟨member, higher⟩

/-- The way up from `s` to the parent `p` of `a` meets the nodes above `s` that are not above `p`. -/
theorem ParentMap.Rooted.mem_committed {ν : Type} [Ord ν] [DecidableEq ν] {parents : ParentMap ν}
    {order : List ν} {root a b p s : ν} (rooted : parents.Rooted order root)
    (parent : parents.get? a = some p) (met : parents.Above p s) :
    b ∈ Graph.committed parents a s ↔ parents.Above b s ∧ ¬parents.Above b p := by
  have members : ∀ k, k ∈ s :: parents.ancestors s ↔ parents.Above k s := by
    intro k
    rw [← rooted.isAbove_iff, List.mem_cons, isAbove, Bool.or_eq_true, decide_eq_true_eq,
      decide_eq_true_eq]
  have test : (fun n => decide (some n ≠ parents.get? a)) = fun n => decide (n ≠ p) := by
    funext n
    simp [parent]
  rw [Graph.committed, test,
    mem_takeWhile_ne_iff (rooted.pairwise_ancestors s) ((members p).2 met), members]
  refine and_congr_right fun above => ⟨fun later below => ?_, fun apart => ?_⟩
  · exact absurd (rooted.idxOf_le below) (not_le_of_gt later)
  · rcases above.total met with upper | below
    · exact absurd upper apart
    · rcases rooted.eq_or_idxOf_lt below with rfl | earlier
      · exact absurd (.refl parents p) apart
      · exact earlier

namespace Graph

variable {ν : Type} [DecidableEq ν] {g : Graph ν} {exit a b n s : ν} {passed : List ν}

/-! ## Edges turned round -/

theorem mem_succs_reversed : b ∈ (g.reversed exit).succs a ↔ a ∈ g.nodes ∧ b ∈ g.preds a := by
  have found : Bindings.find? a (g.reversed exit).adjacency =
      if a ∈ g.nodes then some (g.preds a) else none := by
    unfold reversed
    induction g.nodes with
    | nil => rfl
    | cons n rest ih =>
        rw [List.map_cons, Bindings.find?, ih]
        by_cases same : a = n
        · simp [same]
        · simp [same]
  rw [succs, found]
  split
  · rename_i listed
    simp [listed]
  · rename_i missing
    simp [missing]

theorem coherent_reversed (g : Graph ν) (exit : ν) : (g.reversed exit).Coherent := by
  intro a n
  rw [mem_preds, mem_succs_reversed]
  simp only [reversed, List.mem_map, Prod.mk.injEq]
  constructor
  · rintro ⟨_, ⟨_, listed, rfl, rfl⟩, target⟩
    exact ⟨listed, target⟩
  · rintro ⟨listed, target⟩
    exact ⟨_, ⟨a, listed, rfl, rfl⟩, target⟩

/-- Every edge leads to a listed node. -/
def Closed (g : Graph ν) : Prop := ∀ a, ∀ b ∈ g.succs a, b ∈ g.nodes

section

variable (coherent : g.Coherent) (closed : g.Closed)

include coherent closed

theorem mem_succs_reversed_iff : b ∈ (g.reversed exit).succs a ↔ a ∈ g.succs b := by
  rw [mem_succs_reversed, coherent b a]
  exact ⟨And.right, fun edge => ⟨closed b a edge, edge⟩⟩

theorem Path.reversed (path : g.Path a b passed) :
    (g.reversed exit).Path b a passed.reverse := by
  induction path with
  | here n => exact .here n
  | step edge _ ih =>
      rw [List.reverse_cons]
      exact ih.snoc ((mem_succs_reversed_iff coherent closed).2 edge)

theorem Path.of_reversed (path : (g.reversed exit).Path b a passed) :
    g.Path a b passed.reverse := by
  induction path with
  | here n => exact .here n
  | step edge _ ih =>
      rw [List.reverse_cons]
      exact ih.snoc ((mem_succs_reversed_iff coherent closed).1 edge)

/-- Post-dominance is dominance with the edges turned round. -/
theorem dominates_reversed_iff :
    (g.reversed exit).Dominates b n ↔ g.Reaches n exit ∧ g.PostDominates exit b n := by
  constructor
  · rintro ⟨⟨passed, path⟩, every⟩
    refine ⟨⟨_, path.of_reversed coherent closed⟩, fun passed path => ?_⟩
    exact List.mem_reverse.1 (every _ (path.reversed coherent closed))
  · rintro ⟨⟨passed, path⟩, every⟩
    refine ⟨⟨_, path.reversed coherent closed⟩, fun passed path => ?_⟩
    exact List.mem_reverse.1 (every _ (path.of_reversed coherent closed))

variable [Ord ν] [Std.TransOrd ν] [Std.LawfulEqOrd ν]

/-- Above a node from which the exit can be reached stand its post-dominators. -/
theorem above_postDominators_iff (leaves : g.Reaches n exit) :
    (g.postDominators exit).Above b n ↔ g.PostDominates exit b n := by
  have reached : (g.reversed exit).Reaches (g.reversed exit).entry n := by
    obtain ⟨passed, path⟩ := leaves
    exact ⟨_, path.reversed coherent closed⟩
  rw [postDominators, above_dominators_iff (coherent_reversed g exit) reached,
    dominates_reversed_iff coherent closed]
  exact ⟨And.right, fun commits => ⟨leaves, commits⟩⟩

/-- Above the parent of a node stand the post-dominators of the node but the node itself. -/
theorem exists_postParent (leaves : g.Reaches a exit) (inner : a ≠ exit) :
    ∃ p, (g.postDominators exit).get? a = some p ∧
      ∀ b, (g.postDominators exit).Above b p ↔ b ≠ a ∧ g.PostDominates exit b a := by
  obtain ⟨sweeping, fixed⟩ := dominators_settled (coherent_reversed g exit)
  have rooted : (g.postDominators exit).Rooted (g.reversed exit).reversePostorder exit :=
    sweeping.rooted
  have reached : (g.reversed exit).Reaches (g.reversed exit).entry a := by
    obtain ⟨passed, path⟩ := leaves
    exact ⟨_, path.reversed coherent closed⟩
  obtain ⟨p, parent, -⟩ : ∃ p, (g.postDominators exit).get? a = some p ∧ _ :=
    fixed a (mem_reversePostorder.2 reached) inner
  have lower := rooted.lower a p parent inner
  refine ⟨p, parent, fun b => ?_⟩
  rw [← above_postDominators_iff coherent closed leaves]
  constructor
  · intro above
    refine ⟨?_, above.trans (.of_parent parent (.refl _ p))⟩
    rintro rfl
    exact absurd (rooted.idxOf_le above) (not_le_of_gt lower)
  · rintro ⟨different, above⟩
    exact above.parent different parent

/-- The dependents of an edge are the nodes that it commits control to and its source does not. -/
theorem mem_committed_iff (edge : s ∈ g.succs a) (leaves : g.Reaches a exit)
    (onward : g.Reaches s exit) (inner : a ≠ exit) :
    b ∈ committed (g.postDominators exit) a s ↔ g.Controls exit a s b := by
  obtain ⟨sweeping, -⟩ := dominators_settled (coherent_reversed g exit)
  have rooted : (g.postDominators exit).Rooted (g.reversed exit).reversePostorder exit :=
    sweeping.rooted
  obtain ⟨p, parent, strict⟩ := exists_postParent coherent closed leaves inner
  -- the immediate post-dominator of the source is met on the way up from the target
  have met : (g.postDominators exit).Above p s := by
    obtain ⟨other, bound⟩ := (strict p).1 (.refl _ p)
    rw [above_postDominators_iff coherent closed onward]
    exact bound.succ other edge
  rw [rooted.mem_committed parent met, strict, above_postDominators_iff coherent closed onward]
  constructor
  · rintro ⟨commits, uncommitted⟩
    exact ⟨edge, commits, uncommitted⟩
  · rintro ⟨-, commits, uncommitted⟩
    exact ⟨commits, uncommitted⟩

end

end Graph

/-! ## Controllers in a routine -/

/-- What is pending is explored, and so is what explored elements lead to. -/
theorem explore_complete {α : Type} [DecidableEq α] {next : α → List α}
    {all fresh pending visited : List α} (known : ∀ w ∈ all, w ∈ fresh ∨ w ∈ visited)
    (closed : ∀ v ∈ visited, ∀ w ∈ next v, w ∈ all → w ∈ visited ∨ w ∈ pending) :
    (∀ w ∈ pending, w ∈ all → w ∈ visited ++ explore next fresh pending) ∧
      ∀ v ∈ visited ++ explore next fresh pending, ∀ w ∈ next v, w ∈ all →
        w ∈ visited ++ explore next fresh pending := by
  fun_induction explore next fresh pending generalizing visited with
  | case1 fresh =>
      simp only [List.append_nil, List.not_mem_nil, false_implies, implies_true, true_and]
      intro v hv w hw inside
      simpa using closed v hv w hw inside
  | case2 fresh a pending isFresh ih =>
      have moved : ∀ l : List α, ∀ w, w ∈ visited ++ a :: l ↔ w ∈ (a :: visited) ++ l := by
        intro l w
        simp [or_left_comm]
      simp only [moved]
      have known' : ∀ w ∈ all, w ∈ fresh.erase a ∨ w ∈ a :: visited := by
        intro w inside
        rcases known w inside with old | old
        · by_cases same : w = a
          · exact .inr (by simp [same])
          · exact .inl ((List.mem_erase_of_ne same).2 old)
        · exact .inr (List.mem_cons_of_mem a old)
      have closed' : ∀ v ∈ a :: visited, ∀ w ∈ next v, w ∈ all →
          w ∈ a :: visited ∨ w ∈ next a ++ pending := by
        intro v hv w hw inside
        rcases List.mem_cons.1 hv with rfl | hv
        · exact .inr (List.mem_append_left _ hw)
        · rcases closed v hv w hw inside with old | left
          · exact .inl (List.mem_cons_of_mem a old)
          · rcases List.mem_cons.1 left with rfl | left
            · exact .inl List.mem_cons_self
            · exact .inr (List.mem_append_right _ left)
      obtain ⟨first, second⟩ := ih known' closed'
      refine ⟨fun w hw inside => ?_, second⟩
      rcases List.mem_cons.1 hw with rfl | hw
      · exact List.mem_append_left _ List.mem_cons_self
      · exact first w (List.mem_append_right _ hw) inside
  | case3 fresh a pending stale ih =>
      have met : a ∈ all → a ∈ visited := fun inside => (known a inside).resolve_left stale
      obtain ⟨first, second⟩ := ih known (fun v hv w hw inside => by
        rcases closed v hv w hw inside with old | left
        · exact .inl old
        · rcases List.mem_cons.1 left with rfl | left
          · exact .inl (met inside)
          · exact .inr left)
      refine ⟨fun w hw inside => ?_, second⟩
      rcases List.mem_cons.1 hw with rfl | hw
      · exact List.mem_append_left _ (met inside)
      · exact first w hw inside

namespace Routine

variable {r : Routine}

theorem mem_handles_of_block? {n : Nat} {b : Block} (found : r.block? n = some b) :
    n ∈ r.blocks.map Block.handle := by
  rw [← handle_of_block? found]
  exact List.mem_map_of_mem (List.mem_of_find?_eq_some found)

theorem Numbered.block?_handle (numbered : r.Numbered) {b : Block} (inside : b ∈ r.blocks) :
    r.block? b.handle = some b := by
  have found : (r.block? b.handle).isSome := List.find?_isSome.2 ⟨b, inside, by simp⟩
  obtain ⟨d, known⟩ := Option.isSome_iff_exists.1 found
  rw [known, List.inj_on_of_nodup_map numbered.nodup (List.mem_of_find?_eq_some known) inside
    (handle_of_block? known)]

theorem Numbered.mem_byTerminator_iff (numbered : r.Numbered) {nodes : List Nat} {d : Block} :
    d ∈ r.byTerminator nodes ↔ d ∈ r.blocks ∧ d.handle ∈ nodes := by
  rw [mem_byTerminator]
  constructor
  · rintro ⟨n, listed, found⟩
    rw [handle_of_block? found]
    exact ⟨List.mem_of_find?_eq_some found, listed⟩
  · rintro ⟨inside, listed⟩
    exact ⟨d.handle, listed, numbered.block?_handle inside⟩

theorem mem_allControllers {d : Block} {b : Handle} :
    d ∈ r.allControllers b ↔ ∃ n ∈ explore (fun n => (r.controllers n).toList)
      (r.blocks.map Block.handle) (r.controllers b).toList, r.block? n = some d := mem_byTerminator

theorem Numbered.coherent (numbered : r.Numbered) : r.graph.Coherent :=
  Graph.coherent_of_nodup numbered.nodup_nodes

theorem closed_graph (r : Routine) : r.graph.Closed := by
  intro a b edge
  obtain ⟨block, inside, -, target⟩ := exists_block_of_mem_succs edge
  rw [nodes_eq, List.mem_append]
  rcases mem_targets_cases inside target with rfl | ⟨next, inside, rfl⟩
  · exact .inr (List.mem_singleton_self _)
  · exact .inl (List.mem_map_of_mem inside)

/-- A block dominates another exactly if the tree of dominators says so. -/
theorem Numbered.dominates_iff (numbered : r.Numbered) {a b : Handle} :
    r.dominates a b = true ↔ a = b ∨ r.graph.Dominates a b := by
  rw [dominates, r.idom_eq]
  exact Graph.isAbove_dominators numbered.coherent

/-- Control can leave the function from every block. -/
def Leaves (r : Routine) : Prop := ∀ b ∈ r.blocks, r.graph.Reaches b.handle exitNode

theorem Leaves.of_succs (leaves : r.Leaves) {a s : Nat} (edge : s ∈ r.graph.succs a) :
    r.graph.Reaches a exitNode ∧ r.graph.Reaches s exitNode := by
  obtain ⟨b, inside, rfl, target⟩ := exists_block_of_mem_succs edge
  refine ⟨leaves b inside, ?_⟩
  rcases mem_targets_cases inside target with rfl | ⟨next, inside, rfl⟩
  · exact .refl r.graph exitNode
  · exact leaves next inside

/-- The controllers of a node have an edge that commits control to it. -/
theorem Numbered.mem_controllers_iff (numbered : r.Numbered) (leaves : r.Leaves) {a b : Nat} :
    a ∈ r.controllers b ↔ ∃ s, r.graph.Controls exitNode a s b := by
  have committed : ∀ s ∈ r.graph.succs a,
      (b ∈ Graph.committed r.ipdom a s ↔ r.graph.Controls exitNode a s b) := by
    intro s edge
    obtain ⟨here, onward⟩ := leaves.of_succs edge
    have inner : a ≠ exitNode := by
      obtain ⟨block, inside, rfl, -⟩ := exists_block_of_mem_succs edge
      exact numbered.inside block inside
    rw [r.ipdom_eq]
    exact Graph.mem_committed_iff numbered.coherent r.closed_graph edge here onward inner
  rw [mem_controllers]
  constructor
  · rintro ⟨s, edge, member⟩
    exact ⟨s, (committed s edge).1 member⟩
  · rintro ⟨s, controls⟩
    exact ⟨s, controls.edge, (committed s controls.edge).2 controls⟩

/-- The controllers that are explored for a block are its own and, again and again, theirs. -/
theorem explored_complete (r : Routine) (b : Handle) :
    (∀ w ∈ r.controllers b, w ∈ r.blocks.map Block.handle →
        w ∈ explore (fun n => (r.controllers n).toList) (r.blocks.map Block.handle)
          (r.controllers b).toList) ∧
      ∀ v ∈ explore (fun n => (r.controllers n).toList) (r.blocks.map Block.handle)
          (r.controllers b).toList, ∀ w ∈ r.controllers v, w ∈ r.blocks.map Block.handle →
        w ∈ explore (fun n => (r.controllers n).toList) (r.blocks.map Block.handle)
          (r.controllers b).toList := by
  have known : ∀ w ∈ r.blocks.map Block.handle, w ∈ r.blocks.map Block.handle ∨ w ∈ [] :=
    fun _ listed => .inl listed
  exact explore_complete known fun _ none => by cases none

/-- A controller of a block is one of all its controllers. -/
theorem mem_allControllers_of_direct {b : Handle} {d : Block} (direct : d ∈ r.directControllers b) :
    d ∈ r.allControllers b := by
  obtain ⟨n, controls, found⟩ := mem_directControllers.1 direct
  have explored := (r.explored_complete b).1 n controls (mem_handles_of_block? found)
  exact mem_allControllers.2 ⟨n, explored, found⟩

/-- The controllers of a controller are among them too. -/
theorem mem_allControllers_of_controls {b : Handle} {d e : Block} (above : d ∈ r.allControllers b)
    (direct : e ∈ r.directControllers d.handle) : e ∈ r.allControllers b := by
  obtain ⟨n, explored, found⟩ := mem_allControllers.1 above
  obtain ⟨k, controls, found'⟩ := mem_directControllers.1 direct
  rw [handle_of_block? found] at controls
  have explored' := (r.explored_complete b).2 n explored k controls (mem_handles_of_block? found')
  exact mem_allControllers.2 ⟨k, explored', found'⟩

end Routine

end ErrorContracts
