import ErrorContracts.Proofs.Lookups
import ErrorContracts.Proofs.Presence

/-!
# Control dependence through others

An instruction depends on the terminators that control its block, and on those that control these.
They are found by a work list that starts with the block itself, without counting it as met.  So a
block is among its own controllers exactly if it lies on a cycle of control dependence.
-/

namespace ErrorContracts

/-! ## The work list -/

/-- A search for controllers: the nodes whose controllers are still to be met, and the nodes met. -/
structure Worklist where
  pending : List Handle
  met : List Handle

namespace Worklist

/-- Only the block is pending, and nothing is met, not even the block. -/
def start (b : Handle) : Worklist := ⟨[b], []⟩

/-- Meets a node: unless it is known, it is kept, and its own controllers are pending. -/
def meet (s : Worklist) (n : Handle) : Worklist :=
  if n ≠ exitNode ∧ n ∉ s.met then ⟨s.pending ++ [n], s.met ++ [n]⟩ else s

/--
The search ends with these terminators, in whatever order it meets the controllers of a node.  It is
over once nothing is pending.  The blocks that were met are then looked up, and their terminators
sorted.
-/
inductive Ends (r : Routine) : Worklist → List Handle → Prop where
  | done {met : List Handle} {blocks : List Block} (found : met.mapM r.block? = some blocks) :
      Ends r ⟨[], met⟩ ((blocks.map Block.exit).mergeSort)
  | turn {n : Handle} {pending met terminators : List Handle}
      (onward : ∀ nodes : List Handle, nodes.Perm (r.controllers n).toList →
        Ends r (nodes.foldl meet ⟨pending, met⟩) terminators) :
      Ends r ⟨n :: pending, met⟩ terminators

theorem Ends.unique {r : Routine} {s : Worklist} {terminators others : List Handle}
    (ends : s.Ends r terminators) (ends' : s.Ends r others) : terminators = others := by
  induction ends with
  | done found =>
      cases ends' with
      | done found' =>
          obtain rfl := Option.some.inj (found.symm.trans found')
          rfl
  | turn _ ih =>
      cases ends' with
      | turn onward' => exact ih _ (.refl _) (onward' _ (.refl _))

/-- Of a list of nodes the new ones are met, each once. -/
theorem foldl_meet (nodes : List Handle) (s : Worklist) :
    ∃ new : List Handle, nodes.foldl meet s = ⟨s.pending ++ new, s.met ++ new⟩ ∧ new.Nodup ∧
      ∀ k, k ∈ new ↔ k ∈ nodes ∧ k ≠ exitNode ∧ k ∉ s.met := by
  induction nodes generalizing s with
  | nil => exact ⟨[], by simp⟩
  | cons n nodes ih =>
      rw [List.foldl_cons]
      by_cases isNew : n ≠ exitNode ∧ n ∉ s.met
      · obtain ⟨new, after, once, listed⟩ := ih ⟨s.pending ++ [n], s.met ++ [n]⟩
        refine ⟨n :: new, ?_, List.nodup_cons.2 ⟨fun again => ?_, once⟩, fun k => ?_⟩
        · rw [meet, if_pos isNew, after]
          simp
        · simpa using (listed n).1 again
        · rw [List.mem_cons, listed]
          by_cases same : k = n
          · subst same
            simpa using isNew
          · simp [same]
      · obtain ⟨new, after, once, listed⟩ := ih s
        refine ⟨new, by rw [meet, if_neg isNew, after], once, fun k => ?_⟩
        rw [listed]
        by_cases same : k = n
        · subst same
          simp [isNew]
        · simp [same]

end Worklist

namespace Routine

variable {m : Module} {r : Routine} {b : Handle}

/--
What a search from a block has met are controllers of it, directly or through others; and all
controllers of the block and of those are met, unless their turn is still to come.
-/
structure Closing (r : Routine) (b : Handle) (s : Worklist) : Prop where
  once : s.met.Nodup
  chained : ∀ n ∈ s.met, Relation.TransGen r.Directs n b
  known : ∀ n ∈ s.pending, n = b ∨ n ∈ s.met
  closed : ∀ n, n = b ∨ n ∈ s.met → n ∈ s.pending ∨ ∀ k, r.Directs k n → k ∈ s.met

theorem closing_start (r : Routine) (b : Handle) : r.Closing b (.start b) where
  once := List.nodup_nil
  chained n met := by cases met
  known n pending := .inl (List.mem_singleton.1 pending)
  closed n known := .inl (List.mem_singleton.2 (known.resolve_right List.not_mem_nil))

namespace Closing

theorem turn (numbered : r.Numbered) {n : Handle} {pending met nodes : List Handle}
    (closing : r.Closing b ⟨n :: pending, met⟩) (order : nodes.Perm (r.controllers n).toList) :
    r.Closing b (nodes.foldl Worklist.meet ⟨pending, met⟩) ∧
      ∃ new : List Handle,
        nodes.foldl Worklist.meet ⟨pending, met⟩ = ⟨pending ++ new, met ++ new⟩ := by
  obtain ⟨new, after, once, listed⟩ := Worklist.foldl_meet nodes ⟨pending, met⟩
  have directs : ∀ {k}, k ∈ nodes ↔ r.Directs k n := order.mem_iff
  refine ⟨?_, new, after⟩
  rw [after]
  constructor
  · refine List.nodup_append.2 ⟨closing.once, once, fun k old k' isNew same => ?_⟩
    exact ((listed k').1 isNew).2.2 (same ▸ old)
  · intro k member
    rcases List.mem_append.1 member with old | isNew
    · exact closing.chained k old
    · have step := directs.1 ((listed k).1 isNew).1
      rcases closing.known n List.mem_cons_self with rfl | met
      · exact .single step
      · exact .head step (closing.chained n met)
  · intro k member
    rcases List.mem_append.1 member with old | isNew
    · exact (closing.known k (List.mem_cons_of_mem n old)).imp_right (List.mem_append_left new)
    · exact .inr (List.mem_append_right met isNew)
  · intro k known
    by_cases isNew : k ∈ new
    · exact .inl (List.mem_append_right pending isNew)
    · have old : k = b ∨ k ∈ met := known.imp_right fun member =>
        (List.mem_append.1 member).resolve_right isNew
      by_cases same : k = n
      · -- the turn of this node is over: what directs it is met, now if not before
        subst same
        refine .inr fun c step => ?_
        obtain ⟨d, inside, rfl⟩ := exists_block_of_directs step
        by_cases before : d.handle ∈ met
        · exact List.mem_append_left new before
        · exact List.mem_append_right met
            ((listed d.handle).2 ⟨directs.2 step, numbered.inside d inside, before⟩)
      · refine (closing.closed k old).imp (fun waits => ?_) fun closed c step => ?_
        · exact List.mem_append_left new ((List.mem_cons.1 waits).resolve_left same)
        · exact List.mem_append_left new (closed c step)

variable {s : Worklist}

theorem mem_handles (closing : r.Closing b s) {n : Handle} (met : n ∈ s.met) :
    n ∈ r.blocks.map Block.handle := by
  obtain ⟨k, step, -⟩ := Relation.TransGen.head'_iff.1 (closing.chained n met)
  obtain ⟨d, inside, rfl⟩ := exists_block_of_directs step
  exact List.mem_map_of_mem inside

theorem length_met_le (closing : r.Closing b s) : s.met.length ≤ r.blocks.length := by
  rw [← List.length_map Block.handle]
  exact (List.subperm_of_subset closing.once fun n => closing.mem_handles).length_le

/-- Once nothing is pending, all controllers of the block are met. -/
theorem mem_met_iff {met : List Handle} (closing : r.Closing b ⟨[], met⟩) {n : Handle} :
    n ∈ met ↔ Relation.TransGen r.Directs n b := by
  constructor
  · exact closing.chained n
  · intro chain
    have closed : ∀ n, n = b ∨ n ∈ met → ∀ k, r.Directs k n → k ∈ met :=
      fun n known => (closing.closed n known).resolve_left List.not_mem_nil
    induction chain using Relation.TransGen.head_induction_on with
    | single step => exact closed b (.inl rfl) _ step
    | head step _ ih => exact closed _ (.inr ih) _ step

end Closing

/-! ## Terminators in order -/

theorem pairwise_byTerminator (r : Routine) (nodes : List Nat) :
    (r.byTerminator nodes).Pairwise fun d e => d.exit ≤ e.exit := by
  refine (List.pairwise_mergeSort (fun c d e => ?_) (fun c d => ?_) _).imp of_decide_eq_true
  · simpa using Nat.le_trans
  · simpa using Nat.le_total c.exit d.exit

theorem nodup_allControllers (numbered : r.Numbered) (b : Handle) : (r.allControllers b).Nodup :=
  .of_map _ (nodup_byTerminator (nodup_explore numbered.nodup))

namespace Closing

theorem sorted_eq (numbered : r.Numbered) {met : List Handle} (closing : r.Closing b ⟨[], met⟩) :
    ((met.filterMap r.block?).map Block.exit).mergeSort = (r.allControllers b).map Block.exit := by
  have same : (r.byTerminator met).Perm (r.allControllers b) := by
    rw [List.perm_ext_iff_of_nodup (.of_map _ (nodup_byTerminator closing.once))
      (nodup_allControllers numbered b)]
    intro d
    rw [numbered.mem_byTerminator_iff, numbered.mem_allControllers_iff, closing.mem_met_iff]
  have ascends : ((r.allControllers b).map Block.exit).Pairwise (· ≤ ·) :=
    List.pairwise_map.2 (r.pairwise_byTerminator _)
  have sorted : ((met.filterMap r.block?).map Block.exit).mergeSort.Pairwise (· ≤ ·) :=
    (List.pairwise_mergeSort (by simpa using fun _ _ _ => Nat.le_trans)
      (by simpa using Nat.le_total) _).imp of_decide_eq_true
  refine List.Perm.eq_of_pairwise (fun _ _ _ _ => Nat.le_antisymm) sorted ascends ?_
  have looked : (r.byTerminator met).Perm (met.filterMap r.block?) := List.mergeSort_perm _ _
  exact (List.mergeSort_perm _ _).trans ((looked.symm.trans same).map Block.exit)

/-- Each turn takes one node, and no node enters twice; so the search ends. -/
theorem ends (numbered : r.Numbered) {s : Worklist} (closing : r.Closing b s) :
    s.Ends r ((r.allControllers b).map Block.exit) := by
  induction size : s.pending.length + (r.blocks.length - s.met.length) using Nat.strongRecOn
    generalizing s with
  | ind size ih =>
      obtain ⟨pending, met⟩ := s
      cases pending with
      | nil =>
          rw [← closing.sorted_eq numbered]
          exact .done (mapM_eq_filterMap fun n met => block?_isSome (closing.mem_handles met))
      | cons n pending =>
          refine .turn fun nodes order => ?_
          obtain ⟨closing', new, after⟩ := closing.turn numbered order
          have bounded := closing'.length_met_le
          rw [after] at closing' bounded ⊢
          refine ih _ ?_ closing' rfl
          simp only [List.length_cons, List.length_append] at size bounded ⊢
          omega

end Closing

/-! ## What an instruction depends on -/

/-- The terminators of some blocks for the block of an instruction; none if it stands in no block. -/
def exitsFor (m : Module) (blocks : Handle → List Block) (inst : Handle) : List Handle :=
  (((m.blockOf? inst).map blocks).getD []).map Block.exit

/-- The terminators that control the block of an instruction directly. -/
def directDependencies (r : Routine) (m : Module) (inst : Handle) : List Handle :=
  exitsFor m r.directControllers inst

/-- The terminators that control the block of an instruction, directly or through others. -/
def dependencies (r : Routine) (m : Module) (inst : Handle) : List Handle :=
  exitsFor m r.allControllers inst

section

variable {f : Handle} {d e : Block} (tidy : m.Tidy []) (read : ofFunction m f = .ok r)

include tidy read

theorem blockOf?_exit (inside : d ∈ r.blocks) : m.blockOf? d.exit = some d.handle :=
  Module.blockOf?_of_home?
    (tidy.placed (.instructions d.handle) d.exit
      (List.mem_of_getLast? (getLast?_of_read read inside)))

theorem eq_of_exit (inside : d ∈ r.blocks) (inside' : e ∈ r.blocks) (same : d.exit = e.exit) :
    d = e := by
  have handles : d.handle = e.handle := by
    simpa [← same, blockOf?_exit tidy read inside] using blockOf?_exit tidy read inside'
  exact List.inj_on_of_nodup_map (numbered_of_tidy tidy read).nodup inside inside' handles

theorem exitsFor_exit (inside : d ∈ r.blocks) (blocks : Handle → List Block) :
    exitsFor m blocks d.exit = (blocks d.handle).map Block.exit := by
  rw [exitsFor, blockOf?_exit tidy read inside]
  rfl

theorem mem_exitsFor (inside : e ∈ r.blocks) {blocks : Handle → List Block} {P : Block → Prop}
    (listed : ∀ {d}, d ∈ blocks e.handle ↔ d ∈ r.blocks ∧ P d) {t : Handle} :
    t ∈ exitsFor m blocks e.exit ↔ ∃ d ∈ r.blocks, d.exit = t ∧ P d := by
  rw [exitsFor_exit tidy read inside, List.mem_map]
  constructor
  · rintro ⟨d, member, same⟩
    exact ⟨d, (listed.1 member).1, same, (listed.1 member).2⟩
  · rintro ⟨d, inside', same, holds⟩
    exact ⟨d, listed.2 ⟨inside', holds⟩, same⟩

theorem mem_dependencies (inside : e ∈ r.blocks) {t : Handle} :
    t ∈ r.dependencies m e.exit ↔
      ∃ d ∈ r.blocks, d.exit = t ∧ Relation.TransGen r.Directs d.handle e.handle :=
  mem_exitsFor tidy read inside (numbered_of_tidy tidy read).mem_allControllers_iff

theorem mem_directDependencies (inside : e ∈ r.blocks) {t : Handle} :
    t ∈ r.directDependencies m e.exit ↔
      ∃ d ∈ r.blocks, d.exit = t ∧ r.Directs d.handle e.handle :=
  mem_exitsFor tidy read inside (numbered_of_tidy tidy read).mem_directControllers_iff

theorem pairwise_dependencies (inside : e ∈ r.blocks) :
    (r.dependencies m e.exit).Pairwise (· < ·) := by
  have numbered := numbered_of_tidy tidy read
  rw [dependencies, exitsFor_exit tidy read inside, List.pairwise_map]
  refine ((r.pairwise_byTerminator _).and (nodup_allControllers numbered e.handle)).imp_of_mem ?_
  rintro c d controls controls' ⟨below, apart⟩
  refine Nat.lt_of_le_of_ne below fun same => apart (eq_of_exit tidy read ?_ ?_ same)
  · exact (numbered.mem_allControllers_iff.1 controls).1
  · exact (numbered.mem_allControllers_iff.1 controls').1

/-- What controls a block controls it directly or controls one that does. -/
theorem mem_dependencies_cases (inside : e ∈ r.blocks) {t : Handle} :
    t ∈ r.dependencies m e.exit ↔ t ∈ r.directDependencies m e.exit ∨
      ∃ u ∈ r.directDependencies m e.exit, t ∈ r.dependencies m u := by
  simp only [mem_dependencies tidy read inside, mem_directDependencies tidy read inside]
  constructor
  · rintro ⟨d, inside', rfl, chain⟩
    rcases Relation.TransGen.tail'_iff.1 chain with ⟨n, chain, step⟩
    rcases Relation.reflTransGen_iff_eq_or_transGen.1 chain with rfl | chain
    · exact .inl ⟨d, inside', rfl, step⟩
    · obtain ⟨c, between, rfl⟩ := exists_block_of_directs step
      refine .inr ⟨c.exit, ⟨c, between, rfl, step⟩, ?_⟩
      exact (mem_dependencies tidy read between).2 ⟨d, inside', rfl, chain⟩
  · rintro (⟨d, inside', rfl, step⟩ | ⟨_, ⟨c, between, rfl, step⟩, controls⟩)
    · exact ⟨d, inside', rfl, .single step⟩
    · obtain ⟨d, inside', rfl, chain⟩ := (mem_dependencies tidy read between).1 controls
      exact ⟨d, inside', rfl, chain.tail step⟩

end

/--
The search for what the terminator of a block depends on ends, in whatever order it meets controllers.
Its answer lists, in strictly ascending order, the terminators of the blocks from which one or more
steps of direct control dependence lead to the block.  These are the direct ones and what those
depend on in turn.
-/
theorem dependencies_transitive {name : String} {steps : List Alteration}
    (built : m = Module.altered { name := name } steps) {f : Handle}
    (read : ofFunction m f = .ok r) {e : Block} (inside : e ∈ r.blocks) :
    (∀ terminators, (Worklist.start e.handle).Ends r terminators ↔
        terminators = r.dependencies m e.exit) ∧
      (r.dependencies m e.exit).Pairwise (· < ·) ∧
      (∀ t, t ∈ r.dependencies m e.exit ↔
        ∃ d ∈ r.blocks, d.exit = t ∧ Relation.TransGen r.Directs d.handle e.handle) ∧
      (∀ t, t ∈ r.directDependencies m e.exit ↔
        ∃ d ∈ r.blocks, d.exit = t ∧ r.Directs d.handle e.handle) ∧
      ∀ t, t ∈ r.dependencies m e.exit ↔ t ∈ r.directDependencies m e.exit ∨
        ∃ u ∈ r.directDependencies m e.exit, t ∈ r.dependencies m u := by
  subst built
  have tidy := (Module.tidy_altered (Module.tidy_empty name) steps).2
  refine ⟨?_, pairwise_dependencies tidy read inside, fun t => mem_dependencies tidy read inside,
    fun t => mem_directDependencies tidy read inside,
    fun t => mem_dependencies_cases tidy read inside⟩
  rw [dependencies, exitsFor_exit tidy read inside]
  have ends := (closing_start r e.handle).ends (numbered_of_tidy tidy read)
  intro terminators
  constructor
  · exact fun ends' => ends'.unique ends
  · rintro rfl
    exact ends

end Routine

/-! ## Blocks that control each other -/

/-- A loop of two blocks that is left from both. -/
def circling : Module :=
  Module.altered { name := "m" }
    [.edit (.function "f" .i32 [(none, .i1)]),
      .edit (.block 1 "entry"), .edit (.block 1 "header"), .edit (.block 1 "body"),
      .edit (.block 1 "done"), .edit (.block 1 "stop"),
      .edit (.jump (some 3) 4),
      .edit (.branch (some 4) (.value 2) 5 6),
      .edit (.branch (some 5) (.value 2) 4 7),
      .edit (.ret (some 6) none), .edit (.ret (some 7) none)]

/-- The header does not control itself directly, but through the other block. -/
theorem dependencies_transitive_circling :
    ∃ r, Routine.ofFunction circling 1 = .ok r ∧ r.directDependencies circling 9 = [10] ∧
      (Worklist.start 4).Ends r [9, 10] ∧ Relation.TransGen r.Directs 4 4 := by
  have checked : (Routine.ofFunction circling 1).toOption.any (fun r =>
      (∃ e ∈ r.blocks, e.handle = 4 ∧ e.exit = 9) ∧ (∀ d ∈ r.blocks, d.exit = 9 → d.handle = 4) ∧
        r.directDependencies circling 9 = [10] ∧ r.dependencies circling 9 = [9, 10]) = true := by
    cbv
  obtain ⟨r, read, facts⟩ := Routine.exists_read checked
  obtain ⟨⟨e, inside, handle, exit⟩, alone, direct, all⟩ := of_decide_eq_true facts
  obtain ⟨ends, -, listed, -, -⟩ := Routine.dependencies_transitive (m := circling) rfl read inside
  rw [exit, all, handle] at ends
  obtain ⟨d, inside', same, chain⟩ := (listed 9).1 (by rw [exit, all]; decide)
  rw [alone d inside' same, handle] at chain
  exact ⟨r, read, direct, (ends _).2 rfl, chain⟩

end ErrorContracts
