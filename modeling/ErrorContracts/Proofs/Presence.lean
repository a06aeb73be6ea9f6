import ErrorContracts.Proofs.Admission
import ErrorContracts.Proofs.DeadCode

/-!
# When there is a path condition

The search for a path condition expands the controllers of a block, their controllers and so on,
each of them once, and cuts what it meets again.  Wherever it cuts, it comes to all of them, since
what it has expanded in the end is closed.  So a block has a path condition over a call exactly if
one of all its controllers tests the result of the call, whatever cycles there are.
-/

namespace ErrorContracts.Routine

variable {m : Module} {r : Routine} {target : Handle}

/-! ## Chains of controllers -/

/-- The node `a` is a controller of `b`. -/
def Directs (r : Routine) (a b : Handle) : Prop := a ∈ r.controllers b

theorem exists_block_of_directs {a b : Handle} (directs : r.Directs a b) :
    ∃ d ∈ r.blocks, d.handle = a := by
  obtain ⟨s, edge, -⟩ := mem_controllers.1 directs
  obtain ⟨d, inside, same, -⟩ := exists_block_of_mem_succs edge
  exact ⟨d, inside, same⟩

theorem mem_blocks_of_directControllers {d : Block} {b : Handle}
    (controls : d ∈ r.directControllers b) : d ∈ r.blocks := by
  obtain ⟨n, -, found⟩ := mem_directControllers.1 controls
  exact List.mem_of_find?_eq_some found

theorem Numbered.mem_directControllers_iff (numbered : r.Numbered) {d : Block} {b : Handle} :
    d ∈ r.directControllers b ↔ d ∈ r.blocks ∧ r.Directs d.handle b := numbered.mem_byTerminator_iff

/-- All controllers of a block are those from which a chain of controllers leads to it. -/
theorem Numbered.mem_allControllers_iff (numbered : r.Numbered) {d : Block} {b : Handle} :
    d ∈ r.allControllers b ↔ d ∈ r.blocks ∧ Relation.TransGen r.Directs d.handle b := by
  constructor
  · intro controls
    obtain ⟨n, explored, found⟩ := mem_allControllers.1 controls
    rw [handle_of_block? found]
    refine ⟨List.mem_of_find?_eq_some found, ?_⟩
    refine explore_induction (fun n => Relation.TransGen r.Directs n b) ?_ ?_ n explored
    · exact fun a directs => .single directs
    · exact fun a chain e directs => .head directs chain
  · rintro ⟨inside, chain⟩
    generalize same : d.handle = n at chain
    induction chain using Relation.TransGen.head_induction_on generalizing d with
    | single directs =>
        subst same
        exact mem_allControllers_of_direct (numbered.mem_directControllers_iff.2 ⟨inside, directs⟩)
    | head directs chain ih =>
        subst same
        obtain ⟨e, first, -⟩ := Relation.TransGen.head'_iff.1 chain
        obtain ⟨k, inside', rfl⟩ := exists_block_of_directs first
        exact mem_allControllers_of_controls (ih inside' rfl)
          (numbered.mem_directControllers_iff.2 ⟨inside, directs⟩)

/-! ## What is expanded -/

section Expanded

variable {fresh expanded : List Handle} {untried : List Block}

theorem expand_cons_of_unmet {d : Block} (unmet : d.handle ∉ expanded) (inside : d.handle ∈ fresh) :
    (r.expand fresh (d :: untried) expanded).2 =
      (r.expand fresh untried (r.expand (fresh.erase d.handle) (r.directControllers d.handle)
        (d.handle :: expanded)).2).2 := by
  rw [expand, if_neg unmet, dif_pos inside]

theorem mem_expand_of_mem {n : Handle} (member : n ∈ expanded) :
    n ∈ (r.expand fresh untried expanded).2 := by
  fun_induction expand r fresh untried expanded with
  | case1 fresh expanded => exact member
  | case2 fresh expanded d untried met ih => exact ih member
  | case3 fresh expanded d untried unmet inside above rest ihAbove ih =>
      exact ih (ihAbove (List.mem_cons_of_mem _ member))
  | case4 fresh expanded d untried unmet outside ih => exact ih member

/-- Nothing is expanded but what leads to the given controllers. -/
theorem Numbered.expand_within (numbered : r.Numbered) {n : Handle}
    (member : n ∈ (r.expand fresh untried expanded).2) :
    n ∈ expanded ∨ ∃ d ∈ untried, Relation.ReflTransGen r.Directs n d.handle := by
  fun_induction expand r fresh untried expanded with
  | case1 fresh expanded => exact .inl member
  | case2 fresh expanded d untried met ih =>
      exact (ih member).imp_right fun later => List.exists_mem_cons_of_exists later
  | case3 fresh expanded d untried unmet inside above rest ihAbove ih =>
      rcases ih member with met | later
      · rcases ihAbove met with met | ⟨e, controls, chain⟩
        · rcases List.mem_cons.1 met with rfl | old
          · exact .inr ⟨d, List.mem_cons_self, .refl⟩
          · exact .inl old
        · exact .inr ⟨d, List.mem_cons_self,
            chain.tail (numbered.mem_directControllers_iff.1 controls).2⟩
      · exact .inr (List.exists_mem_cons_of_exists later)
  | case4 fresh expanded d untried unmet outside ih =>
      exact (ih member).imp_right fun later => List.exists_mem_cons_of_exists later

theorem mem_or_mem_cons {all : List Handle} (cover : ∀ n ∈ all, n ∈ fresh ∨ n ∈ expanded)
    (d : Handle) : ∀ n ∈ all, n ∈ fresh.erase d ∨ n ∈ d :: expanded := by
  intro n owned
  by_cases same : n = d
  · exact .inr (by simp [same])
  · rw [List.mem_erase_of_ne same]
    exact (cover n owned).imp_right (List.mem_cons_of_mem d)

/-- A controller is closed once its own controllers are reached. -/
theorem Numbered.closed_of_cons (numbered : r.Numbered) {d : Block} {reached : List Handle}
    (direct : ∀ e ∈ r.directControllers d.handle, e.handle ∈ reached)
    (closed : ∀ n ∈ reached, n ∈ d.handle :: expanded ∨ ∀ k, r.Directs k n → k ∈ reached) :
    ∀ n ∈ reached, n ∈ expanded ∨ ∀ k, r.Directs k n → k ∈ reached := by
  intro n member
  rcases closed n member with met | closed
  · rcases List.mem_cons.1 met with rfl | old
    · refine .inr fun k directs => ?_
      obtain ⟨e, inside, rfl⟩ := exists_block_of_directs directs
      exact direct e (numbered.mem_directControllers_iff.2 ⟨inside, directs⟩)
    · exact .inl old
  · exact .inr closed

/-- What leads to the given controllers is expanded in the end. -/
theorem Numbered.expand_closed (numbered : r.Numbered)
    (cover : ∀ n ∈ r.blocks.map Block.handle, n ∈ fresh ∨ n ∈ expanded)
    (listed : ∀ d ∈ untried, d ∈ r.blocks) :
    (∀ d ∈ untried, d.handle ∈ (r.expand fresh untried expanded).2) ∧
      ∀ n ∈ (r.expand fresh untried expanded).2, n ∈ expanded ∨
        ∀ k, r.Directs k n → k ∈ (r.expand fresh untried expanded).2 := by
  fun_induction expand r fresh untried expanded with
  | case1 fresh expanded => exact ⟨by simp, fun n member => .inl member⟩
  | case2 fresh expanded d untried met ih =>
      obtain ⟨among, closed⟩ := ih cover (List.forall_mem_cons.1 listed).2
      exact ⟨List.forall_mem_cons.2 ⟨mem_expand_of_mem met, among⟩, closed⟩
  | case3 fresh expanded d untried unmet inside above rest ihAbove ih =>
      obtain ⟨controllers, closedAbove⟩ := ihAbove (mem_or_mem_cons cover d.handle)
        fun e controls => mem_blocks_of_directControllers controls
      have expandedAbove : ∀ n ∈ d.handle :: expanded, n ∈ above.2 := fun n => mem_expand_of_mem
      have onward : ∀ n ∈ above.2, n ∈ rest.2 := fun n => mem_expand_of_mem
      obtain ⟨among, closed⟩ := ih (fun n owned => (cover n owned).imp_right fun old =>
        expandedAbove n (List.mem_cons_of_mem _ old)) (List.forall_mem_cons.1 listed).2
      refine ⟨List.forall_mem_cons.2 ⟨onward _ (expandedAbove _ List.mem_cons_self), among⟩,
        fun n member => ?_⟩
      rcases closed n member with met | closed
      · refine (numbered.closed_of_cons controllers closedAbove n met).imp_right fun closed k => ?_
        exact fun directs => onward k (closed k directs)
      · exact .inr closed
  | case4 fresh expanded d untried unmet outside ih =>
      have owned := List.mem_map_of_mem (f := Block.handle) (listed d List.mem_cons_self)
      exact absurd (cover d.handle owned) (not_or.2 ⟨outside, unmet⟩)

/-- All controllers of a block are expanded for it. -/
theorem Numbered.mem_expand_of_chain (numbered : r.Numbered) {n b : Handle}
    (chain : Relation.TransGen r.Directs n b) :
    n ∈ (r.expand (r.blocks.map Block.handle) (r.directControllers b) []).2 := by
  have cover : ∀ n ∈ r.blocks.map Block.handle, n ∈ r.blocks.map Block.handle ∨ n ∈ [] :=
    fun n owned => .inl owned
  obtain ⟨direct, closed⟩ := numbered.expand_closed cover fun d controls =>
    mem_blocks_of_directControllers controls
  induction chain using Relation.TransGen.head_induction_on with
  | single directs =>
      obtain ⟨e, inside, rfl⟩ := exists_block_of_directs directs
      exact direct e (numbered.mem_directControllers_iff.2 ⟨inside, directs⟩)
  | head directs _ ih =>
      exact ((closed _ (ih direct closed)).resolve_left List.not_mem_nil) _ directs

/-- A search expands what its forest has, with cycles too. -/
theorem expanded_conditionThrough {b : Handle} {facts : List Formula} {s : ConditionSearch}
    (done : ∀ c e, (Bindings.find? (c, e) s.finished).isSome → e ∈ s.expanded) :
    (conditionThrough m r target fresh b untried facts s).2.expanded =
        (r.expand fresh untried s.expanded).2 ∧
      ∀ c e, (Bindings.find? (c, e)
          (conditionThrough m r target fresh b untried facts s).2.finished).isSome →
        e ∈ (conditionThrough m r target fresh b untried facts s).2.expanded := by
  fun_induction conditionThrough m r target fresh b untried facts s with
  | case1 fresh b facts s =>
      rw [expand]
      exact ⟨rfl, done⟩
  | case2 fresh b facts s d untried fact? found ih =>
      rw [expand_cons_of_expanded (done b d.handle (by rw [found]; rfl))]
      exact ih done
  | case3 fresh b facts s d untried unfinished expanded ih =>
      rw [expand_cons_of_expanded expanded]
      exact ih done
  | case4 fresh b facts s d untried unfinished unexpanded inside inner s' searched c compared own
      fact? ihInner ih =>
      obtain ⟨after, done'⟩ := ihInner fun c e found => List.mem_cons_of_mem _ (done c e found)
      rw [searched] at after done'
      rw [expand_cons_of_unmet unexpanded inside, ← after]
      refine ih fun c e found => ?_
      rw [Bindings.find?_assign] at found
      split at found
      · rename_i same
        rw [(Prod.mk.inj same).2, after]
        exact mem_expand_of_mem List.mem_cons_self
      · exact done' c e found
  | case5 fresh b facts s d untried unfinished unexpanded inside inner s' searched other
      ihInner ih =>
      obtain ⟨after, done'⟩ := ihInner fun c e found => List.mem_cons_of_mem _ (done c e found)
      rw [searched] at after done'
      rw [expand_cons_of_unmet unexpanded inside, ← after]
      exact ih done'
  | case6 fresh b facts s d untried unfinished unexpanded outside ih =>
      rw [expand_cons_of_outside outside]
      exact ih done

end Expanded

/-! ## Conditions that are absent -/

section Absent

variable {fresh : List Handle} {b : Handle} {untried : List Block} {facts : List Formula}
  {s : ConditionSearch}

theorem conditionThrough_isSome (some_fact : facts ≠ []) :
    (conditionThrough m r target fresh b untried facts s).1.isSome = true := by
  fun_induction conditionThrough m r target fresh b untried facts s with
  | case1 fresh b facts s => exact Formula.join?_isSome.2 some_fact
  | case2 fresh b facts s d untried fact? found ih =>
      exact ih (List.append_ne_nil_of_left_ne_nil some_fact _)
  | case3 fresh b facts s d untried unfinished expanded ih => exact ih some_fact
  | case4 fresh b facts s d untried unfinished unexpanded inside inner s' searched c compared own
      fact? ihInner ih => exact ih (List.append_ne_nil_of_left_ne_nil some_fact _)
  | case5 fresh b facts s d untried unfinished unexpanded inside inner s' searched other
      ihInner ih => exact ih (List.append_ne_nil_of_left_ne_nil some_fact _)
  | case6 fresh b facts s d untried unfinished unexpanded outside ih => exact ih some_fact

/-- If nothing is found, then nothing has been contributed. -/
theorem eq_none_of_conditionThrough {fact? : Option Formula}
    (absent : (conditionThrough m r target fresh b untried (facts ++ fact?.toList) s).1 = none) :
    fact? = none := by
  by_contra contributed
  have found : (conditionThrough m r target fresh b untried (facts ++ fact?.toList) s).1.isSome =
      true := conditionThrough_isSome fun bare =>
    contributed (Option.toList_eq_nil_iff.1 (List.append_eq_nil_iff.1 bare).2)
  rw [absent] at found
  cases found

variable {callee : Handle} {arguments : List Handle}
  (call : m.op? target = some (.call callee arguments))

include call

theorem contribution_eq_none {d : Block} {inner : Option Formula} :
    r.contribution m target b d inner = none ↔
      m.test? target d.terminator = none ∧ inner = none := by
  simp only [← Option.not_isSome_iff_eq_none, contribution_isSome call, not_or]

omit call in
theorem Numbered.untested_of_cons (numbered : r.Numbered) {d e : Block} {expanded : List Handle}
    (head : d ∈ r.blocks) (inside : e ∈ r.blocks) (untested : m.test? target d.terminator = none)
    (either : e.handle ∈ d.handle :: expanded ∨ m.test? target e.terminator = none) :
    e.handle ∈ expanded ∨ m.test? target e.terminator = none := by
  rcases either with met | other
  · rcases List.mem_cons.1 met with same | old
    · rw [List.inj_on_of_nodup_map numbered.nodup inside head same]
      exact .inr untested
    · exact .inl old
  · exact .inr other

/-- If nothing is found, then what was expanded on the way tests nothing. -/
theorem Numbered.test?_of_expanded (numbered : r.Numbered) (listed : ∀ d ∈ untried, d ∈ r.blocks)
    (absent : (conditionThrough m r target fresh b untried facts s).1 = none) {e : Block}
    (inside : e ∈ r.blocks)
    (met : e.handle ∈ (conditionThrough m r target fresh b untried facts s).2.expanded) :
    e.handle ∈ s.expanded ∨ m.test? target e.terminator = none := by
  fun_induction conditionThrough m r target fresh b untried facts s with
  | case1 fresh b facts s => exact .inl met
  | case2 fresh b facts s d untried fact? found ih =>
      exact ih (List.forall_mem_cons.1 listed).2 absent met
  | case3 fresh b facts s d untried unfinished expanded ih =>
      exact ih (List.forall_mem_cons.1 listed).2 absent met
  | case4 fresh b facts s d untried unfinished unexpanded isFresh inner s' searched c compared own
      fact? ihInner ih =>
      obtain ⟨head, tail⟩ := List.forall_mem_cons.1 listed
      have contributed : r.contribution m target b d inner = none :=
        (contribution_of_compared compared).trans (eq_none_of_conditionThrough absent)
      obtain ⟨untested, silent⟩ := (contribution_eq_none call).1 contributed
      rw [searched] at ihInner
      rcases ih tail absent met with met | other
      · exact numbered.untested_of_cons head inside untested
          (ihInner (fun e => mem_blocks_of_directControllers) silent met)
      · exact .inr other
  | case5 fresh b facts s d untried unfinished unexpanded isFresh inner s' searched other
      ihInner ih =>
      obtain ⟨head, tail⟩ := List.forall_mem_cons.1 listed
      have contributed : r.contribution m target b d inner = none :=
        (contribution_of_not_compared other).trans (eq_none_of_conditionThrough absent)
      obtain ⟨untested, silent⟩ := (contribution_eq_none call).1 contributed
      rw [searched] at ihInner
      rcases ih tail absent met with met | other
      · exact numbered.untested_of_cons head inside untested
          (ihInner (fun e => mem_blocks_of_directControllers) silent met)
      · exact .inr other
  | case6 fresh b facts s d untried unfinished unexpanded outside ih =>
      exact ih (List.forall_mem_cons.1 listed).2 absent met

/-- A block has a path condition exactly if one of all its controllers tests the result. -/
theorem Numbered.pathCondition?_isSome (numbered : r.Numbered) (b : Handle) :
    (pathCondition? m r b target).isSome = true ↔
      ∃ d ∈ r.allControllers b, (m.test? target d.terminator).isSome = true := by
  constructor
  · intro present
    by_contra untested
    have unheard : ∀ d ∈ r.allControllers b, ∀ outcome,
        m.fact? target d.terminator outcome = none := by
      intro d controls outcome
      apply Option.not_isSome_iff_eq_none.1
      rw [Module.fact?_isSome call]
      exact fun tested => untested ⟨d, controls, tested⟩
    rw [pathCondition?_of_mute unheard] at present
    cases present
  · rintro ⟨d, controls, tested⟩
    by_contra absent
    have absent : pathCondition? m r b target = none := Option.not_isSome_iff_eq_none.1 absent
    obtain ⟨inside, chain⟩ := numbered.mem_allControllers_iff.1 controls
    have met := numbered.mem_expand_of_chain chain
    rw [← (expanded_conditionThrough (m := m) (b := b) (s := {}) fun _ _ found => by cases found).1]
      at met
    have untested := (numbered.test?_of_expanded call (fun e => mem_blocks_of_directControllers)
      absent inside met).resolve_left List.not_mem_nil
    rw [untested] at tested
    cases tested

end Absent

end ErrorContracts.Routine
