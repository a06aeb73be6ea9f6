import ErrorContracts.PathCondition
import ErrorContracts.Proofs.Controllers

/-!
# How a path condition is expanded

The search for a path condition meets the controllers of a block, their controllers and so on, and
expands each of them where it meets it first.  What it has expanded is a forest, and it depends on the
routine alone.  Without cycles no contribution is ever used again, so a path condition can be read
off the forest: it is the disjunction of what the controllers at the bottom of the forest contribute.
-/

namespace ErrorContracts

/-- The controllers of a block that were expanded for it, each with those expanded for it in turn. -/
inductive Forest where
  | bare
  | branch (controller : Block) (above rest : Forest)
  deriving DecidableEq

/-- What is known after a branch, if it is taken on a comparison of the target. -/
def Module.fact? (m : Module) (target : Handle) (exit : Terminator) (outcome : Bool) :
    Option Formula :=
  ((m.comparison? exit).filter (m.involves target)).bind fun c => m.inducedFact? c outcome

namespace Routine

/--
Expands the controllers `untried`, and theirs, unless they are expanded already.  The second result
lists what is expanded in the end.
-/
def expand (r : Routine) (fresh : List Handle) (untried : List Block) (expanded : List Handle) :
    Forest × List Handle :=
  match untried with
  | [] => (.bare, expanded)
  | dep :: untried =>
      if dep.handle ∈ expanded then expand r fresh untried expanded
      else if _h : dep.handle ∈ fresh then
        let above := expand r (fresh.erase dep.handle) (r.directControllers dep.handle)
          (dep.handle :: expanded)
        let rest := expand r fresh untried above.2
        (.branch dep above.1 rest.1, rest.2)
      else expand r fresh untried expanded
termination_by (fresh.length, untried.length)
decreasing_by
  · exact Prod.Lex.right _ (by simp)
  · exact Prod.Lex.left _ _ (length_erase_lt _h)
  · exact Prod.Lex.right _ (by simp)
  · exact Prod.Lex.right _ (by simp)

/-- The controllers that are expanded for the path condition of a block. -/
def forest (r : Routine) (b : Handle) : Forest :=
  (r.expand (r.blocks.map Block.handle) (r.directControllers b) []).1

/-- What a controller contributes to the condition of a block, given its own condition. -/
def contribution (m : Module) (r : Routine) (target b : Handle) (d : Block)
    (inner : Option Formula) : Option Formula :=
  Formula.meet? (m.fact? target d.terminator (r.takenToward b d.terminator)) inner

end Routine

/-- What the controllers at the bottom of a forest contribute to the condition of a block. -/
def Forest.contributions (m : Module) (r : Routine) (target : Handle) :
    Handle → Forest → List Formula
  | _, bare => []
  | b, branch d above rest =>
      (r.contribution m target b d (Formula.join? (above.contributions m r target d.handle))).toList ++
        rest.contributions m r target b

namespace ConditionSearch

/-- How a search for the condition of `b` changes what it keeps. -/
structure Extends (r : Routine) (b : Handle) (s s' : ConditionSearch) : Prop where
  expanded : s.expanded ⊆ s'.expanded
  finished : ∀ c d, (Bindings.find? (c, d) s'.finished).isSome →
    (Bindings.find? (c, d) s.finished).isSome ∨ c = b ∨
      c ∈ s'.expanded ∧ r.graph.Precedes c b

namespace Extends

variable {r : Routine} {b : Handle} {s s' s'' : ConditionSearch}

theorem refl (r : Routine) (b : Handle) (s : ConditionSearch) : Extends r b s s where
  expanded := List.Subset.refl s.expanded
  finished _ _ found := .inl found

theorem trans (first : Extends r b s s') (second : Extends r b s' s'') : Extends r b s s'' where
  expanded := List.Subset.trans first.expanded second.expanded
  finished := by
    intro c d found
    rcases second.finished c d found with old | here | ⟨inside, precedes⟩
    · rcases first.finished c d old with old | here | ⟨inside, precedes⟩
      · exact .inl old
      · exact .inr (.inl here)
      · exact .inr (.inr ⟨second.expanded inside, precedes⟩)
    · exact .inr (.inl here)
    · exact .inr (.inr ⟨inside, precedes⟩)

/-- What the search for the condition of a controller has done. -/
theorem of_controller {d : Handle} (precedes : r.graph.Precedes d b)
    (inner : Extends r d { s with expanded := d :: s.expanded } s') : Extends r b s s' where
  expanded := List.Subset.trans (List.subset_cons_self d s.expanded) inner.expanded
  finished := by
    intro c e found
    rcases inner.finished c e found with old | rfl | ⟨inside, before⟩
    · exact .inl old
    · exact .inr (.inr ⟨inner.expanded List.mem_cons_self, precedes⟩)
    · exact .inr (.inr ⟨inside, before.trans precedes⟩)

theorem assign (r : Routine) (b d : Handle) (s : ConditionSearch) (fact? : Option Formula) :
    Extends r b s { s with finished := Bindings.assign (b, d) fact? s.finished } where
  expanded := List.Subset.refl s.expanded
  finished := by
    intro c e found
    rw [Bindings.find?_assign] at found
    split at found
    next same => exact .inr (.inl (Prod.mk.inj same).1)
    next => exact .inl found

end Extends

/-- The contributions that the controllers `untried` of `b` lead to are not known yet. -/
structure Clear (r : Routine) (b : Handle) (untried : List Block) (s : ConditionSearch) : Prop where
  unfinished : ∀ d ∈ untried, Bindings.find? (b, d.handle) s.finished = none
  closed : ∀ c d, (Bindings.find? (c, d) s.finished).isSome →
    c ∈ s.expanded ∨ ¬r.graph.Precedes c b

namespace Clear

variable {r : Routine} {b : Handle} {d : Block} {untried : List Block} {s s' : ConditionSearch}

theorem tail (clear : s.Clear r b (d :: untried)) : s.Clear r b untried where
  unfinished := (List.forall_mem_cons.1 clear.unfinished).2
  closed := clear.closed

/-- Nothing is known about a controller when it is expanded. -/
theorem controller (clear : s.Clear r b untried) (precedes : r.graph.Precedes d.handle b)
    (unexpanded : d.handle ∉ s.expanded) (controllers : List Block) :
    Clear r d.handle controllers { s with expanded := d.handle :: s.expanded } where
  unfinished := by
    intro e _
    apply Option.not_isSome_iff_eq_none.1
    intro found
    rcases clear.closed d.handle e.handle found with inside | apart
    · exact unexpanded inside
    · exact apart precedes
  closed := by
    intro c e found
    rcases clear.closed c e found with inside | apart
    · exact .inl (List.mem_cons_of_mem _ inside)
    · exact .inr fun before => apart (before.trans precedes)

/-- The search for the condition of a controller finishes nothing else of `b`. -/
theorem after_controller (acyclic : r.graph.Acyclic) (clear : s.Clear r b (d :: untried))
    (precedes : r.graph.Precedes d.handle b)
    (inner : Extends r d.handle { s with expanded := d.handle :: s.expanded } s') :
    s'.Clear r b untried where
  unfinished := by
    intro e among
    apply Option.not_isSome_iff_eq_none.1
    intro found
    rcases inner.finished b e.handle found with old | same | ⟨-, back⟩
    · rw [clear.tail.unfinished e among] at old
      cases old
    · rw [← same] at precedes
      exact acyclic.not_precedes b precedes
    · exact acyclic.not_precedes b (back.trans precedes)
  closed := by
    intro c e found
    rcases inner.finished c e found with old | rfl | ⟨inside, -⟩
    · rcases clear.closed c e old with inside | apart
      · exact .inl (inner.expanded (List.mem_cons_of_mem _ inside))
      · exact .inr apart
    · exact .inl (inner.expanded List.mem_cons_self)
    · exact .inl inside

theorem assign (acyclic : r.graph.Acyclic) (clear : s.Clear r b untried)
    (other : d.handle ∉ untried.map Block.handle) (fact? : Option Formula) :
    Clear r b untried { s with finished := Bindings.assign (b, d.handle) fact? s.finished } where
  unfinished := by
    intro e among
    have different : (b, e.handle) ≠ (b, d.handle) := by
      intro same
      rw [← (Prod.mk.inj same).2] at other
      exact other (List.mem_map_of_mem among)
    rw [Bindings.find?_assign, if_neg different]
    exact clear.unfinished e among
  closed := by
    intro c e found
    rw [Bindings.find?_assign] at found
    split at found
    next same =>
      rw [(Prod.mk.inj same).1]
      exact .inr (acyclic.not_precedes b)
    next => exact clear.closed c e found

end Clear

end ConditionSearch

namespace Routine

variable {m : Module} {r : Routine} {target : Handle}

theorem extends_conditionThrough (numbered : r.Numbered) {fresh : List Handle} {b : Handle}
    {untried : List Block} {facts : List Formula} {s : ConditionSearch}
    (before : ∀ d ∈ untried, r.graph.Precedes d.handle b) :
    s.Extends r b (conditionThrough m r target fresh b untried facts s).2 := by
  fun_induction conditionThrough m r target fresh b untried facts s with
  | case1 fresh b facts s => exact .refl r b s
  | case2 fresh b facts s d untried fact? found ih => exact ih (List.forall_mem_cons.1 before).2
  | case3 fresh b facts s d untried unfinished expanded ih =>
      exact ih (List.forall_mem_cons.1 before).2
  | case4 fresh b facts s d untried unfinished unexpanded inside inner s' searched c compared own
      fact? ihInner ih =>
      obtain ⟨first, others⟩ := List.forall_mem_cons.1 before
      have within := ihInner fun e controls => numbered.precedes_of_mem_directControllers controls
      rw [searched] at within
      exact ((within.of_controller first).trans (.assign r b d.handle s' fact?)).trans (ih others)
  | case5 fresh b facts s d untried unfinished unexpanded inside inner s' searched other
      ihInner ih =>
      obtain ⟨first, others⟩ := List.forall_mem_cons.1 before
      have within := ihInner fun e controls => numbered.precedes_of_mem_directControllers controls
      rw [searched] at within
      exact (within.of_controller first).trans (ih others)
  | case6 fresh b facts s d untried unfinished unexpanded outside ih =>
      exact ih (List.forall_mem_cons.1 before).2

theorem extends_of_searched (numbered : r.Numbered) {fresh : List Handle} {d : Handle}
    {facts : List Formula} {inner : Option Formula} {s s' : ConditionSearch}
    (searched : conditionThrough m r target fresh d (r.directControllers d) facts s = (inner, s')) :
    s.Extends r d s' := by
  have within : s.Extends r d
      (conditionThrough m r target fresh d (r.directControllers d) facts s).2 :=
    extends_conditionThrough numbered fun e => numbered.precedes_of_mem_directControllers
  rw [searched] at within
  exact within

section

variable {fresh expanded : List Handle} {d : Block} {untried : List Block}

theorem expand_cons_of_expanded (met : d.handle ∈ expanded) :
    r.expand fresh (d :: untried) expanded = r.expand fresh untried expanded := by
  rw [expand, if_pos met]

theorem expand_cons_of_outside (outside : d.handle ∉ fresh) :
    r.expand fresh (d :: untried) expanded = r.expand fresh untried expanded := by
  rw [expand, dif_neg outside, ite_self]

/-- A controller that is met first contributes, and what was expanded for it stays expanded. -/
theorem contributions_expand_cons {b : Handle} {inner : Option Formula} {reached : List Handle}
    (unmet : d.handle ∉ expanded) (inside : d.handle ∈ fresh)
    (condition : inner = Formula.join? ((r.expand (fresh.erase d.handle)
      (r.directControllers d.handle) (d.handle :: expanded)).1.contributions m r target d.handle))
    (after : reached = (r.expand (fresh.erase d.handle) (r.directControllers d.handle)
      (d.handle :: expanded)).2) :
    (r.expand fresh (d :: untried) expanded).1.contributions m r target b =
        (r.contribution m target b d inner).toList ++
          (r.expand fresh untried reached).1.contributions m r target b ∧
      (r.expand fresh (d :: untried) expanded).2 = (r.expand fresh untried reached).2 := by
  subst condition after
  rw [expand, if_neg unmet, dif_pos inside]
  exact ⟨rfl, rfl⟩

end

theorem contribution_of_compared {b : Handle} {d : Block} {inner : Option Formula} {c : Comparison}
    (compared : (m.comparison? d.terminator).filter (m.involves target) = some c) :
    r.contribution m target b d inner =
      Formula.meet? (m.inducedFact? c (r.takenToward b d.terminator)) inner := by
  rw [contribution, Module.fact?, compared]
  rfl

theorem contribution_of_not_compared {b : Handle} {d : Block} {inner : Option Formula}
    (other : (m.comparison? d.terminator).filter (m.involves target) = none) :
    r.contribution m target b d inner = inner := by
  rw [contribution, Module.fact?, other]
  cases inner <;> rfl

/-- A search gives the disjunction of the contributions of its forest. -/
theorem conditionThrough_eq (numbered : r.Numbered) (acyclic : r.graph.Acyclic)
    {fresh : List Handle} {b : Handle} {untried : List Block} {facts : List Formula}
    {s : ConditionSearch} (before : ∀ d ∈ untried, r.graph.Precedes d.handle b)
    (once : (untried.map Block.handle).Nodup) (clear : s.Clear r b untried) :
    (conditionThrough m r target fresh b untried facts s).1 =
        Formula.join? (facts ++ (r.expand fresh untried s.expanded).1.contributions m r target b) ∧
      (conditionThrough m r target fresh b untried facts s).2.expanded =
        (r.expand fresh untried s.expanded).2 := by
  fun_induction conditionThrough m r target fresh b untried facts s with
  | case1 fresh b facts s =>
      rw [expand]
      simp [Forest.contributions]
  | case2 fresh b facts s d untried fact? found ih =>
      -- each controller of `b` is met once, and what lies before `b` finishes nothing of `b`
      rw [clear.unfinished d List.mem_cons_self] at found
      cases found
  | case3 fresh b facts s d untried unfinished expanded ih =>
      rw [expand_cons_of_expanded expanded]
      exact ih (List.forall_mem_cons.1 before).2 (List.nodup_cons.1 once).2 clear.tail
  | case4 fresh b facts s d untried unfinished unexpanded inside inner s' searched c compared own
      fact? ihInner ih =>
      obtain ⟨first, others⟩ := List.forall_mem_cons.1 before
      obtain ⟨apart, onceRest⟩ := List.nodup_cons.1 once
      have within := extends_of_searched numbered searched
      obtain ⟨condition, after⟩ :=
        ihInner (fun e => numbered.precedes_of_mem_directControllers)
          (r.nodup_directControllers d.handle) (clear.controller first unexpanded _)
      rw [searched] at condition after
      obtain ⟨contributed, reached⟩ := contributions_expand_cons unexpanded inside condition after
      have cleared := (clear.after_controller acyclic first within).assign acyclic apart fact?
      rw [contributed, reached, contribution_of_compared compared, ← List.append_assoc]
      exact ih others onceRest cleared
  | case5 fresh b facts s d untried unfinished unexpanded inside inner s' searched other
      ihInner ih =>
      obtain ⟨first, others⟩ := List.forall_mem_cons.1 before
      have within := extends_of_searched numbered searched
      obtain ⟨condition, after⟩ :=
        ihInner (fun e => numbered.precedes_of_mem_directControllers)
          (r.nodup_directControllers d.handle) (clear.controller first unexpanded _)
      rw [searched] at condition after
      obtain ⟨contributed, reached⟩ := contributions_expand_cons unexpanded inside condition after
      rw [contributed, reached, contribution_of_not_compared other, ← List.append_assoc]
      exact ih others (List.nodup_cons.1 once).2 (clear.after_controller acyclic first within)
  | case6 fresh b facts s d untried unfinished unexpanded outside ih =>
      rw [expand_cons_of_outside outside]
      exact ih (List.forall_mem_cons.1 before).2 (List.nodup_cons.1 once).2 clear.tail

/-- A path condition is the disjunction of what its forest contributes. -/
theorem pathCondition?_eq (numbered : r.Numbered) (acyclic : r.graph.Acyclic) (b : Handle) :
    pathCondition? m r b target =
      Formula.join? ((r.forest b).contributions m r target b) := by
  have clear : ConditionSearch.Clear r b (r.directControllers b) {} :=
    ⟨fun _ _ => rfl, fun c d found => by cases found⟩
  exact (conditionThrough_eq numbered acyclic (fun d => numbered.precedes_of_mem_directControllers)
    (r.nodup_directControllers b) clear).1

end Routine

end ErrorContracts
