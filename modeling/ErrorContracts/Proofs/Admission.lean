import ErrorContracts.Proofs.Expansion
import Mathlib

/-!
# Results that a path admits

A path admits a result of a call if every branch on a comparison of the call with a constant is left
by the edge that the comparison says.  In a routine without cycles a result is admitted on some path
to a block exactly if the controllers of the block let it through.  The path condition of the block
asks the controllers that were expanded for it instead.  So it holds of every admitted result exactly
where those grant what all controllers let through.
-/

namespace ErrorContracts

namespace Module

/-- What a comparison of a call with a constant says of a result, read as signed words. -/
def reading? (m : Module) (target : Handle) (c : Comparison) : Option (Int → Bool) :=
  if m.ignoreCasts c.lhs = target then
    (m.constantOperand? c.rhs).map fun n x =>
      c.predicate.relation.holds (Word32.wrap x) (Word32.wrap n)
  else if m.ignoreCasts c.rhs = target then
    (m.constantOperand? c.lhs).map fun n x =>
      c.predicate.relation.holds (Word32.wrap n) (Word32.wrap x)
  else none

/-- The test of a result that a branch is taken on. -/
def test? (m : Module) (target : Handle) (exit : Terminator) : Option (Int → Bool) :=
  (m.comparison? exit).bind (m.reading? target)

end Module

/--
A block may be left to `s` if the call has given `x`: a branch on a test of the result with two
targets goes to the first of them exactly if the test comes out true.
-/
def Block.Admits (m : Module) (target : Handle) (x : Int) (b : Block) (s : Nat) : Prop :=
  ∀ condition onTrue onFalse p, b.terminator = .branch condition onTrue onFalse →
    onTrue ≠ onFalse → m.test? target b.terminator = some p → (s = onTrue ↔ p x = true)

/-- The edge from `d` to `s` may be taken if the call has given `x`. -/
def Routine.Admits (m : Module) (r : Routine) (target : Handle) (x : Int) (d s : Nat) : Prop :=
  ∀ b ∈ r.blocks, b.handle = d → b.Admits m target x s

/-- Some path from the entry to `b` admits the result `x`. -/
def Routine.Admitted (m : Module) (r : Routine) (target : Handle) (x : Int) (b : Nat) : Prop :=
  ∃ passed, r.graph.Path r.graph.entry b passed ∧ passed.IsChain (r.Admits m target x)

/-- Control can come to every block, and does not come back to any. -/
structure Routine.LoopFree (r : Routine) : Prop where
  acyclic : r.graph.Acyclic
  reached : ∀ b ∈ r.blocks, r.graph.Reaches r.graph.entry b.handle

namespace Forest

/-- Some controller of the forest tests the result. -/
def Speaks (m : Module) (target : Handle) : Forest → Prop
  | bare => False
  | branch d above rest =>
      (m.test? target d.terminator).isSome ∨ above.Speaks m target ∨ rest.Speaks m target

/--
Some controller at the bottom of the forest, itself or through others a test, is passed: its own test
comes out as for a branch taken toward `b`, and those above it grant the result if they test it.
-/
def Grants (m : Module) (r : Routine) (target : Handle) (x : Int) : Handle → Forest → Prop
  | _, bare => False
  | b, branch d above rest =>
      ((m.test? target d.terminator).isSome ∨ above.Speaks m target) ∧
          (∀ p, m.test? target d.terminator = some p → p x = r.takenToward b d.terminator) ∧
          (above.Speaks m target → above.Grants m r target x d.handle) ∨
        rest.Grants m r target x b

end Forest

/-! ## What conditions say -/

namespace Formula

theorem holds_relation (op : Relation) (lhs rhs : Formula) (x : Int) :
    (relation op lhs rhs).holds x =
      op.holds (lhs.value (Word32.wrap x)) (rhs.value (Word32.wrap x)) := by
  cases known : op.holds (lhs.value (Word32.wrap x)) (rhs.value (Word32.wrap x)) with
  | false => simp [holds, value, known, truth]
  | true => simp [holds, value, known, truth]

theorem holds_outcome (f : Formula) (outcome : Bool) (x : Int) :
    (if outcome then f else not f).holds x = (f.holds x == outcome) := by
  cases outcome with
  | false => simp
  | true => simp

theorem join?_isSome {fs : List Formula} : (join? fs).isSome = true ↔ fs ≠ [] := by
  cases fs with
  | nil => simp [join?]
  | cons f fs => simp [join?]

theorem forall_join? {fs : List Formula} {x : Int} :
    (∀ f, join? fs = some f → f.holds x = true) ↔ (fs ≠ [] → ∃ f ∈ fs, f.holds x = true) := by
  cases fs with
  | nil => simp [join?]
  | cons f fs => simp [join?]

theorem meet?_isSome {f? g? : Option Formula} :
    (meet? f? g?).isSome = true ↔ f?.isSome = true ∨ g?.isSome = true := by
  cases f? with
  | none => simp [meet?]
  | some f => cases g? <;> simp [meet?]

theorem holds_meet? {f? g? : Option Formula} {h : Formula} {x : Int} (both : meet? f? g? = some h) :
    h.holds x = true ↔
      (∀ f, f? = some f → f.holds x = true) ∧ ∀ g, g? = some g → g.holds x = true := by
  cases f? with
  | none =>
      cases g? with
      | none => cases both
      | some g =>
          cases both
          simp
  | some f =>
      cases g? with
      | none =>
          cases both
          simp
      | some g =>
          cases both
          simp

end Formula

section

variable {m : Module} {target callee : Handle} {arguments : List Handle}
  (call : m.op? target = some (.call callee arguments))

include call

namespace Module

theorem constantOperand?_eq_none {h : Handle} (same : m.ignoreCasts h = target) :
    m.constantOperand? h = none := by
  unfold op? at call
  unfold constantOperand?
  rw [same]
  split at call
  next found => rw [found]
  next => cases call

/-- A fact induced by a comparison of the call holds where the comparison comes out so. -/
theorem holds_inducedFact? {c : Comparison} (involved : m.involves target c = true) (outcome : Bool)
    (x : Int) :
    (m.inducedFact? c outcome).map (fun f => f.holds x) =
      (m.reading? target c).map fun p => p x == outcome := by
  unfold inducedFact? relationOf? reading?
  simp only [Option.map_map, Function.comp_def, Formula.holds_outcome]
  by_cases left : m.ignoreCasts c.lhs = target
  · rw [if_pos left, constantOperand?_eq_none call left]
    cases m.constantOperand? c.rhs with
    | none => rfl
    | some n => simp [Formula.holds_relation, Formula.value, Formula.result]
  · have right : m.ignoreCasts c.rhs = target := by simpa [involves, left] using involved
    rw [if_neg left, if_pos right, constantOperand?_eq_none call right]
    cases m.constantOperand? c.lhs with
    | none => rfl
    | some n => simp [Formula.holds_relation, Formula.value, Formula.result]

theorem holds_fact? (exit : Terminator) (outcome : Bool) (x : Int) :
    (m.fact? target exit outcome).map (fun f => f.holds x) =
      (m.test? target exit).map fun p => p x == outcome := by
  unfold fact? test?
  cases m.comparison? exit with
  | none => rfl
  | some c =>
      by_cases involved : m.involves target c = true
      · simpa [Option.filter, involved] using holds_inducedFact? call involved outcome x
      · have silent : m.reading? target c = none := by
          simp only [involves, Bool.or_eq_true, decide_eq_true_eq, not_or] at involved
          rw [reading?, if_neg involved.1, if_neg involved.2]
        simp [Option.filter, involved, silent]

theorem fact?_isSome (exit : Terminator) (outcome : Bool) :
    (m.fact? target exit outcome).isSome = true ↔ (m.test? target exit).isSome = true := by
  have same := congrArg Option.isSome (holds_fact? call exit outcome 0)
  rw [Option.isSome_map, Option.isSome_map] at same
  rw [same]

theorem forall_fact? (exit : Terminator) (outcome : Bool) (x : Int) :
    (∀ f, m.fact? target exit outcome = some f → f.holds x = true) ↔
      ∀ p, m.test? target exit = some p → p x = outcome := by
  have same := holds_fact? call exit outcome x
  cases known : m.fact? target exit outcome with
  | none =>
      rw [known] at same
      have silent : m.test? target exit = none := Option.map_eq_none_iff.1 same.symm
      simp [silent]
  | some f =>
      rw [known] at same
      obtain ⟨p, tested, agrees⟩ := Option.map_eq_some_iff.1 same.symm
      simp [tested, ← agrees]

end Module

namespace Routine

variable {r : Routine} {b : Handle} {d : Block} {inner : Option Formula}

theorem contribution_isSome :
    (r.contribution m target b d inner).isSome = true ↔
      (m.test? target d.terminator).isSome = true ∨ inner.isSome = true := by
  unfold contribution
  rw [Formula.meet?_isSome, Module.fact?_isSome call]

theorem holds_contribution {f : Formula} {x : Int}
    (contributed : r.contribution m target b d inner = some f) :
    f.holds x = true ↔
      (∀ p, m.test? target d.terminator = some p → p x = r.takenToward b d.terminator) ∧
        ∀ g, inner = some g → g.holds x = true := by
  rw [Formula.holds_meet? contributed, Module.forall_fact? call]

end Routine

namespace Forest

variable {r : Routine} {b : Handle} {x : Int}

/-- A controller contributes if it tests the result, or one above it does. -/
theorem contribution_join_isSome {d : Block} {above : Forest}
    (inner : above.contributions m r target d.handle ≠ [] ↔ above.Speaks m target) :
    (r.contribution m target b d
        (Formula.join? (above.contributions m r target d.handle))).isSome = true ↔
      (m.test? target d.terminator).isSome = true ∨ above.Speaks m target := by
  rw [Routine.contribution_isSome call, Formula.join?_isSome, inner]

theorem contributions_ne_nil {forest : Forest} :
    forest.contributions m r target b ≠ [] ↔ forest.Speaks m target := by
  induction forest generalizing b with
  | bare => simp [contributions, Speaks]
  | branch d above rest aboveIH restIH =>
      rw [contributions, Speaks, ← restIH (b := b), ← or_assoc,
        ← contribution_join_isSome call aboveIH]
      cases r.contribution m target b d
          (Formula.join? (above.contributions m r target d.handle)) with
      | none => simp
      | some f => simp

/-- The alternatives of a condition that hold are those of controllers that grant the result. -/
theorem exists_contribution {forest : Forest} :
    (∃ f ∈ forest.contributions m r target b, f.holds x = true) ↔
      forest.Grants m r target x b := by
  induction forest generalizing b with
  | bare => simp [contributions, Grants]
  | branch d above rest aboveIH restIH =>
      rw [contributions, Grants, ← restIH (b := b),
        ← contribution_join_isSome call (contributions_ne_nil call)]
      cases contributed : r.contribution m target b d
          (Formula.join? (above.contributions m r target d.handle)) with
      | none => simp
      | some f =>
          have passed := Routine.holds_contribution call (x := x) contributed
          rw [Formula.forall_join?, contributions_ne_nil call, aboveIH] at passed
          simp [passed]

theorem forall_join_contributions {forest : Forest} :
    (∀ c, Formula.join? (forest.contributions m r target b) = some c → c.holds x = true) ↔
      (forest.Speaks m target → forest.Grants m r target x b) := by
  rw [Formula.forall_join?, contributions_ne_nil call, exists_contribution call]

end Forest

end

/-! ## Ways through a routine -/

theorem Terminator.mem_successors_branch {condition : Operand} {onTrue onFalse s : Handle} :
    s ∈ (branch condition onTrue onFalse).successors ↔ s = onTrue ∨ s = onFalse := by
  by_cases same : onTrue = onFalse
  · simp [successors, same]
  · simp [successors, same]

/-- Whatever a call gives, each block can be left. -/
theorem Block.exists_admits (m : Module) (target : Handle) (x : Int) (b : Block) :
    ∃ s ∈ b.targets, b.Admits m target x s := by
  unfold Admits targets
  cases b.terminator with
  | ret value => exact ⟨exitNode, List.mem_singleton_self _, by rintro _ _ _ _ ⟨⟩⟩
  | unreachable => exact ⟨exitNode, List.mem_singleton_self _, by rintro _ _ _ _ ⟨⟩⟩
  | jump next => exact ⟨next, List.mem_singleton_self _, by rintro _ _ _ _ ⟨⟩⟩
  | branch condition onTrue onFalse =>
      cases tested : m.test? target (.branch condition onTrue onFalse) with
      | none => exact ⟨onTrue, Terminator.mem_successors_branch.2 (.inl rfl), by rintro _ _ _ _ _ _ ⟨⟩⟩
      | some p =>
          cases outcome : p x with
          | true =>
              refine ⟨onTrue, Terminator.mem_successors_branch.2 (.inl rfl), ?_⟩
              rintro _ _ _ _ ⟨⟩ _ ⟨⟩
              simp [outcome]
          | false =>
              refine ⟨onFalse, Terminator.mem_successors_branch.2 (.inr rfl), ?_⟩
              rintro _ _ _ _ ⟨⟩ distinct ⟨⟩
              simp [outcome, distinct.symm]

namespace Routine

variable {r : Routine}

theorem flows (m : Module) (numbered : r.Numbered) (loopFree : r.LoopFree) (target : Handle)
    (x : Int) : r.graph.Flows exitNode (r.Admits m target x) where
  acyclic := loopFree.acyclic
  reached := by
    intro d s edge
    obtain ⟨b, inside, rfl, -⟩ := exists_block_of_mem_succs edge
    exact loopFree.reached b inside
  choice := by
    intro n reaches
    rcases reached_cases reaches with rfl | ⟨b, inside, rfl⟩
    · exact .inl rfl
    · obtain ⟨s, edge, admits⟩ := b.exists_admits m target x
      refine .inr ⟨s, ?_, ?_⟩
      · rw [numbered.succs_handle inside]
        exact edge
      · intro block listed same
        rw [List.inj_on_of_nodup_map numbered.nodup listed inside same]
        exact admits

/-- Controllers tell which results are admitted on paths to a block. -/
theorem admitted_iff {m : Module} (numbered : r.Numbered) (loopFree : r.LoopFree) {target : Handle}
    {x : Int} {b : Block} (inside : b ∈ r.blocks) :
    r.Admitted m target x b.handle ↔
      r.graph.Lets exitNode (r.Admits m target x) b.handle := by
  rw [Admitted, ← Graph.travels_iff]
  exact (flows m numbered loopFree target x).travels_iff_lets (loopFree.reached b inside)

/-- A path condition holds where its forest, if it tests the result, grants it. -/
theorem forall_pathCondition? {m : Module} (numbered : r.Numbered) (acyclic : r.graph.Acyclic)
    {target callee : Handle} {arguments : List Handle}
    (call : m.op? target = some (.call callee arguments)) {b : Handle} {x : Int} :
    (∀ c, pathCondition? m r b target = some c → c.holds x = true) ↔
      ((r.forest b).Speaks m target → (r.forest b).Grants m r target x b) := by
  rw [pathCondition?_eq numbered acyclic]
  exact Forest.forall_join_contributions call

end Routine

/-! ## Faithful expansions -/

namespace Forest

/-- A controller at the bottom of a forest, with what was expanded for it. -/
def Lists : Forest → Block → Forest → Prop
  | bare, _, _ => False
  | branch d' above' rest, d, above => d = d' ∧ above = above' ∨ rest.Lists d above

/--
Every controller of `b` was expanded for `b` and contributes, a test among them is read as on the edge
that commits control to `b`, and so for the controllers above.
-/
inductive Faithful (m : Module) (r : Routine) (target : Handle) : Handle → Forest → Prop where
  | intro {b : Handle} {forest : Forest}
      (complete : ∀ n s, r.graph.Controls exitNode n s b → ∃ d ∈ r.blocks, ∃ above,
        d.handle = n ∧ forest.Lists d above ∧
          ((m.test? target d.terminator).isSome = true ∨ above.Speaks m target))
      (genuine : ∀ d above, forest.Lists d above → ∃ s, r.graph.Controls exitNode d.handle s b)
      (direction : ∀ d above, forest.Lists d above → ∀ condition onTrue onFalse s,
        d.terminator = .branch condition onTrue onFalse → r.graph.Controls exitNode d.handle s b →
          (r.takenToward b d.terminator = true ↔ s = onTrue))
      (inner : ∀ d above, forest.Lists d above → above.Speaks m target →
        Faithful m r target d.handle above) : Faithful m r target b forest

variable {m : Module} {r : Routine} {target b : Handle} {x : Int} {d : Block} {above forest : Forest}

theorem exists_lists (speaks : forest.Speaks m target) : ∃ d above, forest.Lists d above := by
  cases forest with
  | bare => cases speaks
  | branch d above rest => exact ⟨d, above, .inl ⟨rfl, rfl⟩⟩

theorem grants_of_lists (listed : forest.Lists d above)
    (contributes : (m.test? target d.terminator).isSome = true ∨ above.Speaks m target)
    (own : ∀ p, m.test? target d.terminator = some p → p x = r.takenToward b d.terminator)
    (granted : above.Speaks m target → above.Grants m r target x d.handle) :
    forest.Grants m r target x b := by
  induction forest with
  | bare => cases listed
  | branch d' above' rest _ restIH =>
      rcases listed with ⟨rfl, rfl⟩ | later
      · exact .inl ⟨contributes, own, granted⟩
      · exact .inr (restIH later)

end Forest

theorem Module.exists_branch_of_test? {m : Module} {target : Handle} {exit : Terminator}
    {p : Int → Bool} (tested : m.test? target exit = some p) :
    ∃ condition onTrue onFalse, exit = .branch condition onTrue onFalse := by
  cases exit with
  | branch condition onTrue onFalse => exact ⟨condition, onTrue, onFalse, rfl⟩
  | jump => cases tested
  | ret => cases tested
  | unreachable => cases tested

/-- A branch that controls something has two targets. -/
theorem Routine.distinct_of_controls {r : Routine} {isOpen : Nat → Nat → Prop} (numbered : r.Numbered)
    (flows : r.graph.Flows exitNode isOpen) {d : Block} {s b : Nat} {condition : Operand}
    {onTrue onFalse : Handle} (inside : d ∈ r.blocks)
    (controls : r.graph.Controls exitNode d.handle s b)
    (exit : d.terminator = .branch condition onTrue onFalse) : onTrue ≠ onFalse := by
  rintro rfl
  obtain ⟨other, edge, different⟩ :=
    flows.exists_other_of_controls controls (numbered.inside d inside)
  have taken := controls.edge
  simp only [numbered.succs_handle inside, Block.targets, exit, Terminator.successors,
    if_true, List.mem_singleton] at edge taken
  exact different (edge.trans taken.symm)

/-- A faithful expansion grants what controllers let through. -/
theorem Forest.Faithful.grants {m : Module} {r : Routine} {target b : Handle} {x : Int}
    {forest : Forest} (numbered : r.Numbered) (loopFree : r.LoopFree)
    (lets : r.graph.Lets exitNode (r.Admits m target x) b) (faithful : forest.Faithful m r target b)
    (speaks : forest.Speaks m target) : forest.Grants m r target x b := by
  have flows := Routine.flows m numbered loopFree target x
  induction lets generalizing forest with
  | free uncontrolled =>
      obtain ⟨complete, genuine, -, -⟩ := faithful
      obtain ⟨d, above, listed⟩ := exists_lists speaks
      obtain ⟨s, controls⟩ := genuine d above listed
      exact absurd controls (uncontrolled d.handle s)
  | through controls passable _ ih =>
      obtain ⟨complete, -, direction, inner⟩ := faithful
      obtain ⟨d, inside, above, rfl, listed, contributes⟩ := complete _ _ controls
      apply grants_of_lists listed contributes
      · intro p tested
        obtain ⟨condition, onTrue, onFalse, exit⟩ := Module.exists_branch_of_test? tested
        -- a controller has a choice, so the edge tells how its test came out
        have distinct := Routine.distinct_of_controls numbered flows inside controls exit
        have taken := direction d above listed condition onTrue onFalse _ exit controls
        have admitted := passable d inside rfl condition onTrue onFalse p exit distinct tested
        rw [Bool.eq_iff_iff, taken, admitted]
      · intro aboveSpeaks
        exact ih (inner d above listed aboveSpeaks) aboveSpeaks

namespace Routine

/--
A path condition holds of an admitted result exactly where the forest grants what the controllers let
through, and so of all admitted results if the expansion is faithful.
-/
theorem pathCondition_holds_iff {m : Module} {edits : List Edit} {f target callee : Handle}
    {arguments : List Handle} {r : Routine} {b : Block} (x : Int)
    (built : m = Module.build {} edits) (read : ofFunction m f = .ok r) (loopFree : r.LoopFree)
    (call : m.op? target = some (.call callee arguments)) (inside : b ∈ r.blocks) :
    ((r.Admitted m target x b.handle →
        ∀ c, pathCondition? m r b.handle target = some c → c.holds x = true) ↔
      (r.graph.Lets exitNode (r.Admits m target x) b.handle →
        (r.forest b.handle).Speaks m target →
          (r.forest b.handle).Grants m r target x b.handle)) ∧
      ((r.forest b.handle).Faithful m r target b.handle → r.Admitted m target x b.handle →
        ∀ c, pathCondition? m r b.handle target = some c → c.holds x = true) := by
  subst built
  have numbered := numbered_of_read read
  rw [admitted_iff numbered loopFree inside, forall_pathCondition? numbered loopFree.acyclic call]
  refine ⟨Iff.rfl, ?_⟩
  intro faithful lets
  exact faithful.grants numbered loopFree lets

end Routine

/-! ## A silent alternative -/

/-- Two branches lead to one block; one of them tests the call `t`, the other one does not. -/
def merging : Module :=
  Module.build {}
    [.external "read" .i32,
      .function "f" .i32 [],
      .block 2 "entry", .block 2 "left", .block 2 "right", .block 2 "join", .block 2 "out",
      .call (some 3) 1 [] "t" none,
      .call (some 3) 1 [] "u" none,
      .compare (some 3) .eq (.value 9) (.literal 0) "c", .branch (some 3) (.value 10) 4 5,
      .compare (some 4) .eq (.value 8) (.literal 5) "d", .branch (some 4) (.value 13) 6 7,
      .compare (some 5) .eq (.value 9) (.literal 7) "e", .branch (some 5) (.value 16) 6 7,
      .ret (some 6) (some (.literal 1)),
      .ret (some 7) (some (.literal 0))]

/-- The flow graph of the function in `merging`. -/
def mergingGraph : Graph Nat :=
  ⟨3, [(3, [4, 5]), (4, [6, 7]), (5, [6, 7]), (6, [0]), (7, [0]), (0, [])]⟩

theorem mergingGraph_acyclic : mergingGraph.Acyclic :=
  .of_rank (fun n => if n = exitNode then 8 else n) (by decide)

theorem mergingGraph_reaches : ∀ n ∈ [3, 4, 5, 6, 7], mergingGraph.Reaches 3 n := by
  have left : mergingGraph.Reaches 3 4 := .step (by decide) (.refl _ 4)
  have right : mergingGraph.Reaches 3 5 := .step (by decide) (.refl _ 5)
  have join : mergingGraph.Reaches 4 6 := .step (by decide) (.refl _ 6)
  have out : mergingGraph.Reaches 4 7 := .step (by decide) (.refl _ 7)
  simp only [List.forall_mem_cons]
  exact ⟨.refl _ 3, left, right, left.trans join, left.trans out, by simp⟩

theorem Routine.exists_read {m : Module} {f : Handle} {p : Routine → Bool}
    (checked : (ofFunction m f).toOption.any p = true) :
    ∃ r, ofFunction m f = .ok r ∧ p r = true := by
  cases read : ofFunction m f with
  | error e =>
      rw [read] at checked
      cases checked
  | ok r =>
      rw [read] at checked
      exact ⟨r, rfl, checked⟩

theorem Routine.exists_read_decide {m : Module} {f : Handle} {p : Routine → Prop} [DecidablePred p]
    (checked : (ofFunction m f).toOption.any (fun r => p r) = true) :
    ∃ r, ofFunction m f = .ok r ∧ p r := by
  obtain ⟨r, read, facts⟩ := exists_read checked
  exact ⟨r, read, of_decide_eq_true facts⟩

/-- What the routine of `merging` looks like, and where it tests its calls `t` and `u`. -/
theorem merging_evaluated : ∃ r, Routine.ofFunction merging 2 = .ok r ∧
    (r.graph = mergingGraph ∧ r.blocks.map Block.handle = [3, 4, 5, 6, 7] ∧
      merging.op? 8 = some (.call 1 []) ∧ merging.op? 9 = some (.call 1 [])) ∧
    ((∀ b ∈ r.blocks, b.handle ≠ 4 → merging.test? 8 b.terminator = none) ∧
      r.pathCondition? merging 6 8 = some (.relation .eq .result (.int 5))) ∧
    (∀ b ∈ r.blocks, b.handle = 3 → b.terminator.successors = [4, 5] ∧
      (merging.test? 9 b.terminator).any (fun p => p 0) = true) ∧
    (∀ b ∈ r.blocks, b.handle = 4 → merging.test? 9 b.terminator = none) ∧
    r.pathCondition? merging 6 9 =
      some (.or (.relation .eq .result (.int 0)) (.relation .eq .result (.int 7))) :=
  Routine.exists_read_decide (by cbv)

/-- The expansion of the join, with what its controllers do for the call `u`. -/
theorem merging_expansion : ∃ r, Routine.ofFunction merging 2 = .ok r ∧
    ∃ entry ∈ r.blocks, ∃ left ∈ r.blocks, ∃ right ∈ r.blocks,
      (entry.handle = 3 ∧ left.handle = 4 ∧ right.handle = 5) ∧
      r.forest 6 = .branch left (.branch entry .bare .bare) (.branch right .bare .bare) ∧
      (entry.terminator.successors = [4, 5] ∧ left.terminator.successors = [6, 7] ∧
        right.terminator.successors = [6, 7]) ∧
      (merging.test? 9 entry.terminator).isSome = true ∧
      (merging.test? 9 right.terminator).isSome = true ∧
      r.takenToward 4 entry.terminator = true ∧ r.takenToward 6 left.terminator = true ∧
      r.takenToward 6 right.terminator = true :=
  Routine.exists_read_decide (by cbv)

section

variable {r : Routine} (read : Routine.ofFunction merging 2 = .ok r)

include read

theorem merging_loopFree : r.LoopFree := by
  obtain ⟨_, same, ⟨graph, handles, -⟩, -⟩ := merging_evaluated
  cases read.symm.trans same
  constructor
  · rw [graph]
    exact mergingGraph_acyclic
  · intro b inside
    rw [graph]
    exact mergingGraph_reaches b.handle (handles ▸ List.mem_map_of_mem inside)

theorem merging_join : ∃ b ∈ r.blocks, b.handle = 6 := by
  obtain ⟨_, same, ⟨-, handles, -⟩, -⟩ := merging_evaluated
  cases read.symm.trans same
  exact List.mem_map.1 (show 6 ∈ r.blocks.map Block.handle by simp [handles])

/-- The join can be reached without a test of `t`, but its condition is the test. -/
theorem merging_silent : r.Admitted merging 8 0 6 ∧
    r.pathCondition? merging 6 8 = some (.relation .eq .result (.int 5)) := by
  obtain ⟨_, same, ⟨graph, -⟩, ⟨silent, condition⟩, -⟩ := merging_evaluated
  cases read.symm.trans same
  have admits : ∀ d ≠ 4, ∀ s, r.Admits merging 8 0 d s := by
    rintro d other s b inside rfl condition onTrue onFalse p _ _ tested
    rw [silent b inside other] at tested
    cases tested
  refine ⟨⟨[3, 5, 6], ?_, ?_⟩, condition⟩
  · rw [graph]
    exact .step (by decide) (.step (by decide) (.here 6))
  · exact .cons_cons (admits 3 (by decide) 5) (.cons_cons (admits 5 (by decide) 6) (.singleton 6))

end

/-! The call `u` is tested on either way to the join, by a branch to it or by the one above. -/

theorem mergingGraph_edges {n s : Nat} (edge : s ∈ mergingGraph.succs n) :
    n ∈ [0, 3, 4, 5, 6, 7] ∧ s ∈ [0, 3, 4, 5, 6, 7] ∧ n ≠ s ∧ (s = 4 → n = 3) ∧
      (s = 6 → n = 4 ∨ n = 5) := by
  have all : ∀ n ∈ mergingGraph.nodes, ∀ s ∈ mergingGraph.succs n,
      n ∈ [0, 3, 4, 5, 6, 7] ∧ s ∈ [0, 3, 4, 5, 6, 7] ∧ n ≠ s ∧ (s = 4 → n = 3) ∧
        (s = 6 → n = 4 ∨ n = 5) := by
    decide
  exact all n (Graph.mem_nodes_of_mem_succs edge) s edge

/-- An edge controls the node that it leads to if there is a way round. -/
theorem Graph.controls_of_path {ν : Type} [DecidableEq ν] {g : Graph ν} {exit d b : ν}
    {passed : List ν} (edge : b ∈ g.succs d) (path : g.Path d exit passed) (avoids : b ∉ passed) :
    g.Controls exit d b b where
  edge := edge
  commits _ other := other.start_mem
  uncommitted both := avoids (both.2 passed path)

/-- From every other node there is a way to the end round the join, and one round its left side. -/
theorem mergingGraph_round {s b : Nat} (start : s ∈ [0, 3, 4, 5, 6, 7]) (target : b = 4 ∨ b = 6)
    (other : s ≠ b) : ∃ passed, mergingGraph.Path s exitNode passed ∧ b ∉ passed := by
  have last : mergingGraph.Path 7 exitNode [7, 0] := .step (by decide) (.here 0)
  have right : mergingGraph.Path 5 exitNode [5, 7, 0] := .step (by decide) last
  simp only [List.mem_cons, List.not_mem_nil, or_false] at start
  obtain rfl | rfl | rfl | rfl | rfl | rfl := start
  · exact ⟨[0], .here 0, by grind⟩
  · exact ⟨[3, 5, 7, 0], .step (by decide) right, by grind⟩
  · exact ⟨[4, 7, 0], .step (by decide) last, by grind⟩
  · exact ⟨[5, 7, 0], right, by grind⟩
  · exact ⟨[6, 0], .step (by decide) (.here 0), by grind⟩
  · exact ⟨[7, 0], last, by grind⟩

/-- The join and its left side are controlled by the edges that lead to them. -/
theorem mergingGraph_controls_iff {n s b : Nat} (target : b = 4 ∨ b = 6) :
    mergingGraph.Controls exitNode n s b ↔ s = b ∧ b ∈ mergingGraph.succs n := by
  constructor
  · intro controls
    obtain ⟨-, leads, -⟩ := mergingGraph_edges controls.edge
    have same : s = b := by
      by_contra other
      obtain ⟨passed, path, avoids⟩ := mergingGraph_round leads target other
      exact avoids (controls.commits passed path)
    exact ⟨same, same ▸ controls.edge⟩
  · rintro ⟨rfl, edge⟩
    obtain ⟨starts, -, other, -⟩ := mergingGraph_edges edge
    obtain ⟨passed, path, avoids⟩ := mergingGraph_round starts target other
    exact Graph.controls_of_path edge path avoids

theorem Terminator.onTrue_of_successors {exit : Terminator} {condition : Operand}
    {onTrue onFalse first second : Handle} (branches : exit = .branch condition onTrue onFalse)
    (successors : exit.successors = [first, second]) : onTrue = first := by
  subst branches
  rw [Terminator.successors] at successors
  split at successors
  · cases successors
  · exact (List.cons.inj successors).1

/-- A sufficient form: each controller commits to `b` by its edge to `b`, taken where it holds. -/
theorem Forest.faithful_of_edges {m : Module} {r : Routine} {target b : Handle} {forest : Forest}
    (complete : ∀ n s, r.graph.Controls exitNode n s b → s = b ∧ ∃ d ∈ r.blocks, ∃ above,
      d.handle = n ∧ forest.Lists d above ∧
        ((m.test? target d.terminator).isSome = true ∨ above.Speaks m target))
    (each : ∀ d above, forest.Lists d above → r.graph.Controls exitNode d.handle b b ∧
      r.takenToward b d.terminator = true ∧ (∃ other, d.terminator.successors = [b, other]) ∧
        (above.Speaks m target → above.Faithful m r target d.handle)) :
    forest.Faithful m r target b := by
  refine .intro (fun n s controls => (complete n s controls).2)
    (fun d above listed => ⟨b, (each d above listed).1⟩) ?_
    (fun d above listed => (each d above listed).2.2.2)
  intro d above listed condition onTrue onFalse s branches controls
  obtain ⟨-, taken, ⟨other, successors⟩, -⟩ := each d above listed
  simp [taken, (complete _ s controls).1, Terminator.onTrue_of_successors branches successors]

section

variable {r : Routine} (read : Routine.ofFunction merging 2 = .ok r)

include read

/-- Each controller of the join is expanded for it and tests `u`, itself or through the entry. -/
theorem merging_faithful : (r.forest 6).Faithful merging r 9 6 := by
  obtain ⟨_, same, ⟨graph, -⟩, -⟩ := merging_evaluated
  cases read.symm.trans same
  obtain ⟨_, same, entry, entryInside, left, leftInside, right, rightInside,
    ⟨entryPlace, leftPlace, rightPlace⟩, forest, ⟨entrySuccs, leftSuccs, rightSuccs⟩, entryTests,
    rightTests, entryTaken, leftTaken, rightTaken⟩ := merging_expansion
  cases read.symm.trans same
  have controls : ∀ {n s b}, b = 4 ∨ b = 6 →
      (r.graph.Controls exitNode n s b ↔ s = b ∧ b ∈ mergingGraph.succs n) := by
    rw [graph]
    exact mergingGraph_controls_iff
  have above : (Forest.branch entry .bare .bare).Faithful merging r 9 4 := by
    refine Forest.faithful_of_edges (fun n s controlled => ?_) ?_
    · obtain ⟨same, edge⟩ := (controls (.inl rfl)).1 controlled
      obtain ⟨-, -, -, source, -⟩ := mergingGraph_edges edge
      exact ⟨same, entry, entryInside, _, entryPlace.trans (source rfl).symm, .inl ⟨rfl, rfl⟩,
        .inl entryTests⟩
    · rintro d above (⟨rfl, rfl⟩ | none)
      · exact ⟨(controls (.inl rfl)).2 ⟨rfl, entryPlace ▸ by decide⟩, entryTaken, ⟨5, entrySuccs⟩,
          fun speaks => by cases speaks⟩
      · cases none
  rw [forest]
  refine Forest.faithful_of_edges (fun n s controlled => ?_) ?_
  · obtain ⟨same, edge⟩ := (controls (.inr rfl)).1 controlled
    obtain ⟨-, -, -, -, source⟩ := mergingGraph_edges edge
    obtain rfl | rfl := source rfl
    · exact ⟨same, left, leftInside, _, leftPlace, .inl ⟨rfl, rfl⟩, .inr (.inl entryTests)⟩
    · exact ⟨same, right, rightInside, _, rightPlace, .inr (.inl ⟨rfl, rfl⟩), .inl rightTests⟩
  · rintro d above' (⟨rfl, rfl⟩ | ⟨rfl, rfl⟩ | none)
    · exact ⟨(controls (.inr rfl)).2 ⟨rfl, leftPlace ▸ by decide⟩, leftTaken, ⟨7, leftSuccs⟩,
        fun _ => leftPlace ▸ above⟩
    · exact ⟨(controls (.inr rfl)).2 ⟨rfl, rightPlace ▸ by decide⟩, rightTaken, ⟨7, rightSuccs⟩,
        fun speaks => by cases speaks⟩
    · cases none

/-- The result 0 of `u` leads to the left side, which does not test it. -/
theorem merging_admits_zero : r.Admitted merging 9 0 6 := by
  obtain ⟨_, same, ⟨graph, -⟩, -, tests, silent, -⟩ := merging_evaluated
  cases read.symm.trans same
  refine ⟨[3, 4, 6], ?_, .cons_cons ?_ (.cons_cons ?_ (.singleton 6))⟩
  · rw [graph]
    exact .step (by decide) (.step (by decide) (.here 6))
  · intro b inside place condition onTrue onFalse p branches _ tested
    obtain ⟨successors, holds⟩ := tests b inside place
    rw [tested] at holds
    exact iff_of_true (Terminator.onTrue_of_successors branches successors).symm holds
  · intro b inside place condition onTrue onFalse p _ _ tested
    rw [silent b inside place] at tested
    cases tested

end

/-- At the join the expansion is too small for the call `t` and faithful for `u`. -/
theorem pathCondition_holds_iff_merging :
    ∃ r b, Routine.ofFunction merging 2 = .ok r ∧ r.LoopFree ∧ b ∈ r.blocks ∧
      merging.op? 8 = some (.call 1 []) ∧
      ¬(r.graph.Lets exitNode (r.Admits merging 8 0) b.handle →
        (r.forest b.handle).Speaks merging 8 →
          (r.forest b.handle).Grants merging r 8 0 b.handle) ∧
      merging.op? 9 = some (.call 1 []) ∧ (r.forest b.handle).Faithful merging r 9 b.handle ∧
      r.Admitted merging 9 0 b.handle ∧ ∀ x, r.Admitted merging 9 x b.handle →
        (Formula.or (.relation .eq .result (.int 0)) (.relation .eq .result (.int 7))).holds x =
          true := by
  obtain ⟨r, read, ⟨-, -, callT, callU⟩, -, -, -, condition⟩ := merging_evaluated
  have loopFree := merging_loopFree read
  obtain ⟨silent, tested⟩ := merging_silent read
  have faithful := merging_faithful read
  have zero := merging_admits_zero read
  obtain ⟨b, inside, join⟩ := merging_join read
  rw [← join] at silent tested faithful condition zero
  refine ⟨r, b, read, loopFree, inside, callT, fun granted => ?_, callU, faithful, zero,
    fun x admitted => ?_⟩
  · have holds := (Routine.pathCondition_holds_iff (m := merging) 0 rfl read loopFree callT
      inside).1.2 granted silent _ tested
    exact absurd holds (by decide)
  · exact (Routine.pathCondition_holds_iff (m := merging) x rfl read loopFree callU inside).2
      faithful admitted _ condition

/-- The result 0 is admitted on a path to the join, and its condition is false of it. -/
theorem merging_condition_false :
    ∃ r b c, Routine.ofFunction merging 2 = .ok r ∧ r.LoopFree ∧
      merging.op? 8 = some (.call 1 []) ∧ b ∈ r.blocks ∧ r.Admitted merging 8 0 b.handle ∧
      r.pathCondition? merging b.handle 8 = some c ∧ c.holds 0 = false := by
  obtain ⟨r, read, ⟨-, -, call, -⟩, -⟩ := merging_evaluated
  obtain ⟨admitted, condition⟩ := merging_silent read
  obtain ⟨b, inside, join⟩ := merging_join read
  rw [← join] at admitted condition
  exact ⟨r, b, _, read, merging_loopFree read, call, inside, admitted, condition, by decide⟩

end ErrorContracts
