import ErrorContracts.Proofs.BlockFacts
import ErrorContracts.Proofs.Dependence
import ErrorContracts.Proofs.Expansion

/-!
# Marks in code that cannot be reached

The rules never ask whether a block can be reached.  What they ask for is a path condition, and it
needs a block that controls the marked one, directly or through others, and that compares a call with
a constant.  All controllers of a block that cannot be reached cannot be reached either.  So such a
block is marked only behind a check that is dead itself; and there it may be.
-/

namespace ErrorContracts

variable {σ : Type}

/-- The branch compares a call with a constant. -/
def Module.checksCall (m : Module) (t : Terminator) : Bool :=
  (m.comparison? t).any fun c => (m.relationOf? c).isSome && (Inference.checkedCall? m c).isSome

namespace Module

variable {m : Module} {target callee : Handle} {arguments : List Handle}

/-- A comparison that involves a call checks one. -/
theorem checkedCall?_of_involves {c : Comparison}
    (call : m.op? target = some (.call callee arguments)) (involved : m.involves target c = true) :
    (Inference.checkedCall? m c).isSome = true := by
  unfold Inference.checkedCall?
  rw [List.findSome?_isSome_iff]
  simp only [involves, Bool.or_eq_true, decide_eq_true_eq] at involved
  rcases involved with left | right
  · exact ⟨c.lhs, by simp, by rw [left, call]; rfl⟩
  · exact ⟨c.rhs, by simp, by rw [right, call]; rfl⟩

/-- A branch that compares no call with a constant says nothing of the result of a call. -/
theorem fact?_of_not_checksCall {t : Terminator} {outcome : Bool}
    (call : m.op? target = some (.call callee arguments)) (unchecked : m.checksCall t = false) :
    m.fact? target t outcome = none := by
  unfold fact?
  rw [Option.bind_eq_none_iff]
  intro c compared
  obtain ⟨compares, involved⟩ := Option.filter_eq_some_iff.1 compared
  have checked := checkedCall?_of_involves call involved
  have unrelated : m.relationOf? c = none := by
    simpa [checksCall, compares, checked] using unchecked
  rw [inducedFact?, unrelated]
  rfl

end Module

/-! ## Controllers that say nothing -/

/-- What the pending elements have and passes to the next ones, all explored elements have. -/
theorem explore_induction {α : Type} [DecidableEq α] {next : α → List α} {fresh pending : List α}
    (motive : α → Prop) (start : ∀ a ∈ pending, motive a)
    (step : ∀ a, motive a → ∀ b ∈ next a, motive b) : ∀ a ∈ explore next fresh pending, motive a := by
  fun_induction explore next fresh pending with
  | case1 fresh => simp
  | case2 fresh a pending isFresh ih =>
      obtain ⟨head, tail⟩ := List.forall_mem_cons.1 start
      refine List.forall_mem_cons.2 ⟨head, ih fun b listed => ?_⟩
      rcases List.mem_append.1 listed with here | later
      · exact step a head b here
      · exact tail b later
  | case3 fresh a pending taken ih => exact ih (List.forall_mem_cons.1 start).2

namespace Routine

variable {m : Module} {r : Routine} {target : Handle}

theorem Numbered.precedes_of_mem_allControllers (numbered : r.Numbered) {b : Handle} {d : Block}
    (controls : d ∈ r.allControllers b) : r.graph.Precedes d.handle b := by
  obtain ⟨n, explored, found⟩ := mem_allControllers.1 controls
  rw [handle_of_block? found]
  refine explore_induction (fun n => r.graph.Precedes n b) ?_ ?_ n explored
  · exact fun a among => numbered.precedes_of_mem_controllers among
  · exact fun a precedes e among => (numbered.precedes_of_mem_controllers among).trans precedes

end Routine

/-- A path condition inherits what the facts of all controllers have. -/
theorem Routine.pathCondition?_inherits {m : Module} {r : Routine} {b target : Handle}
    {p : Formula → Prop} (inherited : Formula.Inherited p)
    (own : ∀ d ∈ r.allControllers b, ∀ outcome, ∀ f ∈ m.fact? target d.terminator outcome, p f) :
    ∀ f ∈ pathCondition? m r b target, p f := by
  refine (conditionThrough_inherits (fun d => d ∈ r.allControllers b) inherited ?_ ?_ ?_ ?_
    .empty).1
  · intro d controls c compared outcome f induced
    refine own d controls outcome f ?_
    rwa [Module.fact?, compared]
  · exact fun d above e => mem_allControllers_of_controls above
  · exact fun d => mem_allControllers_of_direct
  · exact fun f member => by cases member

/-- Controllers that say nothing give no condition. -/
theorem Routine.pathCondition?_of_mute {m : Module} {r : Routine} {b target : Handle}
    (unheard : ∀ d ∈ r.allControllers b, ∀ outcome, m.fact? target d.terminator outcome = none) :
    pathCondition? m r b target = none := by
  have nothing : Formula.Inherited fun _ => False := by
    constructor
    · intro f? g? left right h both
      rw [Option.eq_none_iff_forall_not_mem.2 left, Option.eq_none_iff_forall_not_mem.2 right] at both
      cases both
    · intro fs none h joined
      rw [List.eq_nil_iff_forall_not_mem.2 none] at joined
      cases joined
  refine Option.eq_none_iff_forall_not_mem.2 (pathCondition?_inherits nothing ?_)
  intro d controls outcome f heard
  rw [unheard d controls outcome] at heard
  cases heard

/-- There is no condition on the result of a call behind branches that check none. -/
theorem Routine.pathCondition?_of_unchecked {m : Module} {r : Routine} {b target callee : Handle}
    {arguments : List Handle} (call : m.op? target = some (.call callee arguments))
    (unchecked : ∀ d ∈ r.allControllers b, m.checksCall d.terminator = false) :
    pathCondition? m r b target = none :=
  pathCondition?_of_mute fun d controls _ =>
    Module.fact?_of_not_checksCall call (unchecked d controls)

/-! ## What a mark has been judged by -/

/-- The block has a condition on the result of a call. -/
def Routine.Judged (m : Module) (r : Routine) (b : Block) : Prop :=
  ∃ target callee arguments, m.op? target = some (.call callee arguments) ∧
    (pathCondition? m r b.handle target).isSome = true

namespace Run

variable {ctx : Context σ} {routines : List Routine} {a b : Run σ}

/-- A run keeps path conditions only, and marks only blocks that have one on a call. -/
structure Judged (ctx : Context σ) (routines : List Routine) (a : Run σ) : Prop where
  conditions : ∀ r ∈ routines, ∀ h target known,
    a.conditions.get? ⟨r.handle, h, target⟩ = some known →
    known = Routine.pathCondition? ctx.program r h target
  marks : ∀ h fact, a.summary.factOf? h = some fact →
    ∃ r ∈ routines, ∃ block ∈ r.blocks, block.handle = h ∧ r.Judged ctx.program block

/-- A block may be marked by a check of which a condition is kept. -/
theorem Judged.mark (judged : a.Judged ctx routines) {r : Routine} {block : Block} {fact : Fact}
    (routine : r ∈ routines) (inside : block ∈ r.blocks) {t : Terminator} {target : Handle}
    {isError condition : Formula} (checked : checkOf? ctx a.summary t = some (target, isError))
    (kept : a.conditions.get? ⟨r.handle, block.handle, target⟩ = some (some condition))
    (facts : b.summary.facts = (a.summary.setFact block.handle fact).facts)
    (conditions : b.conditions = a.conditions) : b.Judged ctx routines where
  conditions r' listed h target' known found :=
    judged.conditions r' listed h target' known (conditions ▸ found)
  marks := by
    intro h found marked
    rw [Summary.factOf?, facts, ← Summary.factOf?, Summary.factOf?_setFact] at marked
    split at marked
    · rename_i same
      obtain ⟨callee, arguments, call⟩ := call_of_checkOf? checked
      have condition := judged.conditions r routine _ _ _ kept
      exact ⟨r, routine, block, inside, same.symm, target, callee, arguments, call,
        condition ▸ rfl⟩
    · exact judged.marks h found marked

theorem Move.judged (distinct : Routine.Distinct routines) (move : Move ctx routines a b)
    (judged : a.Judged ctx routines) : b.Judged ctx routines := by
  cases move with
  | keep routine inside fresh =>
      refine ⟨fun r listed h target known found => ?_, judged.marks⟩
      rw [SortedMap.get?_insert] at found
      split at found
      · rename_i same
        obtain ⟨handle, rfl, rfl⟩ := Place.mk.inj same
        obtain rfl := distinct.routine r listed _ routine handle
        exact (Option.some.inj found).symm
      · exact judged.conditions r listed h target known found
  | succeed routine inside behind constant checked kept refuted =>
      exact judged.mark routine inside checked kept rfl rfl
  | withdraw routine inside evidence described fits =>
      exact judged.mark routine inside evidence.checked evidence.kept (Summary.facts_retract _ _ _)
        rfl
  | report routine inside evidence described unfit =>
      exact judged.mark routine inside evidence.checked evidence.kept rfl rfl
  | _ => exact ⟨judged.conditions, judged.marks⟩

theorem Moves.judged (distinct : Routine.Distinct routines) (moves : Moves ctx routines a b)
    (judged : a.Judged ctx routines) : b.Judged ctx routines := by
  induction moves with
  | refl => exact judged
  | tail _ move ih => exact move.judged distinct ih

theorem judged_initial (oracle : σ) : (initial oracle).Judged ctx routines where
  conditions r _ h target known found := by cases found
  marks h fact marked := by cases marked

/--
However many rounds are made from an empty summary, with whatever oracle and classifier, a block that
cannot be reached from the entry is not marked, if none of the blocks that it is control dependent on,
directly or through others, and that cannot be reached either, branches on a comparison of a call with
a constant.
-/
theorem unreachable_unmarked {edits : List Edit} (built : ctx.program = Module.build {} edits)
    (read : ∀ r ∈ routines, Routine.ofFunction ctx.program r.handle = .ok r) (oracle : σ) (n : Nat)
    {r : Routine} (routine : r ∈ routines) {block : Block} (inside : block ∈ r.blocks)
    (unreachable : ¬r.graph.Reaches r.graph.entry block.handle)
    (unchecked : ∀ d ∈ r.allControllers block.handle, ¬r.graph.Reaches r.graph.entry d.handle →
      ctx.program.checksCall d.terminator = false) :
    ((initial oracle).after ctx routines n).summary.factOf? block.handle = none := by
  have distinct := Routine.distinct_of_read built read
  have numbered : r.Numbered := Routine.numbered_of_read (built ▸ read r routine)
  have dead : ∀ d ∈ r.allControllers block.handle, ctx.program.checksCall d.terminator = false := by
    intro d controls
    refine unchecked d controls fun live => unreachable ?_
    obtain ⟨s, edge, onward⟩ := numbered.precedes_of_mem_allControllers controls
    exact live.trans (.step edge onward)
  cases marked : ((initial oracle).after ctx routines n).summary.factOf? block.handle with
  | none => rfl
  | some fact =>
      have judged := (moves_rounds ctx routines (initial oracle) n).judged distinct
        (judged_initial oracle)
      obtain ⟨r', routine', block', inside', same, target, callee, arguments, call, known⟩ :=
        judged.marks _ _ marked
      obtain ⟨rfl, rfl⟩ := distinct.block r routine r' routine' block inside block' inside' same.symm
      rw [Routine.pathCondition?_of_unchecked call dead] at known
      cases known

end Run

/-! ## A dead check -/

/--
A function that returns at once.  Behind that, one part cannot be reached that branches on a call of
`check`, and one that branches on an argument.
-/
def deadChecks : Context (Recall Nat) where
  program := Module.build {}
    ([.external "check" .i32, .function "f" .i32 [(some "x", .i32)], .block 2 "entry",
      .ret (some 4) (some (.literal 0))] ++
      checkedEntry 2 1 7 ++
      [.ret (some 8) (some (.literal (-1))), .ret (some 9) (some (.literal 0)), .block 2 "idle",
        .block 2 "low", .block 2 "high", .compare (some 16) .slt (.value 3) (.literal 0) "d",
        .branch (some 16) (.value 19) 17 18, .ret (some 17) (some (.literal (-1))),
        .ret (some 18) (some (.literal 0))])
  dependencies := [("check", [.reports ⟨∅, .single .integer (-1)⟩])]
  oracle := Oracle.exact.caching

def deadRoutines : List Routine := (routinesOf deadChecks.program [2]).toOption.getD []

theorem deadChecks_read : routinesOf deadChecks.program [2] = .ok deadRoutines :=
  eq_ok_of_isOk [] (by decide +kernel)

/-- The block 8 is controlled by a dead check, the block 17 by a dead branch on something else. -/
theorem deadChecks_blocks : ∃ r ∈ deadRoutines,
    (∃ b ∈ r.blocks, b.handle = 8 ∧ b.handle ∉ r.graph.reversePostorder) ∧
      ∃ b ∈ r.blocks, b.handle = 17 ∧ b.handle ∉ r.graph.reversePostorder ∧
        r.allControllers b.handle ≠ [] ∧
        ∀ d ∈ r.allControllers b.handle, deadChecks.program.checksCall d.terminator = false := by
  have found : (deadRoutines.any fun r =>
      (r.blocks.any fun b => b.handle = 8 && b.handle ∉ r.graph.reversePostorder) &&
        r.blocks.any fun b => b.handle = 17 && b.handle ∉ r.graph.reversePostorder &&
          !(r.allControllers b.handle).isEmpty &&
          (r.allControllers b.handle).all fun d => !deadChecks.program.checksCall d.terminator) =
      true := by
    cbv
  simpa [and_assoc] using found

/-- The failing side of the dead check is an error block. -/
theorem unreachable_marked_deadChecks :
    deadChecks.oracle.IsExact (.fresh 0) ∧ ∃ r ∈ deadRoutines, ∃ b ∈ r.blocks,
      ¬r.graph.Reaches r.graph.entry b.handle ∧
        ((Run.initial (.fresh 0)).after deadChecks deadRoutines 1).summary.factOf? b.handle =
          some (.error ∅) := by
  obtain ⟨r, listed, ⟨b, inside, place, unlisted⟩, -⟩ := deadChecks_blocks
  have marked : ((Run.initial (.fresh 0)).after deadChecks deadRoutines 1).summary.factOf? 8 =
      some (.error ∅) := by
    cbv
  refine ⟨(Oracle.exact_isExact 0).caching, r, listed, b, inside, ?_, by rw [place, marked]⟩
  exact fun reached => unlisted (Graph.mem_reversePostorder.2 reached)

/-- A side of the other branch stays unmarked in every round. -/
theorem unreachable_unmarked_deadChecks :
    ∃ r ∈ deadRoutines, ∃ b ∈ r.blocks, r.allControllers b.handle ≠ [] ∧
      ∀ n, ((Run.initial (.fresh 0)).after deadChecks deadRoutines n).summary.factOf? b.handle =
        none := by
  obtain ⟨r, listed, -, b, inside, -, unlisted, controlled, unchecked⟩ := deadChecks_blocks
  have built : ∃ edits, deadChecks.program = Module.build {} edits := by
    dsimp only [deadChecks]
    exact ⟨_, rfl⟩
  obtain ⟨edits, built⟩ := built
  refine ⟨r, listed, b, inside, controlled, fun n => ?_⟩
  exact Run.unreachable_unmarked built (routinesOf_ok deadChecks_read).2 _ n listed inside
    (fun reached => unlisted (Graph.mem_reversePostorder.2 reached)) fun d controls _ =>
      unchecked d controls

end ErrorContracts
