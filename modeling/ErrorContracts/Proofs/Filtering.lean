import ErrorContracts.Proofs.Admission
import ErrorContracts.Proofs.Convergence
import ErrorContracts.Proofs.Provenance

/-!
# Codes that a block passes on

A block that returns the result of a call passes on the integer codes of the functions that the call
may reach, each code by itself: it must be permitted by the condition on the result under which the
block is reached.  The functions are tried one after the other, and each is looked up in the summary
that the ones before it have changed.  The order shows only where the function of the block is among
them.  What it has got by then was permitted already, so it is asked for nothing new.
-/

namespace ErrorContracts

variable {σ : Type} {ctx : Context σ} {r : Routine} {b : Block} {call callee : Handle}

namespace Findings

variable {start s : Findings} {tried : List Handle} {c : Int}

/-- One candidate adds the codes that it exports and that the condition permits. -/
theorem hasCode_forward_iff (unclassified : s.summary.factOf? b.handle = none) :
    (s.apply r.handle (forwardChanges ctx r b call callee s)).summary.HasCode r.handle .integer c ↔
      s.summary.HasCode r.handle .integer c ∨
        (∀ condition ∈ Routine.pathCondition? ctx.program r b.handle call,
          condition.holds c = true) ∧ Exports ctx s.summary callee c := by
  constructor
  · intro has
    rcases hasCode_apply has with old | ⟨-, adds⟩
    · exact .inl old
    · exact .inr (exports_of_adds adds).2
  · rintro (old | ⟨permits, contract, known, integer, returned⟩)
    · exact hasCode_apply_add (adds_forwardChanges ctx) old
    · have passes := mem_permitted.2 ⟨returned, permits⟩
      have some_code : (permitted contract.returns.codes
          (Routine.pathCondition? ctx.program r b.handle call)).isEmpty = false := by
        rw [Bool.eq_false_iff]
        exact fun none => SortedSet.isEmpty_iff.1 none c passes
      have isInteger : contract.returns.isInteger = true := decide_eq_true integer
      have adds : forwardChanges ctx r b call callee s =
          [.add ⟨contract.actions, ⟨.integer, _, some_code⟩, [⟨call, "transitive error"⟩]⟩] := by
        simp [forwardChanges, unclassified, known, isInteger, Returns.ofSet?, some_code]
      rw [adds]
      refine ⟨⟨contract.actions, ⟨.integer, _, some_code⟩, [⟨call, "transitive error"⟩]⟩, ?_, rfl,
        passes⟩
      rw [descriptorsOf_apply, if_pos rfl]
      exact SortedSet.mem_insert.2 (.inl rfl)

/-- What there is after some candidates have been tried, compared with the start. -/
structure Passed (ctx : Context σ) (r : Routine) (b : Block) (call : Handle) (start : Findings)
    (tried : List Handle) (s : Findings) : Prop where
  facts : s.summary.facts = start.summary.facts
  others : ∀ g, g ≠ r.handle → s.summary.descriptorsOf g = start.summary.descriptorsOf g
  kept : ∀ d ∈ start.summary.descriptorsOf r.handle, d ∈ s.summary.descriptorsOf r.handle
  codes : ∀ c, s.summary.HasCode r.handle .integer c ↔
    start.summary.HasCode r.handle .integer c ∨
      (∀ condition ∈ Routine.pathCondition? ctx.program r b.handle call,
        condition.holds c = true) ∧ ∃ g ∈ tried, Exports ctx start.summary g c

namespace Passed

theorem refl (ctx : Context σ) (r : Routine) (b : Block) (call : Handle) (start : Findings) :
    Passed ctx r b call start [] start where
  facts := rfl
  others _ _ := rfl
  kept _ listed := listed
  codes c := by simp

/-- By the time a candidate is tried, it exports nothing new but codes of the function itself. -/
theorem exports (passed : Passed ctx r b call start tried s) (g : Handle) :
    (Exports ctx start.summary g c → Exports ctx s.summary g c) ∧
      (Exports ctx s.summary g c → Exports ctx start.summary g c ∨
        s.summary.HasCode r.handle .integer c) := by
  by_cases same : g = r.handle
  · subst same
    refine ⟨fun exported => exported.mono fun has => (passed.codes c).2 (.inl has), ?_⟩
    intro exported
    rcases exports_iff.1 exported with ⟨-, has⟩ | declared
    · exact .inr has
    · exact .inl (exports_iff.2 (.inr declared))
  · have unchanged : s.summary.HasCode g .integer c ↔ start.summary.HasCode g .integer c := by
      rw [Summary.HasCode, Summary.HasCode, passed.others g same]
    exact ⟨fun exported => exported.mono unchanged.2,
      fun exported => .inl (exported.mono unchanged.1)⟩

/-- Trying one more candidate. -/
theorem step (passed : Passed ctx r b call start tried s)
    (unclassified : start.summary.factOf? b.handle = none) (g : Handle) :
    Passed ctx r b call start (tried ++ [g])
      (s.apply r.handle (forwardChanges ctx r b call g s)) where
  facts := (facts_apply_add (adds_forwardChanges ctx)).trans passed.facts
  others k other := by rw [descriptorsOf_apply, if_neg other, passed.others k other]
  kept d listed := mem_descriptorsOf_apply_add (adds_forwardChanges ctx) (passed.kept d listed)
  codes c := by
    have unclassified : s.summary.factOf? b.handle = none := by
      rwa [Summary.factOf?, passed.facts]
    obtain ⟨onward, back⟩ := passed.exports (c := c) g
    have earlier : s.summary.HasCode r.handle .integer c →
        start.summary.HasCode r.handle .integer c ∨
          (∀ condition ∈ Routine.pathCondition? ctx.program r b.handle call,
            condition.holds c = true) ∧ ∃ k ∈ tried ++ [g], Exports ctx start.summary k c := by
      intro has
      refine ((passed.codes c).1 has).imp_right ?_
      rintro ⟨permits, k, listed, exported⟩
      exact ⟨permits, k, List.mem_append_left _ listed, exported⟩
    rw [hasCode_forward_iff unclassified]
    constructor
    · rintro (old | ⟨permits, exported⟩)
      · exact earlier old
      · rcases back exported with exported | own
        · exact .inr ⟨permits, g, by simp, exported⟩
        · exact earlier own
    · rintro (old | ⟨permits, k, listed, exported⟩)
      · exact .inl ((passed.codes c).2 (.inl old))
      · rcases List.mem_append.1 listed with before | last
        · exact .inl ((passed.codes c).2 (.inr ⟨permits, k, before, exported⟩))
        · obtain rfl := List.mem_singleton.1 last
          exact .inr ⟨permits, onward exported⟩

/-- Trying candidates one after the other. -/
theorem perform (passed : Passed ctx r b call start tried s)
    (unclassified : start.summary.factOf? b.handle = none) (candidates : List Handle) :
    Passed ctx r b call start (tried ++ candidates)
      (s.perform r.handle (candidates.map (forwardChanges ctx r b call))) := by
  induction candidates generalizing s tried with
  | nil =>
      rw [List.append_nil]
      exact passed
  | cons g candidates ih =>
      have rest := ih (passed.step unclassified g)
      rwa [List.append_assoc] at rest

end Passed

end Findings

namespace Inference

/--
With an exact oracle, a block without a fact that returns the result of a call leaves all facts, the
descriptors of other functions and those that its own function has.  The function then has, beside
its integer codes, exactly those that one of the candidates exported at the start and that the
condition of the block, if there is one, holds of.
-/
theorem forwardError_filters {f : Handle}
    (read : Routine.ofFunction ctx.program f = .ok r) {a : Run σ} (sound : a.Sound ctx)
    (unclassified : a.summary.factOf? b.handle = none)
    (returned : (r.blockReturn? b).map ctx.program.ignoreCasts = some call)
    {arguments : List Handle} (calls : ctx.program.op? call = some (.call callee arguments)) :
    ∃ a', (forwardError ctx r b).run a = (.ok (), a') ∧
      a'.summary.facts = a.summary.facts ∧
      (∀ g, g ≠ f → a'.summary.descriptorsOf g = a.summary.descriptorsOf g) ∧
      (∀ d ∈ a.summary.descriptorsOf f, d ∈ a'.summary.descriptorsOf f) ∧
      ∀ c, a'.summary.HasCode f .integer c ↔
        a.summary.HasCode f .integer c ∨
          (∀ condition ∈ Routine.pathCondition? ctx.program r b.handle call,
            condition.holds c = true) ∧
          ∃ g ∈ callTargets ctx.program ctx.indirect callee, Exports ctx a.summary g c := by
  obtain rfl := Routine.handle_of_read read
  have candidates : forwardPhase ctx r b =
      (callTargets ctx.program ctx.indirect callee).map (forwardChanges ctx r b call) := by
    simp [forwardPhase, returnedCall?, returned, calls]
  obtain ⟨a', ran, -, found⟩ := yields_forwardError read b sound
  have passed := (Findings.Passed.refl ctx r b call a.findings).perform unclassified
    (callTargets ctx.program ctx.indirect callee)
  rw [← candidates, ← found] at passed
  exact ⟨a', ran, passed.facts, passed.others, passed.kept, passed.codes⟩

end Inference

/-! ## A function among its own callees -/

/-- A function that returns the result of a call to `read` or itself, if the result is negative. -/
def returning : Context Nat where
  program := Module.build {}
    [.external "read" .i32,
      .function "f" .i32 [(some "p", .ptr)],
      .block 2 "entry", .block 2 "negative", .block 2 "rest",
      .call (some 4) 3 [] "t" none,
      .compare (some 4) .slt (.value 7) (.literal 0) "c", .branch (some 4) (.value 8) 5 6,
      .ret (some 5) (some (.value 7)),
      .ret (some 6) (some (.literal 0))]
  dependencies :=
    [("read", [.reports ⟨∅, ⟨.integer, SortedSet.ofList [-1, 5, 4294967290], rfl⟩⟩])]
  indirect := [(3, [1, 2])]
  oracle := .exact

/-- The function has the code 3 already. -/
def returningStart : Run Nat :=
  { Run.initial 0 with
    summary := ({} : Summary).addDescriptor 2 ⟨∅, .single .integer 3, []⟩ }

theorem returning_read :
    ∃ r b, Routine.ofFunction returning.program 2 = .ok r ∧ b ∈ r.blocks ∧ b.handle = 5 ∧
      (r.blockReturn? b).map returning.program.ignoreCasts = some 7 ∧
      Routine.pathCondition? returning.program r 5 7 = some (.relation .lt .result (.int 0)) := by
  have checked : (Routine.ofFunction returning.program 2).toOption.any (fun r =>
      Routine.pathCondition? returning.program r 5 7 = some (.relation .lt .result (.int 0)) ∧
        ∃ b ∈ r.blocks, b.handle = 5 ∧
          (r.blockReturn? b).map returning.program.ignoreCasts = some 7) = true := by
    cbv
  obtain ⟨r, read, facts⟩ := Routine.exists_read checked
  obtain ⟨condition, b, inside, place, returned⟩ := of_decide_eq_true facts
  exact ⟨r, b, read, inside, place, returned, condition⟩

/-- The negative codes are passed on, the one that is negative as a word too, and 3 stays. -/
theorem forwardError_filters_returning :
    returning.oracle.IsExact 0 ∧ returningStart.Sound returning ∧
      callTargets returning.program returning.indirect 3 = [1, 2] ∧
      ∃ r b a', Routine.ofFunction returning.program 2 = .ok r ∧ b ∈ r.blocks ∧
        (r.blockReturn? b).map returning.program.ignoreCasts = some 7 ∧
        (Inference.forwardError returning r b).run returningStart = (.ok (), a') ∧
        a'.summary.HasCode 2 .integer (-1) ∧ a'.summary.HasCode 2 .integer 4294967290 ∧
        a'.summary.HasCode 2 .integer 3 ∧ ¬a'.summary.HasCode 2 .integer 5 := by
  obtain ⟨r, b, read, inside, place, returned, condition⟩ := returning_read
  have exact : returning.oracle.IsExact 0 := Oracle.exact_isExact 0
  have sound : returningStart.Sound returning := by
    refine ⟨?_, exact⟩
    intro r b target known _ found
    cases found
  have targets : callTargets returning.program returning.indirect 3 = [1, 2] := by decide +kernel
  have calls : returning.program.op? 7 = some (.call 3 []) := by decide +kernel
  obtain ⟨a', ran, -, -, -, codes⟩ :=
    Inference.forwardError_filters read sound (b := b) rfl returned calls
  rw [place, condition, targets] at codes
  have passed : ∀ c ∈ [-1, 4294967290], a'.summary.HasCode 2 .integer c := by
    intro c listed
    have declared : Exports returning returningStart.summary 1 c := by
      refine ⟨⟨∅, ⟨.integer, SortedSet.ofList [-1, 5, 4294967290], rfl⟩⟩, by decide +kernel, rfl, ?_⟩
      exact SortedSet.mem_ofList.2 (by grind)
    have negative : ∀ c ∈ [-1, 4294967290],
        (Formula.relation .lt .result (.int 0)).holds c = true := by decide
    refine (codes c).2 (.inr ⟨fun f known => ?_, 1, by simp, declared⟩)
    rw [← Option.some.inj known]
    exact negative c listed
  refine ⟨exact, sound, targets, r, b, a', read, inside, returned, ran, passed _ (by simp),
    passed _ (by simp), (codes 3).2 (.inl ?_), fun has => ?_⟩
  · exact ⟨_, SortedSet.mem_insert.2 (.inl rfl), rfl, SortedSet.mem_singleton.2 rfl⟩
  · rcases (codes 5).1 has with ⟨d, listed, -, member⟩ | ⟨permits, -⟩
    · rcases SortedSet.mem_insert.1 listed with rfl | none
      · exact absurd (SortedSet.mem_singleton.1 member) (by decide)
      · cases none
    · exact absurd (permits _ rfl) (by decide)

end ErrorContracts
