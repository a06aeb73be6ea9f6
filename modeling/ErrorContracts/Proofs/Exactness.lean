import ErrorContracts.Proofs.Building
import ErrorContracts.Proofs.Changes
import ErrorContracts.Proofs.Decision
import ErrorContracts.Proofs.Termination

/-!
# Rounds with an exact oracle

The answers of an exact oracle are what its questions are worth, and the path conditions and answers
that a run keeps are those that it would find again.  So each step of a round, from a sound run, does
to its findings what the deeds of the rules say, and a run of some rounds is the iteration of a
function.
-/

namespace ErrorContracts

variable {σ α β : Type}

/-! ## Exact oracles and sound runs -/

/-- From a state on the oracle decides every complete formula, whatever it is asked besides. -/
def Oracle.IsExact (oracle : Oracle σ) (s : σ) : Prop :=
  oracle.Replies s fun f answer => f.Complete →
    (f.HasSolution → answer = .ok .sat) ∧ (¬f.HasSolution → answer = .ok .unsat)

/-- The right verdict on a complete formula. -/
def Formula.rightVerdict (f : Formula) : Verdict := if f.satisfiable then .sat else .unsat

theorem Formula.definite?_rightVerdict (f : Formula) :
    f.rightVerdict.definite? = some f.satisfiable := by
  unfold rightVerdict
  cases f.satisfiable <;> rfl

namespace Oracle

theorem IsExact.ask_eq {oracle : Oracle σ} {s : σ} (exact : oracle.IsExact s) {f : Formula}
    (complete : f.Complete) : (oracle.ask f s).1 = .ok f.rightVerdict := by
  obtain ⟨yes, no⟩ := exact [] f complete
  unfold Formula.rightVerdict
  split
  · rename_i satisfiable
    exact yes (Formula.satisfiable_iff_hasSolution.1 satisfiable)
  · rename_i refuted
    exact no fun solution => refuted (Formula.satisfiable_iff_hasSolution.2 solution)

theorem IsExact.after {oracle : Oracle σ} {s : σ} (exact : oracle.IsExact s)
    (asked : List Formula) : oracle.IsExact (oracle.after s asked) :=
  Replies.after exact asked

theorem IsExact.answers {oracle : Oracle σ} {s : σ} (exact : oracle.IsExact s) :
    oracle.Answers s :=
  fun asked _ complete => ⟨_, (exact.after asked).ask_eq complete⟩

/-- An oracle that gives the verdict of each formula is exact from every state on. -/
theorem isExact_of_verdict {oracle : Oracle σ} (gives : ∀ f s, (oracle.ask f s).1 = f.verdict)
    (s : σ) : oracle.IsExact s := by
  intro asked f complete
  rw [gives, Formula.verdict, Formula.obstacle_eq_none_iff.2 complete]
  constructor
  · intro solution
    exact congrArg _ (if_pos (Formula.satisfiable_iff_hasSolution.2 solution))
  · intro none
    exact congrArg _ (if_neg fun yes => none (Formula.satisfiable_iff_hasSolution.1 yes))

theorem exact_isExact (n : Nat) : Oracle.exact.IsExact n := isExact_of_verdict (fun _ _ => rfl) n

end Oracle

/-- What a run keeps is what it would find again, and the oracle is exact from here on. -/
structure Run.Sound (ctx : Context σ) (a : Run σ) : Prop where
  conditions : ∀ {r b target known}, Routine.ofFunction ctx.program r.handle = .ok r →
    a.conditions.get? ⟨r.handle, b, target⟩ = some known →
    known = Routine.pathCondition? ctx.program r b target
  memory : ctx.oracle.IsExact a.memory

/-! ## Steps as functions of the findings -/

namespace Inference

/-- The step succeeds with the value `v`, and leads to a sound run with the findings `s`. -/
def Yields (ctx : Context σ) (p : Inference σ α) (a : Run σ) (v : α) (s : Findings) : Prop :=
  ∃ b, p.run a = (.ok v, b) ∧ b.Sound ctx ∧ b.findings = s

section

variable {ctx : Context σ} {a : Run σ}

namespace Yields

theorem pure (sound : a.Sound ctx) (v : α) : Yields ctx (pure v) a v a.findings :=
  ⟨a, rfl, sound, rfl⟩

theorem bind {p : Inference σ α} {next : α → Inference σ β} {v : α} {w : β} {s t : Findings}
    (first : Yields ctx p a v s)
    (second : ∀ b, b.Sound ctx → b.findings = s → Yields ctx (next v) b w t) :
    Yields ctx (p >>= next) a w t := by
  obtain ⟨b, done, sound, found⟩ := first
  obtain ⟨c, done', rest⟩ := second b sound found
  exact ⟨c, by rw [run_bind_of_ok done, done'], rest⟩

theorem reading {next : Run σ → Inference σ β} {w : β} {s : Findings}
    (rest : Yields ctx (next a) a w s) : Yields ctx (get >>= next) a w s :=
  rest

/-- A step that leaves the oracle and the conditions alone. -/
theorem of_run {p : Inference σ α} {b : Run σ} {v : α} (done : p.run a = (.ok v, b))
    (sound : a.Sound ctx) (conditions : b.conditions = a.conditions) (memory : b.memory = a.memory) :
    Yields ctx p a v b.findings := by
  refine ⟨b, done, ⟨fun read known => ?_, by rw [memory]; exact sound.memory⟩, rfl⟩
  rw [conditions] at known
  exact sound.conditions read known

/-- A loop each of whose turns is a function of the findings, where these stay as `inv` says. -/
theorem forM_of_inv {f : α → Inference σ Unit} {step : Findings → α → Findings} {l : List α}
    (inv : Findings → Prop) (keeps : ∀ v ∈ l, ∀ s, inv s → inv (step s v))
    (turn : ∀ v ∈ l, ∀ a, a.Sound ctx → inv a.findings → Yields ctx (f v) a () (step a.findings v))
    (sound : a.Sound ctx) (start : inv a.findings) :
    Yields ctx (l.forM f) a () (l.foldl step a.findings) := by
  induction l generalizing a with
  | nil => exact .pure sound ()
  | cons v l ih =>
      obtain ⟨head, tail⟩ := List.forall_mem_cons.1 turn
      obtain ⟨keepsHead, keepsTail⟩ := List.forall_mem_cons.1 keeps
      refine .bind (head a sound start) fun b sound' found => ?_
      have rest := ih keepsTail tail sound' (found ▸ keepsHead _ start)
      rwa [found] at rest

theorem forM {f : α → Inference σ Unit} {step : Findings → α → Findings} {l : List α}
    (turn : ∀ v ∈ l, ∀ a, a.Sound ctx → Yields ctx (f v) a () (step a.findings v))
    (sound : a.Sound ctx) : Yields ctx (l.forM f) a () (l.foldl step a.findings) :=
  forM_of_inv (fun _ => True) (fun _ _ _ _ => trivial)
    (fun v hv a sound _ => turn v hv a sound) sound trivial

theorem filterM {f : α → Inference σ Bool} {l : List α} (test : α → Bool)
    (turn : ∀ v ∈ l, ∀ a, a.Sound ctx → Yields ctx (f v) a (test v) a.findings)
    (sound : a.Sound ctx) : Yields ctx (l.filterM f) a (l.filter test) a.findings := by
  have collected : ∀ (kept : List α) (a : Run σ), a.Sound ctx →
      Yields ctx (l.filterAuxM f kept) a ((l.filter test).reverse ++ kept) a.findings := by
    induction l with
    | nil => exact fun kept a sound => .pure sound kept
    | cons v l ih =>
        intro kept a sound
        obtain ⟨head, tail⟩ := List.forall_mem_cons.1 turn
        refine .bind (head a sound) fun b sound' found => ?_
        have rest := ih tail (cond (test v) (v :: kept) kept) b sound'
        rw [found] at rest
        cases kept_v : test v with
        | true => simpa [kept_v] using rest
        | false => simpa [kept_v] using rest
  refine .bind (collected [] a sound) fun b sound' found => ?_
  have last := Yields.pure sound' ((l.filter test).reverse ++ []).reverse
  rw [found] at last
  simpa using last

end Yields

/-! ## What the questions yield -/

theorem yields_satisfiable? {f : Formula} (complete : f.Complete) (sound : a.Sound ctx) :
    Yields ctx (satisfiable? ctx f) a (some f.satisfiable) a.findings := by
  have ran := run_satisfiable? ctx f a
  have answered := sound.memory.ask_eq complete
  have later := sound.memory.after [f]
  cases asked : ctx.oracle.ask f a.memory with
  | mk answer memory =>
      rw [asked] at ran answered
      subst answered
      rw [← f.definite?_rightVerdict]
      refine ⟨_, ran, ⟨sound.conditions, ?_⟩, rfl⟩
      rwa [Oracle.after, List.foldl_cons, asked] at later

theorem yields_condition? {r : Routine} (read : Routine.ofFunction ctx.program r.handle = .ok r)
    (b target : Handle) (sound : a.Sound ctx) :
    Yields ctx (condition? ctx r b target) a (Routine.pathCondition? ctx.program r b target)
      a.findings := by
  have ran := run_condition? ctx r b target a
  cases known : a.conditions.get? ⟨r.handle, b, target⟩ with
  | some condition =>
      rw [known] at ran
      rw [← sound.conditions read known]
      exact ⟨a, ran, sound, rfl⟩
  | none =>
      rw [known] at ran
      refine ⟨_, ran, ⟨fun {r' b' target' condition} read' kept => ?_, sound.memory⟩, rfl⟩
      rw [SortedMap.get?_insert] at kept
      split at kept
      · rename_i same
        simp only [Place.mk.injEq] at same
        obtain ⟨handle, rfl, rfl⟩ := same
        rw [handle, read] at read'
        cases read'
        exact (Option.some.inj kept).symm
      · exact sound.conditions read' kept

theorem yields_sharedCodes? (f : Handle) (callees : List Handle) (call callee : Handle)
    (sound : a.Sound ctx) :
    Yields ctx (sharedCodes? ctx callees call callee) a (agreedCodes? ctx a.summary callees)
      (a.findings.apply f (candidateNotes ctx a.summary callees call callee)) := by
  unfold sharedCodes? agreedCodes? candidateNotes
  simp only [listedCodes?_eq_ok, ofContract_ok, pure_bind]
  refine .reading ?_
  split
  · rename_i missing
    rw [missing]
    exact .pure sound none
  · rename_i missing
    rw [missing]
    exact .pure sound none
  · rename_i first others listed
    rw [listed]
    dsimp only
    split
    · exact .pure sound (some first)
    · split
      · exact ⟨_, rfl, ⟨sound.conditions, sound.memory⟩, rfl⟩
      · exact .pure sound none

theorem yields_errorCheck? (f : Handle) (t : Terminator) (sound : a.Sound ctx) :
    Yields ctx (errorCheck? ctx t) a (checkOf? ctx a.summary t)
      (a.findings.apply f (checkNotes ctx a.summary t)) := by
  unfold errorCheck? checkOf? checkNotes
  split
  · rename_i missing
    rw [missing]
    exact .pure sound none
  · rename_i call callee found
    rw [found]
    refine .bind (yields_sharedCodes? f _ call callee sound) fun b sound' noted => ?_
    rw [← noted]
    dsimp only [Option.bind_some]
    split
    · rename_i missing
      rw [missing]
      exact .pure sound' none
    · rename_i codes agreed
      rw [agreed]
      exact .pure sound' _

/-! ## What the rules yield -/

theorem yields_addError (f : Handle) (d : Descriptor) (sound : a.Sound ctx) :
    Yields ctx (addError f d) a () (a.findings.addError f d) :=
  .of_run (run_addError f d a) sound rfl rfl

theorem yields_classify (r : Routine) (b : Block) (taken : SortedSet Handle) (d : Descriptor)
    (sound : a.Sound ctx) :
    Yields ctx (classify r b d taken) a ()
      (a.findings.apply r.handle
        (if a.knowledge.fitsSuccess r.handle d then [.withdraw b.handle d.returns.codes]
        else [.report b.handle taken d])) := by
  refine ⟨_, run_classify r b d taken a, ?_⟩
  split
  · exact ⟨⟨sound.conditions, sound.memory⟩, rfl⟩
  · exact ⟨⟨sound.conditions, sound.memory⟩, rfl⟩

section Rules

variable {r : Routine} (read : Routine.ofFunction ctx.program r.handle = .ok r)

include read

/-- A rule that looks for a check and goes on with the answer whether an error passes it. -/
theorem yields_check (b : Block) (t : Terminator) (body : Handle → Option Bool → Inference σ Unit)
    (changes : Handle → Bool → List Change)
    (turn : ∀ target answer c, c.Sound ctx → c.knowledge = a.knowledge →
      Yields ctx (body target (some answer)) c () (c.findings.apply r.handle (changes target answer)))
    (sound : a.Sound ctx) :
    Yields ctx (do
        match ← errorCheck? ctx t with
        | none => return
        | some (target, isError) =>
            match ← condition? ctx r b.handle target with
            | none => return
            | some facts => body target (← satisfiable? ctx (Formula.conjoin [isError, facts])))
      a ()
      (a.findings.apply r.handle (checkNotes ctx a.summary t ++
        match question? ctx a.summary r b t with
        | some (target, question) => changes target question.satisfiable
        | none => [])) := by
  refine .bind (yields_errorCheck? r.handle t sound) fun b₁ sound₁ noted => ?_
  obtain ⟨_, logged⟩ := apply_checkNotes ctx r.handle a.findings a.summary t
  rw [Findings.apply_append, ← noted]
  rw [logged] at noted
  unfold question?
  cases checked : checkOf? ctx a.summary t with
  | none => exact .pure sound₁ ()
  | some check =>
      obtain ⟨target, isError⟩ := check
      refine .bind (yields_condition? read b.handle target sound₁) fun b₂ sound₂ found₂ => ?_
      rw [← found₂]
      dsimp only [Option.bind_some]
      cases known : Routine.pathCondition? ctx.program r b.handle target with
      | none => exact .pure sound₂ ()
      | some facts =>
          have whole : (Formula.conjoin [isError, facts]).Complete := by
            refine Formula.complete_conjoin ?_
            simpa using And.intro (complete_of_checkOf? checked)
              (Routine.complete_pathCondition? known)
          refine .bind (yields_satisfiable? whole sound₂) fun b₃ sound₃ found₃ => ?_
          rw [← found₃]
          refine turn target _ b₃ sound₃ ?_
          exact congrArg Findings.knowledge (found₃.trans (found₂.trans noted))

theorem yields_reportsSuccess (b : Block) (sound : a.Sound ctx) :
    Yields ctx (reportsSuccess ctx r b) a ()
      (a.findings.apply r.handle (successChanges ctx r b a.findings)) := by
  unfold reportsSuccess successChanges
  cases r.singlePredecessor? b with
  | none => exact .pure sound ()
  | some p =>
      cases Routine.uniformConstant? ctx.program r b with
      | none => exact .pure sound ()
      | some code =>
          refine yields_check read b p.terminator
            (fun _ answer => do
              if answer = some false then
                modifyKnowledge fun k => k.addSuccess r.handle code
                modifySummary fun s => s.setFact b.handle .success)
            (fun _ answer => if answer then [] else [.succeed b.handle code]) ?_ sound
          intro _ answer c sound' _
          cases answer with
          | true => exact .pure sound' ()
          | false => exact ⟨_, rfl, ⟨sound'.conditions, sound'.memory⟩, rfl⟩

theorem yields_checkKnownError (b dep : Block) (sound : a.Sound ctx) :
    Yields ctx (checkKnownError ctx r b dep.exit dep.terminator) a ()
      (a.findings.apply r.handle (knownChanges ctx r b dep a.findings)) := by
  unfold checkKnownError knownChanges
  refine yields_check read b dep.terminator _
    (fun target answer => if answer then outcome ctx a.knowledge r b dep target else []) ?_ sound
  intro target answer c sound' same
  cases answer with
  | false => exact .pure sound' ()
  | true =>
      rw [if_pos rfl, if_pos rfl, outcome, ← same]
      cases described : Routine.blockDescriptor? ctx.program r b with
      | none => exact .pure sound' ()
      | some found =>
          obtain ⟨d, taken⟩ := found
          exact yields_classify r b taken _ sound'

theorem yields_checks (b : Block) (deps : List Block) (sound : a.Sound ctx) :
    Yields ctx (deps.forM fun dep => checkKnownError ctx r b dep.exit dep.terminator) a ()
      (a.findings.perform r.handle (deps.map (knownChanges ctx r b))) := by
  rw [Findings.perform, List.foldl_map]
  exact .forM (fun dep _ a sound => yields_checkKnownError read b dep sound) sound

theorem yields_handlesKnownError (b : Block) (sound : a.Sound ctx) :
    Yields ctx (handlesKnownError ctx r b) a ()
      (a.findings.perform r.handle (knownPhase ctx r b)) := by
  unfold handlesKnownError knownPhase
  split
  · exact yields_checks read b _ sound
  · exact .pure sound ()

omit read in
theorem yields_generalize (b : Block) (names : SortedSet String) (successCodes : SortedSet Int)
    (sound : a.Sound ctx) :
    Yields ctx (generalize ctx r b names successCodes) a ()
      (a.findings.apply r.handle (generalChanges ctx names successCodes r b a.findings)) := by
  have ran : (generalize ctx r b names successCodes).run a = _ := run_get_bind _ a
  rw [generalChanges, Run.summary_findings]
  split at ran
  · rename_i classified
    rw [if_pos classified]
    exact .of_run ran sound rfl rfl
  rename_i unclassified
  rw [if_neg unclassified]
  cases constant : Routine.returnedConstant? ctx.program r b with
  | none =>
      rw [constant] at ran
      exact .of_run ran sound rfl rfl
  | some code =>
      rw [constant] at ran
      dsimp only at ran ⊢
      split at ran
      · rename_i success
        rw [if_pos success]
        exact .of_run ran sound rfl rfl
      rename_i noSuccess
      rw [if_neg noSuccess]
      unfold Routine.generalized
      cases calls : callsTo ctx.program names b with
      | nil =>
          rw [calls] at ran
          exact .of_run ran sound rfl rfl
      | cons call others =>
          rw [calls] at ran
          exact .of_run (ran.trans (run_addError _ _ a)) sound rfl rfl

omit read in
/-- The codes that the oracle lets pass are those that the condition permits. -/
theorem yields_consistentCodes {condition : Formula} (complete : condition.Complete)
    (codes : SortedSet Int) (sound : a.Sound ctx) :
    Yields ctx (consistentCodes ctx condition codes) a (permitted codes (some condition))
      a.findings := by
  let test (c : Int) : Bool :=
    (Formula.conjoin [.relation .eq .result (.int c), condition]).satisfiable
  have filtered : SortedSet.ofList (codes.toList.filter test) = permitted codes (some condition) := by
    refine SortedSet.ext fun c => ?_
    rw [SortedSet.mem_ofList]
    rfl
  refine .bind (.filterM test (fun c _ a sound => ?_) sound) fun b sound' found => ?_
  · have whole : (Formula.conjoin [.relation .eq .result (.int c), condition]).Complete := by
      refine Formula.complete_conjoin ?_
      simpa using And.intro ⟨trivial, trivial⟩ complete
    refine .bind (yields_satisfiable? whole sound) fun b sound' found => ?_
    rw [← found]
    have kept : decide (some (test c) ≠ some false) = test c := by cases test c <;> rfl
    exact Eq.subst (motive := fun v => Yields ctx _ b v b.findings) kept (.pure sound' _)
  · rw [← filtered, ← found]
    exact .pure sound' _

omit read in
theorem yields_addCodes (codes : SortedSet Int) (describe : Returns → Descriptor)
    (sound : a.Sound ctx) :
    Yields ctx ((Returns.ofSet? .integer codes).elim (pure ()) fun returns =>
        addError r.handle (describe returns)) a ()
      (a.findings.apply r.handle
        (match Returns.ofSet? .integer codes with
        | none => []
        | some returns => [.add (describe returns)])) := by
  cases Returns.ofSet? .integer codes with
  | none => exact .pure sound ()
  | some returns => exact yields_addError _ _ sound

omit read in
theorem yields_forwardFrom {b : Block} {call callee : Handle}
    (unclassified : a.summary.factOf? b.handle = none) (sound : a.Sound ctx) :
    Yields ctx
      (forwardFrom ctx r call (Routine.pathCondition? ctx.program r b.handle call) callee) a ()
      (a.findings.apply r.handle (forwardChanges ctx r b call callee a.findings)) := by
  rw [forwardChanges, Run.summary_findings, unclassified, if_neg (by simp)]
  unfold forwardFrom
  simp only [clausesOf_eq_ok, ofContract_ok, pure_bind, ofSet_bind]
  refine .reading ?_
  cases Clause.contract? (knownClauses ctx a.summary callee) with
  | none => exact .pure sound ()
  | some contract =>
      let describe : Returns → Descriptor := fun returns =>
        ⟨contract.actions, returns, [⟨call, "transitive error"⟩]⟩
      dsimp only
      split
      · cases known : Routine.pathCondition? ctx.program r b.handle call with
        | none => exact yields_addCodes _ describe sound
        | some condition =>
            have complete := Routine.complete_pathCondition? known
            refine .bind (yields_consistentCodes complete _ sound) fun c sound' found => ?_
            rw [← found]
            exact yields_addCodes _ describe sound'
      · exact .pure sound ()

omit read in
theorem forwardPhase_of_fact {s : Findings} {b : Block}
    (classified : (s.summary.factOf? b.handle).isSome = true) :
    ∀ deed ∈ forwardPhase ctx r b, deed s = [] := by
  intro deed listed
  unfold forwardPhase at listed
  split at listed
  · obtain ⟨callee, -, rfl⟩ := List.mem_map.1 listed
    rw [forwardChanges, if_pos classified]
  · cases listed

theorem yields_forwardError (b : Block) (sound : a.Sound ctx) :
    Yields ctx (forwardError ctx r b) a ()
      (a.findings.perform r.handle (forwardPhase ctx r b)) := by
  refine .reading ?_
  split
  · rename_i classified
    rw [Findings.perform_of_nil (forwardPhase_of_fact classified)]
    exact .pure sound ()
  rename_i unclassified
  unfold forwardPhase returnedCall?
  cases (r.blockReturn? b).map ctx.program.ignoreCasts with
  | none => exact .pure sound ()
  | some call =>
      dsimp only [Option.bind_some]
      match calls : ctx.program.op? call with
      | some (.call callee arguments) =>
          refine .bind (yields_condition? read b.handle call sound) fun c sound' found => ?_
          dsimp only
          rw [← found, Findings.perform, List.foldl_map]
          refine .forM_of_inv (fun s => s.summary.factOf? b.handle = none) ?_ ?_ sound' ?_
          · intro f _ s none
            rwa [Summary.factOf?, Findings.facts_apply_add (adds_forwardChanges ctx)]
          · exact fun f _ c sound none => yields_forwardFrom none sound
          · rw [found]
            simpa using unclassified
      | none | some (.compare ..) | some (.cast ..) | some (.phi ..) => exact .pure sound ()

end Rules

/-! ## What a round yields -/

theorem yields_blocks (phase : Phase) {rule : Routine → Block → Inference σ Unit} {r : Routine}
    (turn : ∀ b a, a.Sound ctx →
      Yields ctx (rule r b) a () (a.findings.perform r.handle (phase r b)))
    (blocks : List Block) (sound : a.Sound ctx) :
    Yields ctx (blocks.forM (rule r)) a ()
      (a.findings.perform r.handle (blocks.flatMap (phase r))) := by
  rw [Findings.perform, List.foldl_flatMap]
  exact .forM (fun b _ a sound => turn b a sound) sound

theorem yields_byBlock (phase : Phase) {rule : Routine → Block → Inference σ Unit}
    {routines : List Routine}
    (turn : ∀ r ∈ routines, ∀ b a, a.Sound ctx →
      Yields ctx (rule r b) a () (a.findings.perform r.handle (phase r b)))
    (sound : a.Sound ctx) :
    Yields ctx (byBlock routines rule) a () (a.findings.sweep phase routines) :=
  .forM (fun r listed _ sound => yields_blocks phase (turn r listed) r.blocks sound) sound

theorem yields_reporters (routines : List Routine) (sound : a.Sound ctx) :
    Yields ctx (reporters ctx routines) a ((a.findings.learn ctx routines).names ctx)
      (a.findings.learn ctx routines) := by
  have learned : ∀ found, Yields ctx (reporters.learn found) a (a.knowledge.reporters ∪ found)
      { a.findings with
        knowledge := { a.knowledge with reporters := a.knowledge.reporters ∪ found } } :=
    fun found => ⟨_, rfl, ⟨sound.conditions, sound.memory⟩, rfl⟩
  refine .reading ?_
  unfold Findings.names Findings.learn foundReporters?
  cases ctx.options.classifier with
  | none => exact .pure sound ∅
  | default => exact learned _
  | feature accepts => exact learned _

section Rounds

variable {routines : List Routine}
  (read : ∀ r ∈ routines, Routine.ofFunction ctx.program r.handle = .ok r)

include read

theorem yields_successes (sound : a.Sound ctx) :
    Yields ctx (byBlock routines (reportsSuccess ctx)) a ()
      (a.findings.sweep (successPhase ctx) routines) :=
  yields_byBlock _ (fun r listed b _ => yields_reportsSuccess (read r listed) b) sound

theorem yields_knownErrors (sound : a.Sound ctx) :
    Yields ctx (byBlock routines (handlesKnownError ctx)) a ()
      (a.findings.sweep (knownPhase ctx) routines) :=
  yields_byBlock _ (fun r listed b _ => yields_handlesKnownError (read r listed) b) sound

theorem yields_extract (sound : a.Sound ctx) :
    Yields ctx (extract ctx routines) a () (a.findings.extract ctx routines) := by
  refine .bind (yields_successes read sound) fun b sound' found => ?_
  rw [Findings.extract, ← found]
  exact yields_knownErrors read sound'

/-- A round is a function of the findings. -/
theorem yields_round (sound : a.Sound ctx) :
    Yields ctx (round ctx routines) a () (a.findings.round ctx routines) := by
  refine .bind (yields_extract read sound) fun a₁ sound₁ found₁ => ?_
  rw [Findings.round, ← found₁]
  refine .bind (yields_reporters routines sound₁) fun a₂ sound₂ found₂ => .reading ?_
  rw [Findings.conclude, ← found₂]
  refine .bind (yields_byBlock (generalPhase ctx (a₂.findings.names ctx) a₂.knowledge.successCodes)
    (fun r _ b a => yields_generalize b _ _) sound₂) fun a₃ sound₃ found₃ => ?_
  rw [Run.knowledge_findings, ← found₃]
  exact yields_byBlock _ (fun r listed b a => yields_forwardError (read r listed) b) sound₃

end Rounds

end

end Inference

/-! ## Whole runs -/

theorem Run.sound_initial {ctx : Context σ} {oracle : σ} (exact : ctx.oracle.IsExact oracle) :
    (Run.initial oracle).Sound ctx where
  conditions _ known := by cases known
  memory := exact

namespace Run

variable {ctx : Context σ} {routines : List Routine}
  (read : ∀ r ∈ routines, Routine.ofFunction ctx.program r.handle = .ok r) {start : Run σ}
  (sound : start.Sound ctx)

include read sound

/-- The findings after some rounds. -/
theorem findings_after (n : Nat) :
    (start.after ctx routines n).Sound ctx ∧
      (start.after ctx routines n).findings = (Findings.round ctx routines)^[n] start.findings := by
  have yields : Inference.Yields ctx (Inference.rounds ctx routines n) start ()
      ((Findings.round ctx routines)^[n] start.findings) := by
    induction n with
    | zero => exact .pure sound ()
    | succ n ih =>
        rw [rounds_succ, Function.iterate_succ_apply']
        refine .bind ih fun a sound' found => ?_
        rw [← found]
        exact Inference.yields_round read sound'
  obtain ⟨last, done, sound', found⟩ := yields
  rw [after, done]
  exact ⟨sound', found⟩

theorem findings_after_succ (n : Nat) :
    (start.after ctx routines (n + 1)).findings =
      (start.after ctx routines n).findings.round ctx routines := by
  rw [(findings_after read sound (n + 1)).2, (findings_after read sound n).2,
    Function.iterate_succ_apply']

end Run

/-! ## Exact oracles stand by their verdicts

What has been shown of steady oracles holds of exact ones, also of such as are not steady on incomplete
formulas: a run does not ask these, so it finds what it finds with an oracle that decides each formula
as it comes.
-/

/-- The context with an oracle that decides each formula as it comes. -/
def Context.deciding (ctx : Context σ) : Context σ :=
  { ctx with oracle := { ask := fun f s => (f.verdict, s) } }

theorem Context.deciding_steady (ctx : Context σ) (s : σ) : ctx.deciding.oracle.Steady s :=
  fun _ _ _ given _ => given

namespace Run

variable {ctx : Context σ} {routines : List Routine} {start a b a' b' : Run σ}

theorem Sound.deciding (sound : a.Sound ctx) : a.Sound ctx.deciding where
  conditions := sound.conditions
  memory := Oracle.isExact_of_verdict (fun _ _ => rfl) a.memory

theorem findings_after_deciding
    (read : ∀ r ∈ routines, Routine.ofFunction ctx.program r.handle = .ok r)
    (sound : start.Sound ctx) (n : Nat) :
    (start.after ctx.deciding routines n).findings = (start.after ctx routines n).findings := by
  have read' : ∀ r ∈ routines, Routine.ofFunction ctx.deciding.program r.handle = .ok r := read
  rw [(findings_after read sound n).2, (findings_after read' sound.deciding n).2]
  rfl

theorem Alike.of_findings (alike : a.Alike Eq b) (first : a.findings = a'.findings)
    (second : b.findings = b'.findings) : a'.Alike Eq b' := by
  obtain ⟨descriptors, facts, knowledge⟩ := alike
  simp only [findings, Findings.mk.injEq] at first second
  rw [first.1, second.1] at descriptors facts
  rw [first.2.1, second.2.1] at knowledge
  exact ⟨descriptors, facts, knowledge⟩

theorem Loses.of_findings (loses : a.Loses b) (first : a.findings = a'.findings)
    (second : b.findings = b'.findings) : a'.Loses b' := by
  simp only [findings, Findings.mk.injEq] at first second
  unfold Loses at loses ⊢
  rwa [first.1, second.1] at loses

variable (read : ∀ r ∈ routines, Routine.ofFunction ctx.program r.handle = .ok r)
  (complete : start.Complete) (sound : start.Sound ctx)

include read complete sound

/-- A run that has settled stays as it is. -/
theorem alike_of_sound {n : Nat}
    (settled : (start.after ctx routines n).Alike Eq (start.after ctx routines (n + 1))) (k : Nat) :
    (start.after ctx routines n).Alike Eq (start.after ctx routines (n + k)) := by
  have same := findings_after_deciding read sound
  have served : start.Served ctx.deciding := ⟨complete, sound.deciding.memory.answers⟩
  have settled' := settled.of_findings (same n).symm (same (n + 1)).symm
  exact (alike_of_settled routines served (ctx.deciding_steady _) settled' k).of_findings (same n)
    (same (n + k))

/-- If no round from some round on loses a descriptor, a round changes nothing. -/
theorem exists_alike_of_sound (worded : start.Worded ctx routines) {n : Nat}
    (keeps : ∀ k ≥ n, ¬(start.after ctx routines k).Loses (start.after ctx routines (k + 1))) :
    ∃ k, (start.after ctx routines k).Alike Eq (start.after ctx routines (k + 1)) := by
  have same := findings_after_deciding read sound
  have served : start.Served ctx.deciding := ⟨complete, sound.deciding.memory.answers⟩
  have worded' : start.Worded ctx.deciding routines := by
    refine ⟨fun f d hd => ?_, worded.codes, worded.reporters, worded.successes, worded.successCodes⟩
    obtain ⟨listed, actions, codes, witnesses⟩ := worded.descriptors f d hd
    exact ⟨listed, actions, codes, witnesses⟩
  obtain ⟨k, alike⟩ := exists_alike_of_keeps served (ctx.deciding_steady _) worded' fun k late loses =>
    keeps k late (loses.of_findings (same k) (same (k + 1)))
  exact ⟨k, alike.of_findings (same k) (same (k + 1))⟩

end Run

theorem Routine.handle_of_read {m : Module} {f : Handle} {r : Routine}
    (read : ofFunction m f = .ok r) : r.handle = f := (ofFunction_ok read).1

/-- Each routine of a list that has been read is what is read at its handle. -/
theorem routinesOf_ok {m : Module} {functions : List Handle} {routines : List Routine}
    (read : routinesOf m functions = .ok routines) :
    routines.map Routine.handle = functions ∧
      ∀ r ∈ routines, Routine.ofFunction m r.handle = .ok r := by
  constructor
  · have each : List.Forall₂ (fun r f => r.handle = f) routines functions :=
      (mapM_eq_ok_iff.1 read).flip.imp fun r f found => Routine.handle_of_read found
    rw [← List.forall₂_map_left_iff, List.forall₂_eq_eq_eq] at each
    exact each
  · intro r listed
    obtain ⟨f, -, found⟩ := exists_of_mem_mapM read listed
    rw [Routine.handle_of_read found]
    exact found

theorem eq_of_handle_eq {m : Module} {functions : List Handle} {routines : List Routine}
    (read : routinesOf m functions = .ok routines) {r r' : Routine} (listed : r ∈ routines)
    (listed' : r' ∈ routines) (same : r'.handle = r.handle) : r' = r := by
  have own := (routinesOf_ok read).2 r listed
  have own' := (routinesOf_ok read).2 r' listed'
  rw [same, own] at own'
  cases own'
  rfl

theorem mem_of_mem_visitOrder {ctx : Context σ} {routines : List Routine} {r : Routine}
    (visited : r ∈ visitOrder ctx routines) : r ∈ routines := by
  unfold visitOrder at visited
  split at visited
  · obtain ⟨f, -, found⟩ := List.mem_filterMap.1 visited
    exact List.mem_of_find?_eq_some found
  · exact visited

theorem read_of_mem_visitOrder {ctx : Context σ} {functions : List Handle} {routines : List Routine}
    (read : routinesOf ctx.program functions = .ok routines) :
    ∀ r ∈ visitOrder ctx routines, Routine.ofFunction ctx.program r.handle = .ok r :=
  fun r visited => (routinesOf_ok read).2 r (mem_of_mem_visitOrder visited)

/-- What inference returns is the run after some rounds, and a further round changes nothing. -/
theorem exists_settled_of_infer {ctx : Context σ} {functions : List Handle} {routines : List Routine}
    {limit : Nat} {oracle : σ} {final : Run σ} (exact : ctx.oracle.IsExact oracle)
    (read : routinesOf ctx.program functions = .ok routines)
    (ended : infer ctx functions limit oracle = .ok final) :
    ∃ n, final = (Run.initial oracle).after ctx (visitOrder ctx routines) n ∧
      final.Alike Eq ((Run.initial oracle).after ctx (visitOrder ctx routines) (n + 1)) := by
  obtain ⟨n, rfl, back⟩ := exists_after_of_infer exact.answers read ended
  have stays := Run.alike_of_sound (read_of_mem_visitOrder read) (Run.complete_initial oracle)
    (Run.sound_initial exact) back 2
  exact ⟨n + 1, rfl, back.symm.trans stays⟩

end ErrorContracts
