import ErrorContracts.Proofs.Questions
import ErrorContracts.Proofs.Steps
import Mathlib.Logic.Relation

/-!
# What a round can do

Every change that a rule makes to a run is one of a few moves, and each move states the evidence on
which the rule makes it.  Whatever a round does is a chain of moves, also where the oracle fails on
the way.  An invariant of runs is therefore proved for each move once.
-/

namespace ErrorContracts

variable {σ α β : Type}

/-! ## What the rules compute from a summary -/

/-- The error codes on which all of some functions agree. -/
def agreedCodes? (ctx : Context σ) (s : Summary) (callees : List Handle) : Option (SortedSet Int) :=
  match callees.mapM fun f => Clause.errorCodes? (knownClauses ctx s f) with
  | some (first :: others) => if others.all fun codes => codes = first then some first else none
  | _ => none

/-- The call that a branch checks by a summary, and the condition that its result is an error code. -/
def checkOf? (ctx : Context σ) (s : Summary) (t : Terminator) : Option (Handle × Formula) :=
  ((ctx.program.comparison? t).bind (Inference.checkedCall? ctx.program)).bind
    fun (call, callee) =>
      (agreedCodes? ctx s (callTargets ctx.program ctx.indirect callee)).map fun codes =>
        (call, Formula.anyOf codes .result)

/-- The names of reporting functions that the classifier finds in a summary. -/
def foundReporters? (ctx : Context σ) (routines : List Routine) (s : Summary) :
    Option (SortedSet String) :=
  match ctx.options.classifier with
  | .none => none
  | .default => some s.soleReporters
  | .feature accepts => some (namesByFeatures ctx.program s.facts routines accepts)

/-- The descriptor of a block that calls functions of some names and returns a code. -/
def Routine.generalized (m : Module) (r : Routine) (b : Block) (names : SortedSet String)
    (code : Int) : Descriptor where
  actions := SortedSet.ofList ((Inference.callsTo m names b).map fun (_, name) => ⟨name, []⟩)
  returns := signal m r code
  witnesses :=
    (Inference.callsTo m names b).map fun (h, _) => ⟨h, "calls error-reporting function"⟩

namespace Run

def addError (a : Run σ) (f : Handle) (d : Descriptor) : Run σ :=
  { a with
    summary := a.summary.addDescriptor f d
    knowledge :=
      if d.isInteger then { a.knowledge with codes := a.knowledge.codes ∪ d.returns.codes }
      else a.knowledge }

/-- A block that returns a constant where a check that controls it lets an error pass. -/
structure LetsErrorPass (ctx : Context σ) (a : Run σ) (r : Routine) (b dep : Block)
    (target : Handle) (isError facts : Formula) : Prop where
  controls : dep ∈ r.allControllers b.handle
  checked : checkOf? ctx a.summary dep.terminator = some (target, isError)
  kept : a.conditions.get? ⟨r.handle, b.handle, target⟩ = some (some facts)
  possible : (ctx.oracle.ask (Formula.conjoin [isError, facts]) a.memory).1 = .ok .sat

/-- The oracle, when asked, has not excluded the code by a condition on the result. -/
def Permits (ctx : Context σ) (condition? : Option Formula) (c : Int) : Prop :=
  ∀ condition ∈ condition?, ∃ s verdict,
    (ctx.oracle.ask (Formula.conjoin [.relation .eq .result (.int c), condition]) s).1 =
      .ok verdict ∧ verdict ≠ .unsat

/-- The run after a question that has got a definite answer. -/
def asked (ctx : Context σ) (f : Formula) (a : Run σ) : Run σ :=
  { a with memory := (ctx.oracle.ask f a.memory).2 }

/-- What the rules ask: whether a kept path condition lets some error code pass, or a given code. -/
inductive Question (a : Run σ) : Formula → Prop where
  | errors {place : Place} {codes : SortedSet Int} {facts : Formula}
      (some_code : codes.isEmpty = false) (kept : a.conditions.get? place = some (some facts)) :
      Question a (Formula.conjoin [Formula.anyOf codes .result, facts])
  | code {place : Place} {facts : Formula} (c : Int)
      (kept : a.conditions.get? place = some (some facts)) :
      Question a (Formula.conjoin [.relation .eq .result (.int c), facts])

/-- One change of a run, with the evidence on which a rule makes it. -/
inductive Move (ctx : Context σ) (routines : List Routine) : Run σ → Run σ → Prop where
  | ask {a : Run σ} {f : Formula} (undecided : Nat) (question : a.Question f) :
      Move ctx routines a { a.asked ctx f with undecided }
  | keep {a : Run σ} {r : Routine} {b : Block} {target : Handle}
      (routine : r ∈ routines) (block : b ∈ r.blocks)
      (fresh : a.conditions.get? ⟨r.handle, b.handle, target⟩ = none) :
      Move ctx routines a
        { a with
          conditions := a.conditions.insert ⟨r.handle, b.handle, target⟩
            (Routine.pathCondition? ctx.program r b.handle target) }
  | warn (a : Run σ) (d : Diagnostic) :
      Move ctx routines a { a with diagnostics := d.emit a.diagnostics }
  | succeed {a : Run σ} {r : Routine} {b p : Block} {code : Int} {target : Handle}
      {isError facts : Formula} (routine : r ∈ routines) (block : b ∈ r.blocks)
      (behind : r.singlePredecessor? b = some p)
      (constant : Routine.uniformConstant? ctx.program r b = some code)
      (checked : checkOf? ctx a.summary p.terminator = some (target, isError))
      (kept : a.conditions.get? ⟨r.handle, b.handle, target⟩ = some (some facts))
      (refuted : (ctx.oracle.ask (Formula.conjoin [isError, facts]) a.memory).1 = .ok .unsat) :
      Move ctx routines a
        { a.asked ctx (Formula.conjoin [isError, facts]) with
          knowledge := a.knowledge.addSuccess r.handle code
          summary := a.summary.setFact b.handle .success }
  | withdraw {a : Run σ} {r : Routine} {b dep : Block} {target : Handle} {isError facts : Formula}
      {d : Descriptor} {taken : SortedSet Handle} (routine : r ∈ routines) (block : b ∈ r.blocks)
      (evidence : LetsErrorPass ctx a r b dep target isError facts)
      (described : Routine.blockDescriptor? ctx.program r b = some (d, taken))
      (fits : a.knowledge.fitsSuccess r.handle d = true) :
      Move ctx routines a
        { a.asked ctx (Formula.conjoin [isError, facts]) with
          summary := (a.summary.setFact b.handle .success).retract r.handle d.returns.codes }
  | report {a : Run σ} {r : Routine} {b dep : Block} {target : Handle} {isError facts : Formula}
      {d : Descriptor} {taken : SortedSet Handle} (routine : r ∈ routines) (block : b ∈ r.blocks)
      (evidence : LetsErrorPass ctx a r b dep target isError facts)
      (described : Routine.blockDescriptor? ctx.program r b = some (d, taken))
      (unfit : a.knowledge.fitsSuccess r.handle d = false) :
      Move ctx routines a
        (addError
          { a.asked ctx (Formula.conjoin [isError, facts]) with
            summary := a.summary.setFact b.handle (.error taken) } r.handle
          { d with
            witnesses := [⟨target, "check error return"⟩, ⟨dep.exit, "return error code"⟩] })
  | learn {a : Run σ} {found : SortedSet String}
      (classified : foundReporters? ctx routines a.summary = some found) :
      Move ctx routines a
        { a with
          knowledge := { a.knowledge with reporters := a.knowledge.reporters ∪ found } }
  | generalize {a : Run σ} {r : Routine} {b : Block} {names : SortedSet String} {code : Int}
      (routine : r ∈ routines) (block : b ∈ r.blocks)
      (unclassified : a.summary.factOf? b.handle = none)
      (constant : Routine.returnedConstant? ctx.program r b = some code)
      (noSuccess : code ∉ a.knowledge.successCodes)
      (reporting : ∀ name ∈ names, name ∈ a.knowledge.reporters)
      (calls : Inference.callsTo ctx.program names b ≠ []) :
      Move ctx routines a (a.addError r.handle (Routine.generalized ctx.program r b names code))
  | forward {a : Run σ} {r : Routine} {b : Block} {call callee f : Handle}
      {arguments : List Handle} {condition? : Option Formula} {contract : Contract}
      {returns : Returns} (routine : r ∈ routines) (block : b ∈ r.blocks)
      (unclassified : a.summary.factOf? b.handle = none)
      (returned : (r.blockReturn? b).map ctx.program.ignoreCasts = some call)
      (calls : ctx.program.op? call = some (.call callee arguments))
      (candidate : f ∈ callTargets ctx.program ctx.indirect callee)
      (known : Clause.contract? (knownClauses ctx a.summary f) = some contract)
      (integer : contract.returns.isInteger = true) (kind : returns.kind = .integer)
      (kept : a.conditions.get? ⟨r.handle, b.handle, call⟩ = some condition?)
      (codes : ∀ c ∈ returns.codes, c ∈ contract.returns.codes ∧ Permits ctx condition? c) :
      Move ctx routines a
        (a.addError r.handle ⟨contract.actions, returns, [⟨call, "transitive error"⟩]⟩)

/-- Some moves, one after the other. -/
abbrev Moves (ctx : Context σ) (routines : List Routine) : Run σ → Run σ → Prop :=
  Relation.ReflTransGen (Move ctx routines)

/-- All path conditions that a run keeps are complete. -/
def Complete (a : Run σ) : Prop :=
  ∀ place f, a.conditions.get? place = some (some f) → f.Complete

section

variable {ctx : Context σ} {routines : List Routine} {a b : Run σ}

theorem Question.complete {f : Formula} (question : a.Question f) (ha : a.Complete) :
    f.Complete := by
  cases question with
  | errors some_code kept =>
      apply Formula.complete_conjoin
      simpa using And.intro (Formula.complete_anyOf _) (ha _ _ kept)
  | code c kept =>
      apply Formula.complete_conjoin
      simpa using And.intro ⟨trivial, trivial⟩ (ha _ _ kept)

theorem Move.complete (move : Move ctx routines a b) (ha : a.Complete) : b.Complete := by
  cases move with
  | keep routine block fresh =>
      intro place f known
      rw [SortedMap.get?_insert] at known
      split at known
      · exact Routine.complete_pathCondition? (Option.some.inj known)
      · exact ha place f known
  | _ => exact ha

theorem Move.recalls (move : Move ctx routines a b) : a.Recalls ctx.oracle b := by
  cases move with
  | ask undecided question => exact .asked a _ rfl rfl
  | keep routine block fresh =>
      refine ⟨fun {place f} known => ?_, [], rfl⟩
      rw [SortedMap.get?_insert]
      split
      · rename_i same
        rw [same, fresh] at known
        cases known
      · exact known
  | succeed => exact .asked a _ rfl rfl
  | withdraw => exact .asked a _ rfl rfl
  | report => exact .asked a _ rfl rfl
  | _ => exact .of_eq rfl rfl

theorem Moves.recalls (moves : Moves ctx routines a b) : a.Recalls ctx.oracle b := by
  induction moves with
  | refl => exact .refl a
  | tail _ move ih => exact ih.trans move.recalls

theorem Moves.complete (moves : Moves ctx routines a b) (ha : a.Complete) : b.Complete := by
  induction moves with
  | refl => exact ha
  | tail _ move ih => exact move.complete ih

/-- The oracle of a run answers what may be asked about the path conditions that the run keeps. -/
structure Served (ctx : Context σ) (a : Run σ) : Prop where
  complete : a.Complete
  answers : ctx.oracle.Answers a.memory

theorem Moves.served (moves : Moves ctx routines a b) (served : a.Served ctx) : b.Served ctx where
  complete := moves.complete served.complete
  answers := by
    obtain ⟨asked, reached⟩ := moves.recalls.memory
    rw [reached]
    exact served.answers.after asked

end

/-- Nothing has changed but the oracle, the kept conditions and the diagnostics. -/
structure Quiet (a b : Run σ) : Prop where
  summary : b.summary = a.summary
  knowledge : b.knowledge = a.knowledge
  retains : a.Retains b

namespace Quiet

theorem refl (a : Run σ) : a.Quiet a := ⟨rfl, rfl, id⟩

theorem trans {a b c : Run σ} (first : a.Quiet b) (second : b.Quiet c) : a.Quiet c where
  summary := second.summary.trans first.summary
  knowledge := second.knowledge.trans first.knowledge
  retains known := second.retains (first.retains known)

end Quiet

/-- The oracle fails on a question about a path condition, in a run that moves lead to. -/
def Blocked (ctx : Context σ) (routines : List Routine) (a : Run σ) (fault : StepFault) : Prop :=
  ∃ b f cause, Moves ctx routines a b ∧ b.Question f ∧
    (ctx.oracle.ask f b.memory).1 = .error cause ∧ fault = .oracle cause

end Run

namespace Inference

open Run (Moves Quiet)

/-! ## Chains of moves -/

section Chains

variable {ctx : Context σ} {routines : List Routine}

/--
From the run `a` the step makes moves only.  It fails only where the oracle fails on a question about
a kept path condition; if it succeeds, `post` holds of the result and the last run.
-/
def Leads (ctx : Context σ) (routines : List Routine) (p : Inference σ α) (a : Run σ)
    (post : α → Run σ → Prop) : Prop :=
  match p.run a with
  | (.ok v, b) => Moves ctx routines a b ∧ post v b
  | (.error fault, b) => Moves ctx routines a b ∧ a.Blocked ctx routines fault

namespace Leads

variable {p : Inference σ α} {a : Run σ} {post : α → Run σ → Prop}

theorem of_ok {b : Run σ} {v : α} (done : p.run a = (.ok v, b))
    (moves : Moves ctx routines a b) (holds : post v b) : Leads ctx routines p a post := by
  unfold Leads
  rw [done]
  exact ⟨moves, holds⟩

theorem of_error {b : Run σ} {fault : StepFault} (failed : p.run a = (.error fault, b))
    (moves : Moves ctx routines a b) (blocked : a.Blocked ctx routines fault) :
    Leads ctx routines p a post := by
  unfold Leads
  rw [failed]
  exact ⟨moves, blocked⟩

theorem moves (leads : Leads ctx routines p a post) : Moves ctx routines a (p.run a).2 := by
  unfold Leads at leads
  cases ended : p.run a with
  | mk result b =>
      rw [ended] at leads
      cases result with
      | ok v => exact leads.1
      | error fault => exact leads.1

theorem of_run {b : Run σ} {v : α} (leads : Leads ctx routines p a post)
    (done : p.run a = (.ok v, b)) : Moves ctx routines a b ∧ post v b := by
  unfold Leads at leads
  rwa [done] at leads

/-- A step succeeds if the oracle answers what may be asked on its way. -/
theorem succeeds_of_answers (leads : Leads ctx routines p a post)
    (answers : ∀ b, Moves ctx routines a b → ∀ f, b.Question f →
      ∃ verdict, (ctx.oracle.ask f b.memory).1 = .ok verdict) :
    ∃ v b, p.run a = (.ok v, b) ∧ Moves ctx routines a b ∧ post v b := by
  unfold Leads at leads
  cases ended : p.run a with
  | mk result b =>
      rw [ended] at leads
      cases result with
      | ok v => exact ⟨v, b, rfl, leads⟩
      | error fault =>
          obtain ⟨-, c, f, cause, moves, question, failed, -⟩ := leads
          obtain ⟨verdict, answered⟩ := answers c moves f question
          rw [failed] at answered
          cases answered

/-- With an oracle that answers, a step from complete conditions succeeds. -/
theorem succeeds (leads : Leads ctx routines p a post) (served : a.Served ctx) :
    ∃ v b, p.run a = (.ok v, b) ∧ Moves ctx routines a b ∧ post v b :=
  leads.succeeds_of_answers fun _ moves f question =>
    have later := moves.served served
    later.answers [] f (question.complete later.complete)

theorem pure {v : α} (holds : post v a) : Leads ctx routines (pure v) a post :=
  of_ok rfl .refl holds

theorem bind {next : α → Inference σ β} {post' : β → Run σ → Prop}
    (first : Leads ctx routines p a post)
    (second : ∀ v b, post v b → Leads ctx routines (next v) b post') :
    Leads ctx routines (p >>= next) a post' := by
  unfold Leads at first
  cases ended : p.run a with
  | mk result b =>
      rw [ended] at first
      cases result with
      | error fault => exact of_error (run_bind_of_error ended next) first.1 first.2
      | ok v =>
          obtain ⟨moves, holds⟩ := first
          have rest := second v b holds
          unfold Leads at rest
          have joined := run_bind_of_ok ended next
          cases ended' : (next v).run b with
          | mk result' c =>
              rw [ended'] at rest joined
              cases result' with
              | ok w => exact of_ok joined (moves.trans rest.1) rest.2
              | error fault =>
                  obtain ⟨d, f, cause, reached, failed⟩ := rest.2
                  exact of_error joined (moves.trans rest.1)
                    ⟨d, f, cause, moves.trans reached, failed⟩

theorem reading {next : Run σ → Inference σ β} {post' : β → Run σ → Prop}
    (leads : Leads ctx routines (next a) a post') : Leads ctx routines (get >>= next) a post' :=
  leads

theorem pure_bind {v : α} {next : α → Inference σ β} {post' : β → Run σ → Prop}
    (leads : Leads ctx routines (next v) a post') :
    Leads ctx routines (Pure.pure v >>= next) a post' :=
  leads

theorem weaken {post' : α → Run σ → Prop} (leads : Leads ctx routines p a post)
    (weaker : ∀ v b, post v b → post' v b) : Leads ctx routines p a post' := by
  unfold Leads at leads ⊢
  split at leads
  · exact ⟨leads.1, weaker _ _ leads.2⟩
  · exact leads

/-- What every turn of a loop preserves, the loop preserves. -/
theorem forM {f : α → Inference σ Unit} {l : List α} (inv : Run σ → Prop)
    (turn : ∀ v ∈ l, ∀ a, inv a → Leads ctx routines (f v) a fun _ b => inv b) {a : Run σ}
    (ha : inv a) : Leads ctx routines (l.forM f) a fun _ b => inv b := by
  induction l generalizing a with
  | nil => exact .pure ha
  | cons v l ih =>
      obtain ⟨head, tail⟩ := List.forall_mem_cons.1 turn
      exact .bind (head a ha) fun _ b hb => ih tail hb

/-- A filter keeps elements of the list whose test has come out true. -/
theorem filterM {f : α → Inference σ Bool} {l : List α} (inv : Run σ → Prop) (test : α → Prop)
    (turn : ∀ v a, inv a → Leads ctx routines (f v) a fun keep b =>
      inv b ∧ a.Quiet b ∧ (keep = true → test v)) {a : Run σ} (ha : inv a) :
    Leads ctx routines (l.filterM f) a fun kept b =>
      a.Quiet b ∧ ∀ v ∈ kept, v ∈ l ∧ test v := by
  have collected : ∀ (kept : List α) (a : Run σ), inv a →
      Leads ctx routines (l.filterAuxM f kept) a fun kept' b =>
        a.Quiet b ∧ ∀ v ∈ kept', v ∈ kept ∨ v ∈ l ∧ test v := by
    induction l with
    | nil => exact fun kept a _ => .pure ⟨.refl a, fun v hv => .inl hv⟩
    | cons w l ih =>
        intro kept a ha
        refine .bind (turn w a ha) fun keep b => ?_
        rintro ⟨hb, quiet, tested⟩
        refine .weaken (ih _ b hb) fun kept' c => ?_
        rintro ⟨quiet', collected⟩
        refine ⟨quiet.trans quiet', fun v hv => ?_⟩
        rcases collected v hv with old | ⟨later, holds⟩
        · cases keep with
          | false => exact .inl old
          | true =>
              rcases List.mem_cons.1 old with rfl | old
              · exact .inr ⟨List.mem_cons_self, tested rfl⟩
              · exact .inl old
        · exact .inr ⟨List.mem_cons_of_mem w later, holds⟩
  refine .bind (collected [] a ha) fun kept b => ?_
  rintro ⟨quiet, collected⟩
  exact .pure ⟨quiet, by simpa using collected⟩

end Leads

/-! ## What questions lead to -/

/-- The run after a question with the given verdict. -/
def answered (ctx : Context σ) (f : Formula) (verdict : Verdict) (a : Run σ) : Run σ :=
  { a.asked ctx f with
    undecided := if verdict = .unknown then a.undecided + 1 else a.undecided }

theorem leads_satisfiable? {f : Formula} {a : Run σ} (question : a.Question f) :
    Leads ctx routines (satisfiable? ctx f) a fun v b =>
      a.Quiet b ∧ ∃ verdict, (ctx.oracle.ask f a.memory).1 = .ok verdict ∧
        b = answered ctx f verdict a ∧ v = verdict.definite? := by
  have ran := run_satisfiable? ctx f a
  cases asked : ctx.oracle.ask f a.memory with
  | mk answer memory =>
      rw [asked] at ran
      have reached : memory = (ctx.oracle.ask f a.memory).2 := by rw [asked]
      subst reached
      have move (undecided : Nat) : Run.Move ctx routines a { a.asked ctx f with undecided } :=
        .ask undecided question
      cases answer with
      | ok verdict => exact .of_ok ran (.single (move _)) ⟨⟨rfl, rfl, id⟩, verdict, rfl, rfl, rfl⟩
      | error fault =>
          exact .of_error ran (.single (move _))
            ⟨a, f, fault, .refl, question, by rw [asked], rfl⟩

/-- A question on whose answer a rule does one thing or nothing. -/
theorem leads_decision {f : Formula} {next : Option Bool → Inference σ Unit} {a : Run σ}
    (question : a.Question f)
    (decided : ∀ verdict, (ctx.oracle.ask f a.memory).1 = .ok verdict →
      ∃ b, (next verdict.definite?).run (answered ctx f verdict a) = (.ok (), b) ∧
        (b = answered ctx f verdict a ∨ Run.Move ctx routines a b)) :
    Leads ctx routines (satisfiable? ctx f >>= next) a fun _ _ => True := by
  have asking : Leads ctx routines (satisfiable? ctx f) a fun v b => _ := leads_satisfiable? question
  unfold Leads at asking
  cases ended : (satisfiable? ctx f).run a with
  | mk result c =>
      rw [ended] at asking
      cases result with
      | error fault => exact .of_error (run_bind_of_error ended next) asking.1 asking.2
      | ok v =>
          obtain ⟨moves, -, verdict, given, rfl, rfl⟩ := asking
          obtain ⟨b, done, same | move⟩ := decided verdict given
          · exact .of_ok ((run_bind_of_ok ended next).trans done) (same ▸ moves) trivial
          · exact .of_ok ((run_bind_of_ok ended next).trans done) (.single move) trivial

theorem leads_condition? {r : Routine} {b : Block} (routine : r ∈ routines)
    (block : b ∈ r.blocks) (target : Handle) (a : Run σ) :
    Leads ctx routines (condition? ctx r b.handle target) a fun v c =>
      a.Quiet c ∧ c.conditions.get? ⟨r.handle, b.handle, target⟩ = some v := by
  have ran := run_condition? ctx r b.handle target a
  cases known : a.conditions.get? ⟨r.handle, b.handle, target⟩ with
  | some condition =>
      rw [known] at ran
      exact .of_ok ran .refl ⟨.refl a, known⟩
  | none =>
      rw [known] at ran
      have move : Run.Move ctx routines a _ := .keep routine block known
      refine .of_ok ran (.single move) ⟨⟨rfl, rfl, move.recalls.condition⟩, ?_⟩
      rw [SortedMap.get?_insert, if_pos rfl]

theorem leads_warnMismatch (call callee : Handle) (a : Run σ) :
    Leads ctx routines (warnMismatch ctx call callee) a fun _ b => a.Quiet b :=
  .of_ok rfl (.single (.warn a _)) ⟨rfl, rfl, id⟩

theorem leads_sharedCodes? (callees : List Handle) (call callee : Handle) (a : Run σ) :
    Leads ctx routines (sharedCodes? ctx callees call callee) a fun v b =>
      a.Quiet b ∧ v = agreedCodes? ctx a.summary callees := by
  unfold sharedCodes? agreedCodes?
  simp only [listedCodes?_eq_ok, ofContract_ok, pure_bind]
  refine .reading ?_
  split
  · rename_i missing
    exact .pure ⟨.refl a, by rw [missing]⟩
  · rename_i missing
    exact .pure ⟨.refl a, by rw [missing]⟩
  · rename_i first others listed
    rw [listed]
    dsimp only
    split
    · exact .pure ⟨.refl a, rfl⟩
    · split
      · exact .bind (leads_warnMismatch call callee a) fun _ b quiet => .pure ⟨quiet, rfl⟩
      · exact .pure ⟨.refl a, rfl⟩

theorem leads_errorCheck? (t : Terminator) (a : Run σ) :
    Leads ctx routines (errorCheck? ctx t) a fun v b =>
      a.Quiet b ∧ v = checkOf? ctx a.summary t := by
  unfold errorCheck? checkOf?
  split
  · rename_i missing
    exact .pure ⟨.refl a, by rw [missing]; rfl⟩
  · rename_i call callee found
    rw [found]
    refine .bind (leads_sharedCodes? _ call callee a) fun v b => ?_
    rintro ⟨quiet, rfl⟩
    split
    · rename_i missing
      exact .pure ⟨quiet, by simp [missing]⟩
    · rename_i codes agreed
      exact .pure ⟨quiet, by simp [agreed]⟩

/-! ## What rules lead to -/

theorem complete_of_checkOf? {s : Summary} {t : Terminator} {target : Handle} {isError : Formula}
    (checked : checkOf? ctx s t = some (target, isError)) : isError.Complete := by
  simp only [checkOf?, Option.bind_eq_some_iff, Option.map_eq_some_iff] at checked
  obtain ⟨_, _, codes, _, same⟩ := checked
  cases same
  exact Formula.complete_anyOf codes

theorem isEmpty_of_agreedCodes? {s : Summary} {callees : List Handle} {codes : SortedSet Int}
    (agreed : agreedCodes? ctx s callees = some codes) : codes.isEmpty = false := by
  unfold agreedCodes? at agreed
  split at agreed
  · rename_i first others listed
    split at agreed
    · cases agreed
      cases callees with
      | nil => cases listed
      | cons f callees =>
          simp only [List.mapM_cons, Option.bind_eq_bind, Option.bind_eq_some_iff, Option.pure_def,
            Option.some.injEq] at listed
          obtain ⟨_, known, _, _, same⟩ := listed
          cases same
          obtain ⟨contract, -, rfl⟩ := Option.map_eq_some_iff.1 known
          exact contract.returns.nonempty
    · cases agreed
  · cases agreed

theorem question_of_checkOf? {s : Summary} {t : Terminator} {target : Handle}
    {isError facts : Formula} {a : Run σ} {place : Place}
    (checked : checkOf? ctx s t = some (target, isError))
    (kept : a.conditions.get? place = some (some facts)) :
    a.Question (Formula.conjoin [isError, facts]) := by
  simp only [checkOf?, Option.bind_eq_some_iff, Option.map_eq_some_iff] at checked
  obtain ⟨_, _, codes, agreed, same⟩ := checked
  cases same
  exact .errors (isEmpty_of_agreedCodes? agreed) kept

theorem run_addError (f : Handle) (d : Descriptor) (a : Run σ) :
    (addError f d).run a = (.ok (), a.addError f d) := by
  unfold addError Run.addError
  rw [run_bind_of_ok (run_modifySummary _ a)]
  split <;> rfl

theorem run_retract {d : Descriptor} (integer : d.isInteger = true) (f : Handle) (a : Run σ) :
    (retract f d).run a =
      (.ok (), { a with summary := a.summary.retract f d.returns.codes }) := by
  rw [retract_eq, if_pos integer]
  rfl

theorem fitsSuccess_witnesses (k : Knowledge) (f : Handle) (d : Descriptor)
    (witnesses : List Witness) :
    k.fitsSuccess f { d with witnesses } = k.fitsSuccess f d := rfl

theorem leads_reportsSuccess {r : Routine} {b : Block} (routine : r ∈ routines)
    (block : b ∈ r.blocks) (a : Run σ) :
    Leads ctx routines (reportsSuccess ctx r b) a fun _ _ => True := by
  unfold reportsSuccess
  split
  · exact .pure trivial
  rename_i p behind
  split
  · exact .pure trivial
  rename_i code constant
  refine .bind (leads_errorCheck? p.terminator a) fun v a₁ => ?_
  rintro ⟨quiet₁, rfl⟩
  split
  · exact .pure trivial
  rename_i target isError checked
  refine .bind (leads_condition? routine block target a₁) fun v a₂ => ?_
  rintro ⟨quiet₂, kept⟩
  split
  · exact .pure trivial
  rename_i facts
  have checked₂ : checkOf? ctx a₂.summary p.terminator = some (target, isError) := by
    rw [(quiet₁.trans quiet₂).summary]
    exact checked
  refine leads_decision (question_of_checkOf? checked kept) fun verdict given => ?_
  cases verdict with
  | unsat => exact ⟨_, rfl, .inr (.succeed routine block behind constant checked₂ kept given)⟩
  | sat => exact ⟨_, rfl, .inl rfl⟩
  | unknown => exact ⟨_, rfl, .inl rfl⟩

theorem run_classify (r : Routine) (b : Block) (d : Descriptor) (taken : SortedSet Handle)
    (a : Run σ) :
    (classify r b d taken).run a =
      (.ok (), if a.knowledge.fitsSuccess r.handle d then
        { a with
          summary := (a.summary.setFact b.handle .success).retract r.handle d.returns.codes }
      else
        Run.addError { a with summary := a.summary.setFact b.handle (.error taken) } r.handle d) := by
  rw [classify, run_get_bind]
  split
  · rename_i fits
    have integer : d.isInteger = true := by
      simp only [Knowledge.fitsSuccess, Bool.and_eq_true] at fits
      exact fits.1
    rw [run_bind_of_ok (run_modifySummary _ a), run_retract integer]
  · rw [run_bind_of_ok (run_modifySummary _ a), run_addError]

theorem leads_checkKnownError {r : Routine} {b dep : Block} (routine : r ∈ routines)
    (block : b ∈ r.blocks) (controls : dep ∈ r.allControllers b.handle) (a : Run σ) :
    Leads ctx routines (checkKnownError ctx r b dep.exit dep.terminator) a fun _ _ => True := by
  refine .bind (leads_errorCheck? dep.terminator a) fun v a₁ => ?_
  rintro ⟨quiet₁, rfl⟩
  split
  · exact .pure trivial
  rename_i target isError checked
  refine .bind (leads_condition? routine block target a₁) fun v a₂ => ?_
  rintro ⟨quiet₂, kept⟩
  split
  · exact .pure trivial
  rename_i facts
  have checked₂ : checkOf? ctx a₂.summary dep.terminator = some (target, isError) := by
    rw [(quiet₁.trans quiet₂).summary]
    exact checked
  refine leads_decision (question_of_checkOf? checked kept) fun verdict given => ?_
  cases verdict with
  | unsat => exact ⟨_, rfl, .inl rfl⟩
  | unknown => exact ⟨_, rfl, .inl rfl⟩
  | sat =>
      have evidence : a₂.LetsErrorPass ctx r b dep target isError facts :=
        ⟨controls, checked₂, kept, given⟩
      rw [Verdict.definite?, if_pos rfl]
      cases described : Routine.blockDescriptor? ctx.program r b with
      | none => exact ⟨_, rfl, .inl rfl⟩
      | some found =>
          obtain ⟨d, taken⟩ := found
          refine ⟨_, run_classify r b _ taken _, .inr ?_⟩
          rw [fitsSuccess_witnesses]
          split
          · rename_i fits
            exact Run.Move.withdraw (d := d) routine block evidence described fits
          · rename_i unfit
            exact .report routine block evidence described (Bool.eq_false_iff.2 unfit)

theorem leads_handlesKnownError {r : Routine} {b : Block} (routine : r ∈ routines)
    (block : b ∈ r.blocks) (a : Run σ) :
    Leads ctx routines (handlesKnownError ctx r b) a fun _ _ => True := by
  unfold handlesKnownError
  split
  · refine .forM (fun _ => True) (fun dep controls a _ => ?_) trivial
    exact leads_checkKnownError routine block controls a
  · exact .pure trivial

/-- The classifier's names become known, and only known names are passed on. -/
theorem leads_reporters (a : Run σ) :
    Leads ctx routines (reporters ctx routines) a fun names b =>
      (∀ name ∈ names, name ∈ b.knowledge.reporters) ∧ b.summary = a.summary := by
  have learned : ∀ found, foundReporters? ctx routines a.summary = some found →
      Leads ctx routines (reporters.learn found) a fun names b =>
        (∀ name ∈ names, name ∈ b.knowledge.reporters) ∧ b.summary = a.summary := by
    intro found classified
    exact .of_ok rfl (.single (.learn classified)) ⟨fun _ known => known, rfl⟩
  unfold foundReporters? at learned
  refine .reading ?_
  dsimp only
  split
  · refine .pure ⟨fun name none => ?_, rfl⟩
    cases none
  · rename_i kind
    exact learned _ (by rw [kind])
  · rename_i accepts kind
    exact learned _ (by rw [kind])

/-- What the blocks without facts are compared with does not change while they are looked at. -/
structure Informed (names : SortedSet String) (successCodes : SortedSet Int)
    (facts : SortedMap Handle Fact) (a : Run σ) : Prop where
  names : ∀ name ∈ names, name ∈ a.knowledge.reporters
  successCodes : a.knowledge.successCodes = successCodes
  facts : a.summary.facts = facts

theorem Informed.addError {names : SortedSet String} {successCodes : SortedSet Int}
    {facts : SortedMap Handle Fact} {a : Run σ} (informed : Informed names successCodes facts a)
    (f : Handle) (d : Descriptor) : Informed names successCodes facts (a.addError f d) := by
  unfold Run.addError
  split
  · exact ⟨informed.names, informed.successCodes, informed.facts⟩
  · exact ⟨informed.names, informed.successCodes, informed.facts⟩

theorem leads_generalize {r : Routine} {b : Block} {names : SortedSet String}
    {successCodes : SortedSet Int} {facts : SortedMap Handle Fact} (routine : r ∈ routines)
    (block : b ∈ r.blocks) {a : Run σ} (informed : Informed names successCodes facts a) :
    Leads ctx routines (generalize ctx r b names successCodes) a fun _ c =>
      Informed names successCodes facts c := by
  refine .reading ?_
  split
  · exact .pure informed
  rename_i unclassified
  split
  · exact .pure informed
  rename_i code constant
  split
  · exact .pure informed
  rename_i noSuccess
  split
  · exact .pure informed
  · rename_i calls
    refine .of_ok (run_addError _ _ a) (.single ?_) (informed.addError _ _)
    exact .generalize routine block (by simpa using unclassified) constant
      (informed.successCodes ▸ noSuccess) informed.names fun none => calls none

/-- A code is kept only if the oracle has not found that the condition excludes it. -/
theorem leads_consistentCodes {condition : Formula} {codes : SortedSet Int} {a : Run σ}
    {place : Place} (kept : a.conditions.get? place = some (some condition)) :
    Leads ctx routines (consistentCodes ctx condition codes) a fun kept b =>
      a.Quiet b ∧ ∀ c ∈ kept, c ∈ codes ∧ Run.Permits ctx (some condition) c := by
  refine .bind (.filterM (fun a => a.conditions.get? place = some (some condition))
    (Run.Permits ctx (some condition)) ?_ kept) fun left b => ?_
  · intro c a kept
    refine .bind (leads_satisfiable? (.code c kept)) fun v b => ?_
    rintro ⟨quiet, verdict, given, -, rfl⟩
    refine .pure ⟨quiet.retains kept, quiet, fun keep => ?_⟩
    rintro _ ⟨⟩
    refine ⟨a.memory, verdict, given, ?_⟩
    rintro rfl
    exact of_decide_eq_true keep rfl
  · rintro ⟨quiet, permitted⟩
    refine .pure ⟨quiet, fun c hc => ?_⟩
    exact permitted c (SortedSet.mem_ofList.1 hc)

theorem leads_forwardFrom {r : Routine} {b : Block} {call callee f : Handle}
    {arguments : List Handle} {condition? : Option Formula} (routine : r ∈ routines)
    (block : b ∈ r.blocks)
    (returned : (r.blockReturn? b).map ctx.program.ignoreCasts = some call)
    (calls : ctx.program.op? call = some (.call callee arguments))
    (candidate : f ∈ callTargets ctx.program ctx.indirect callee) {a : Run σ}
    (unclassified : a.summary.factOf? b.handle = none)
    (kept : a.conditions.get? ⟨r.handle, b.handle, call⟩ = some condition?) :
    Leads ctx routines (forwardFrom ctx r call condition? f) a fun _ c =>
      c.summary.facts = a.summary.facts ∧
        c.conditions.get? ⟨r.handle, b.handle, call⟩ = some condition? := by
  unfold forwardFrom
  simp only [clausesOf_eq_ok, ofContract_ok, pure_bind, ofSet_bind]
  refine .reading ?_
  split
  · exact .pure ⟨rfl, kept⟩
  rename_i contract known
  split
  · rename_i integer
    have finish : ∀ codes a₁, a.Quiet a₁ →
        (∀ c ∈ codes, c ∈ contract.returns.codes ∧ Run.Permits ctx condition? c) →
        Leads ctx routines
          ((Returns.ofSet? .integer codes).elim (pure ()) fun returns =>
            addError r.handle ⟨contract.actions, returns, [⟨call, "transitive error"⟩]⟩)
          a₁ fun _ c => c.summary.facts = a.summary.facts ∧
            c.conditions.get? ⟨r.handle, b.handle, call⟩ = some condition? := by
      intro codes a₁ quiet permitted
      have unchanged : a₁.summary.facts = a.summary.facts := by rw [quiet.summary]
      have kept₁ := quiet.retains kept
      cases made : Returns.ofSet? .integer codes with
      | none => exact .pure ⟨unchanged, kept₁⟩
      | some returns =>
          obtain ⟨_, rfl⟩ := Returns.of_ofSet? made
          refine .of_ok (run_addError _ _ a₁) (.single ?_) ⟨unchanged, kept₁⟩
          refine .forward routine block (quiet.summary ▸ unclassified) returned calls candidate ?_
            integer rfl kept₁ permitted
          rw [quiet.summary]
          exact known
    split
    · refine finish _ a (.refl a) fun c hc => ⟨hc, ?_⟩
      rintro _ ⟨⟩
    · refine .bind (leads_consistentCodes kept) fun codes a₁ => ?_
      rintro ⟨quiet, permitted⟩
      exact finish codes a₁ quiet permitted
  · exact .pure ⟨rfl, kept⟩

theorem leads_forwardError {r : Routine} {b : Block} (routine : r ∈ routines)
    (block : b ∈ r.blocks) (a : Run σ) :
    Leads ctx routines (forwardError ctx r b) a fun _ c => c.summary.facts = a.summary.facts := by
  refine .reading ?_
  split
  · exact .pure rfl
  rename_i unclassified
  split
  · exact .pure rfl
  rename_i call returned
  split
  · rename_i callee arguments calls
    refine .bind (leads_condition? routine block call a) fun condition? a₁ => ?_
    rintro ⟨quiet, kept⟩
    have unchanged : a₁.summary.facts = a.summary.facts := by rw [quiet.summary]
    refine .weaken (.forM (fun c => c.summary.facts = a.summary.facts ∧
        c.conditions.get? ⟨r.handle, b.handle, call⟩ = some condition?) ?_ ⟨unchanged, kept⟩)
      fun _ _ inv => inv.1
    rintro f candidate c ⟨same, kept⟩
    have still : c.summary.factOf? b.handle = none := by
      rw [Summary.factOf?, same]
      simpa [Summary.factOf?] using unclassified
    refine .weaken (leads_forwardFrom routine block returned calls candidate still kept) ?_
    rintro _ d ⟨same', kept'⟩
    exact ⟨same'.trans same, kept'⟩
  · exact .pure rfl

theorem leads_byBlock {rule : Routine → Block → Inference σ Unit} (inv : Run σ → Prop)
    (turn : ∀ r ∈ routines, ∀ b ∈ r.blocks, ∀ a, inv a →
      Leads ctx routines (rule r b) a fun _ c => inv c) {a : Run σ} (ha : inv a) :
    Leads ctx routines (byBlock routines rule) a fun _ c => inv c :=
  .forM inv (fun r routine _ => .forM inv fun b block => turn r routine b block) ha

theorem leads_extract (a : Run σ) : Leads ctx routines (extract ctx routines) a fun _ _ => True := by
  refine .bind (leads_byBlock (fun _ => True) ?_ trivial) fun _ b _ =>
    leads_byBlock (fun _ => True) ?_ trivial
  · exact fun r routine b block a _ => leads_reportsSuccess routine block a
  · exact fun r routine b block a _ => leads_handlesKnownError routine block a

end Chains

/-- The part of a round that follows the extraction of facts. -/
def conclude (ctx : Context σ) (routines : List Routine) : Inference σ Unit := do
  let names ← reporters ctx routines
  let successCodes := (← get).knowledge.successCodes
  byBlock routines fun r b => generalize ctx r b names successCodes
  byBlock routines (forwardError ctx)

theorem round_eq (ctx : Context σ) (routines : List Routine) :
    round ctx routines = extract ctx routines >>= fun _ => conclude ctx routines := rfl

section Rounds

variable {ctx : Context σ} {routines : List Routine}

/-- Facts are found by extraction only. -/
theorem leads_conclude (a : Run σ) :
    Leads ctx routines (conclude ctx routines) a fun _ b =>
      b.summary.facts = a.summary.facts := by
  refine .bind (leads_reporters a) fun names b => ?_
  rintro ⟨known, same⟩
  have same : b.summary.facts = a.summary.facts := by rw [same]
  refine .reading (.bind (leads_byBlock
    (Informed names b.knowledge.successCodes a.summary.facts) ?_ ⟨known, rfl, same⟩) ?_)
  · exact fun r routine b block a informed => leads_generalize routine block informed
  · intro _ c informed
    refine leads_byBlock (fun d => d.summary.facts = a.summary.facts) ?_ informed.facts
    intro r routine b block d same
    exact .weaken (leads_forwardError routine block d) fun _ e same' => same'.trans same

/-- A round finds its facts first. -/
theorem exists_extract {a b : Run σ} (done : (round ctx routines).run a = (.ok (), b)) :
    ∃ m, (extract ctx routines).run a = (.ok (), m) ∧ Moves ctx routines m b ∧
      b.summary.facts = m.summary.facts := by
  rw [round_eq] at done
  obtain ⟨_, m, extracted, concluded⟩ := run_bind_ok done
  exact ⟨m, extracted, (leads_conclude m).of_run concluded⟩

/-- A round makes moves only. -/
theorem leads_round (a : Run σ) : Leads ctx routines (round ctx routines) a fun _ _ => True :=
  .bind (leads_extract a) fun _ b _ => .weaken (leads_conclude b) fun _ _ _ => trivial

end Rounds

end Inference

end ErrorContracts
