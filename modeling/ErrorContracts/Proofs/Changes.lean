import ErrorContracts.Proofs.Agreement
import ErrorContracts.Proofs.Moves

/-!
# Changes

What a round does to the summary, to what has been learned and to the log, as a function of these
three, where every question to the oracle is replaced by the truth.  It is given rule by rule: from
the findings so far a rule works out a list of changes about one function.
-/

namespace ErrorContracts

variable {σ : Type}

/-! ## Findings and their changes -/

/-- What a round is made for: the summary, what has been learned, and the log. -/
structure Findings where
  summary : Summary := {}
  knowledge : Knowledge := {}
  diagnostics : List Diagnostic := []

namespace Run

def findings (a : Run σ) : Findings := ⟨a.summary, a.knowledge, a.diagnostics⟩

@[simp]
theorem summary_findings (a : Run σ) : a.findings.summary = a.summary := rfl

@[simp]
theorem knowledge_findings (a : Run σ) : a.findings.knowledge = a.knowledge := rfl

end Run

/-- What a rule may do about one function. -/
inductive Change where
  | note (d : Diagnostic)
  | succeed (b : Handle) (code : Int)
  | withdraw (b : Handle) (codes : SortedSet Int)
  | report (b : Handle) (taken : SortedSet Handle) (d : Descriptor)
  | add (d : Descriptor)

/-- What a rule works out from the findings so far. -/
abbrev Deed := Findings → List Change

/-- The deeds of a rule at each block of each routine, in order. -/
abbrev Phase := Routine → Block → List Deed

namespace Findings

def setFact (s : Findings) (b : Handle) (fact : Fact) : Findings :=
  { s with summary := s.summary.setFact b fact }

def addError (s : Findings) (f : Handle) (d : Descriptor) : Findings :=
  { s with
    summary := s.summary.addDescriptor f d
    knowledge :=
      if d.isInteger then { s.knowledge with codes := s.knowledge.codes ∪ d.returns.codes }
      else s.knowledge }

def change (f : Handle) (s : Findings) : Change → Findings
  | .note d => { s with diagnostics := d.emit s.diagnostics }
  | .succeed b code =>
      { s.setFact b .success with knowledge := s.knowledge.addSuccess f code }
  | .withdraw b codes =>
      { s with summary := (s.summary.setFact b .success).retract f codes }
  | .report b taken d => (s.setFact b (.error taken)).addError f d
  | .add d => s.addError f d

end Findings

/-! ## What a change does to each part -/

namespace Change

def onDescriptors (ds : SortedSet Descriptor) : Change → SortedSet Descriptor
  | note _ => ds
  | succeed _ _ => ds
  | withdraw _ codes => SortedSet.ofList (ds.toList.filterMap (Summary.without codes))
  | report _ _ d => ds.insert d
  | add d => ds.insert d

/-- The block that a change marks, with the fact. -/
def fact? : Change → Option (Handle × Fact)
  | note _ => none
  | succeed b _ => some (b, .success)
  | withdraw b _ => some (b, .success)
  | report b taken _ => some (b, .error taken)
  | add _ => none

/-- The descriptor that a change adds. -/
def added? : Change → Option Descriptor
  | report _ _ d => some d
  | add d => some d
  | _ => none

def success? : Change → Option Int
  | succeed _ code => some code
  | _ => none

end Change

namespace Findings

theorem descriptorsOf_change (f g : Handle) (s : Findings) (c : Change) :
    (s.change f c).summary.descriptorsOf g =
      if g = f then c.onDescriptors (s.summary.descriptorsOf f) else s.summary.descriptorsOf g := by
  have same : s.summary.descriptorsOf g =
      if g = f then s.summary.descriptorsOf f else s.summary.descriptorsOf g := by
    split
    · rename_i same
      rw [same]
    · rfl
  cases c with
  | note d => exact same
  | succeed b code => exact same
  | withdraw b codes => exact Summary.descriptorsOf_retract _ f g codes
  | report b taken d => exact Summary.descriptorsOf_addDescriptor _ f g d
  | add d => exact Summary.descriptorsOf_addDescriptor _ f g d

theorem factOf?_change (f h : Handle) (s : Findings) (c : Change) :
    (s.change f c).summary.factOf? h =
      match c.fact? with
      | some (b, fact) => if h = b then some fact else s.summary.factOf? h
      | none => s.summary.factOf? h := by
  cases c with
  | note d => rfl
  | succeed b code => exact Summary.factOf?_setFact _ b h _
  | withdraw b codes =>
      rw [change, Summary.factOf?, Summary.facts_retract]
      exact Summary.factOf?_setFact _ b h _
  | report b taken d => exact Summary.factOf?_setFact _ b h _
  | add d => rfl

theorem successes_change (f : Handle) (s : Findings) (c : Change) :
    (s.change f c).knowledge.successes =
      match c.success? with
      | some code => (s.knowledge.addSuccess f code).successes
      | none => s.knowledge.successes := by
  cases c with
  | note d => rfl
  | succeed b code => rfl
  | withdraw b codes => rfl
  | report b taken d =>
      simp only [change, addError]
      split <;> rfl
  | add d =>
      simp only [change, addError]
      split <;> rfl

theorem mem_codes_change {f : Handle} {s : Findings} {c : Change} {code : Int} :
    code ∈ (s.change f c).knowledge.codes ↔
      code ∈ s.knowledge.codes ∨
        ∃ d, c.added? = some d ∧ d.isInteger = true ∧ code ∈ d.returns.codes := by
  have adding : ∀ (s : Findings) (d : Descriptor), code ∈ (s.addError f d).knowledge.codes ↔
      code ∈ s.knowledge.codes ∨ d.isInteger = true ∧ code ∈ d.returns.codes := by
    intro s d
    unfold addError
    split <;> simp_all
  cases c with
  | note d => simp [change, Change.added?]
  | succeed b code => simp [change, Change.added?, setFact, Knowledge.addSuccess]
  | withdraw b codes => simp [change, Change.added?]
  | report b taken d =>
      simpa [change, Change.added?, setFact] using adding (s.setFact b (.error taken)) d
  | add d => simpa [change, Change.added?] using adding s d

theorem reporters_change (f : Handle) (s : Findings) (c : Change) :
    (s.change f c).knowledge.reporters = s.knowledge.reporters := by
  cases c with
  | note d => rfl
  | succeed b code => rfl
  | withdraw b codes => rfl
  | report b taken d =>
      simp only [change, addError]
      split <;> rfl
  | add d =>
      simp only [change, addError]
      split <;> rfl

theorem mem_diagnostics_change {f : Handle} {s : Findings} {c : Change} {d : Diagnostic} :
    d ∈ (s.change f c).diagnostics ↔ d ∈ s.diagnostics ∨ c = .note d := by
  cases c with
  | note e => simp [change, Diagnostic.mem_emit, or_comm, eq_comm]
  | succeed b code => simp [change, setFact]
  | withdraw b codes => simp [change]
  | report b taken d => simp [change, addError, setFact]
  | add d => simp [change, addError]

/-! ## Changes one after the other -/

def apply (f : Handle) (s : Findings) (changes : List Change) : Findings :=
  changes.foldl (change f) s

theorem apply_append (f : Handle) (s : Findings) (changes more : List Change) :
    s.apply f (changes ++ more) = (s.apply f changes).apply f more :=
  List.foldl_append

/-- Added descriptors leave the facts alone. -/
theorem facts_apply_add {f : Handle} {s : Findings} {changes : List Change}
    (adding : ∀ c ∈ changes, ∃ d, c = .add d) :
    (s.apply f changes).summary.facts = s.summary.facts := by
  induction changes generalizing s with
  | nil => rfl
  | cons c changes ih =>
      obtain ⟨⟨d, rfl⟩, rest⟩ := List.forall_mem_cons.1 adding
      exact ih rest

theorem successes_apply {f : Handle} {s : Findings} {changes : List Change}
    (quiet : ∀ c ∈ changes, c.success? = none) :
    (s.apply f changes).knowledge.successes = s.knowledge.successes := by
  induction changes generalizing s with
  | nil => rfl
  | cons c changes ih =>
      obtain ⟨head, tail⟩ := List.forall_mem_cons.1 quiet
      refine (ih tail).trans ?_
      rw [successes_change, head]

/-- Does some deeds one after the other, each with what it finds. -/
def perform (f : Handle) (s : Findings) (deeds : List Deed) : Findings :=
  deeds.foldl (fun s deed => s.apply f (deed s)) s

theorem perform_cons (f : Handle) (s : Findings) (deed : Deed) (deeds : List Deed) :
    s.perform f (deed :: deeds) = (s.apply f (deed s)).perform f deeds := rfl

theorem perform_append (f : Handle) (s : Findings) (deeds more : List Deed) :
    s.perform f (deeds ++ more) = (s.perform f deeds).perform f more :=
  List.foldl_append

/-- Deeds without changes do nothing. -/
theorem perform_of_nil {f : Handle} {s : Findings} {deeds : List Deed}
    (idle : ∀ deed ∈ deeds, deed s = []) : s.perform f deeds = s := by
  induction deeds with
  | nil => rfl
  | cons deed deeds ih =>
      obtain ⟨head, tail⟩ := List.forall_mem_cons.1 idle
      rw [perform_cons, head]
      exact ih tail

/-- What every deed preserves, all of them together preserve. -/
theorem perform_induction {f : Handle} {deeds : List Deed} (inv : Findings → Prop)
    (keeps : ∀ deed ∈ deeds, ∀ s, inv s → inv (s.apply f (deed s))) {s : Findings} (start : inv s) :
    inv (s.perform f deeds) := by
  induction deeds generalizing s with
  | nil => exact start
  | cons deed deeds ih =>
      obtain ⟨head, tail⟩ := List.forall_mem_cons.1 keeps
      exact ih tail (head s start)

def visit (phase : Phase) (s : Findings) (r : Routine) : Findings :=
  s.perform r.handle (r.blocks.flatMap (phase r))

def sweep (phase : Phase) (s : Findings) (routines : List Routine) : Findings :=
  routines.foldl (visit phase) s

theorem sweep_induction {phase : Phase} {routines : List Routine} (inv : Findings → Prop)
    (keeps : ∀ r ∈ routines, ∀ b ∈ r.blocks, ∀ deed ∈ phase r b, ∀ s, inv s →
      inv (s.apply r.handle (deed s))) {s : Findings} (start : inv s) :
    inv (s.sweep phase routines) := by
  induction routines generalizing s with
  | nil => exact start
  | cons r routines ih =>
      obtain ⟨head, tail⟩ := List.forall_mem_cons.1 keeps
      refine ih tail (perform_induction inv (fun deed listed => ?_) start)
      obtain ⟨b, inside, listed⟩ := List.mem_flatMap.1 listed
      exact head b inside deed listed

end Findings

/-! ## The rules as deeds -/

section Deeds

variable (ctx : Context σ)

/-- What is noted where the candidates of a call are compared. -/
def candidateNotes (s : Summary) (candidates : List Handle) (call callee : Handle) : List Change :=
  match candidates.mapM fun f => Clause.errorCodes? (knownClauses ctx s f) with
  | some (first :: others) =>
      if others.all fun codes => codes = first then []
      else if others.any fun codes => codes.disjoint first then
        [.note (Inference.mismatch ctx.program call callee)]
      else []
  | _ => []

/-- What is noted where a branch is looked at for a check. -/
def checkNotes (s : Summary) (t : Terminator) : List Change :=
  match (ctx.program.comparison? t).bind (Inference.checkedCall? ctx.program) with
  | none => []
  | some (call, callee) =>
      candidateNotes ctx s (callTargets ctx.program ctx.indirect callee) call callee

/-- Notes go to the log only. -/
theorem apply_checkNotes (f : Handle) (s : Findings) (t : Summary) (branch : Terminator) :
    ∃ diagnostics, s.apply f (checkNotes ctx t branch) = { s with diagnostics } := by
  unfold checkNotes candidateNotes
  split
  · exact ⟨_, rfl⟩
  · split
    · split
      · exact ⟨_, rfl⟩
      · split
        · exact ⟨_, rfl⟩
        · exact ⟨_, rfl⟩
    · exact ⟨_, rfl⟩

/-- The call that a branch checks, and the question whether a block is reached with an error of it. -/
def question? (s : Summary) (r : Routine) (b : Block) (t : Terminator) :
    Option (Handle × Formula) :=
  (checkOf? ctx s t).bind fun (target, isError) =>
    (Routine.pathCondition? ctx.program r b.handle target).map fun facts =>
      (target, Formula.conjoin [isError, facts])

def successChanges (r : Routine) (b : Block) : Deed := fun s =>
  match r.singlePredecessor? b, Routine.uniformConstant? ctx.program r b with
  | some p, some code =>
      checkNotes ctx s.summary p.terminator ++
        match question? ctx s.summary r b p.terminator with
        | some (_, question) => if question.satisfiable then [] else [.succeed b.handle code]
        | none => []
  | _, _ => []

def successPhase : Phase := fun r b => [successChanges ctx r b]

/-- What becomes of a block that returns a constant where an error of `target` may pass. -/
def outcome (k : Knowledge) (r : Routine) (b dep : Block) (target : Handle) : List Change :=
  match Routine.blockDescriptor? ctx.program r b with
  | none => []
  | some (d, taken) =>
      if k.fitsSuccess r.handle d then [.withdraw b.handle d.returns.codes]
      else
        [.report b.handle taken
          { d with
            witnesses := [⟨target, "check error return"⟩, ⟨dep.exit, "return error code"⟩] }]

def knownChanges (r : Routine) (b dep : Block) : Deed := fun s =>
  checkNotes ctx s.summary dep.terminator ++
    match question? ctx s.summary r b dep.terminator with
    | some (target, question) =>
        if question.satisfiable then outcome ctx s.knowledge r b dep target else []
    | none => []

def knownPhase : Phase := fun r b =>
  if (Routine.returnedConstant? ctx.program r b).isSome then
    (r.allControllers b.handle).map (knownChanges ctx r b)
  else []

def generalChanges (names : SortedSet String) (successCodes : SortedSet Int) (r : Routine)
    (b : Block) : Deed := fun s =>
  if (s.summary.factOf? b.handle).isSome then []
  else
    match Routine.returnedConstant? ctx.program r b with
    | none => []
    | some code =>
        if code ∈ successCodes then []
        else
          match Inference.callsTo ctx.program names b with
          | [] => []
          | _ => [.add (Routine.generalized ctx.program r b names code)]

def generalPhase (names : SortedSet String) (successCodes : SortedSet Int) : Phase := fun r b =>
  [generalChanges ctx names successCodes r b]

/-- The codes that a condition on the result does not rule out. -/
def permitted (codes : SortedSet Int) : Option Formula → SortedSet Int
  | none => codes
  | some condition =>
      codes.filter fun c =>
        (Formula.conjoin [.relation .eq .result (.int c), condition]).satisfiable

def forwardChanges (r : Routine) (b : Block) (call callee : Handle) : Deed := fun s =>
  if (s.summary.factOf? b.handle).isSome then []
  else
    match Clause.contract? (knownClauses ctx s.summary callee) with
    | none => []
    | some contract =>
        if contract.returns.isInteger then
          match Returns.ofSet? .integer (permitted contract.returns.codes
              (Routine.pathCondition? ctx.program r b.handle call)) with
          | none => []
          | some returns => [.add ⟨contract.actions, returns, [⟨call, "transitive error"⟩]⟩]
        else []

/-- The call whose result a block returns, and the functions it may reach. -/
def returnedCall? (r : Routine) (b : Block) : Option (Handle × List Handle) :=
  ((r.blockReturn? b).map ctx.program.ignoreCasts).bind fun call =>
    match ctx.program.op? call with
    | some (.call callee _) => some (call, callTargets ctx.program ctx.indirect callee)
    | _ => none

def forwardPhase : Phase := fun r b =>
  match returnedCall? ctx r b with
  | some (call, candidates) => candidates.map (forwardChanges ctx r b call)
  | none => []

/-! ## What the rules can do -/

theorem mem_checkNotes {s : Summary} {t : Terminator} {c : Change}
    (listed : c ∈ checkNotes ctx s t) : ∃ d, c = .note d := by
  unfold checkNotes candidateNotes at listed
  split at listed
  · cases listed
  · split at listed
    · split at listed
      · cases listed
      · split at listed
        · exact ⟨_, List.mem_singleton.1 listed⟩
        · cases listed
    · cases listed

theorem mem_successChanges {s : Findings} {r : Routine} {b : Block} {c : Change}
    (listed : c ∈ successChanges ctx r b s) :
    (∃ d, c = .note d) ∨ ∃ code, c = .succeed b.handle code := by
  unfold successChanges at listed
  split at listed
  · rcases List.mem_append.1 listed with noted | found
    · exact .inl (mem_checkNotes ctx noted)
    · split at found
      · split at found
        · cases found
        · exact .inr ⟨_, List.mem_singleton.1 found⟩
      · cases found
  · cases listed

/-- A checked block that returns a constant is withdrawn or reported, by its fit. -/
theorem mem_knownChanges {s : Findings} {r : Routine} {b dep : Block} {c : Change}
    (listed : c ∈ knownChanges ctx r b dep s) :
    (∃ d, c = .note d) ∨
      ∃ d taken, Routine.blockDescriptor? ctx.program r b = some (d, taken) ∧
        (s.knowledge.fitsSuccess r.handle d = true ∧ c = .withdraw b.handle d.returns.codes ∨
          s.knowledge.fitsSuccess r.handle d = false ∧
            ∃ witnesses, c = .report b.handle taken { d with witnesses }) := by
  rcases List.mem_append.1 listed with noted | found
  · exact .inl (mem_checkNotes ctx noted)
  · right
    split at found
    · split at found
      · unfold outcome at found
        split at found
        · cases found
        · rename_i d taken described
          refine ⟨d, taken, described, ?_⟩
          split at found
          · rename_i fits
            exact .inl ⟨fits, List.mem_singleton.1 found⟩
          · rename_i unfit
            exact .inr ⟨by simpa using unfit, _, List.mem_singleton.1 found⟩
      · cases found
    · cases found

theorem mem_generalChanges {names : SortedSet String} {successCodes : SortedSet Int}
    {s : Findings} {r : Routine} {b : Block} {c : Change}
    (listed : c ∈ generalChanges ctx names successCodes r b s) :
    ∃ code, code ∉ successCodes ∧ c = .add (Routine.generalized ctx.program r b names code) := by
  unfold generalChanges at listed
  split at listed
  · cases listed
  split at listed
  · cases listed
  split at listed
  · cases listed
  rename_i noSuccess
  split at listed
  · cases listed
  · exact ⟨_, noSuccess, List.mem_singleton.1 listed⟩

theorem mem_forwardChanges {s : Findings} {r : Routine} {b : Block} {call callee : Handle}
    {c : Change} (listed : c ∈ forwardChanges ctx r b call callee s) :
    s.summary.factOf? b.handle = none ∧
      ∃ contract returns, Clause.contract? (knownClauses ctx s.summary callee) = some contract ∧
        contract.returns.isInteger = true ∧
        Returns.ofSet? .integer (permitted contract.returns.codes
          (Routine.pathCondition? ctx.program r b.handle call)) = some returns ∧
        c = .add ⟨contract.actions, returns, [⟨call, "transitive error"⟩]⟩ := by
  unfold forwardChanges at listed
  split at listed
  · cases listed
  rename_i unclassified
  split at listed
  · cases listed
  rename_i contract known
  split at listed
  · rename_i integer
    split at listed
    · cases listed
    · rename_i returns nonempty
      exact ⟨by simpa using unclassified, contract, returns, known, integer, nonempty,
        List.mem_singleton.1 listed⟩
  · cases listed

theorem success?_knownChanges {s : Findings} {r : Routine} {b dep : Block} :
    ∀ c ∈ knownChanges ctx r b dep s, c.success? = none := by
  intro c listed
  rcases mem_knownChanges ctx listed with ⟨_, rfl⟩ | ⟨_, _, -, ⟨-, rfl⟩ | ⟨-, _, rfl⟩⟩
  · rfl
  · rfl
  · rfl

theorem adds_generalChanges {names : SortedSet String} {successCodes : SortedSet Int}
    {s : Findings} {r : Routine} {b : Block} :
    ∀ c ∈ generalChanges ctx names successCodes r b s, ∃ d, c = .add d := by
  intro c listed
  obtain ⟨_, -, rfl⟩ := mem_generalChanges ctx listed
  exact ⟨_, rfl⟩

theorem adds_forwardChanges {s : Findings} {r : Routine} {b : Block} {call callee : Handle} :
    ∀ c ∈ forwardChanges ctx r b call callee s, ∃ d, c = .add d := by
  intro c listed
  obtain ⟨-, _, _, -, -, -, rfl⟩ := mem_forwardChanges ctx listed
  exact ⟨_, rfl⟩

end Deeds

namespace Findings

/-- Learns the names of reporting functions. -/
def learn (ctx : Context σ) (routines : List Routine) (s : Findings) : Findings :=
  match foundReporters? ctx routines s.summary with
  | none => s
  | some found =>
      { s with knowledge := { s.knowledge with reporters := s.knowledge.reporters ∪ found } }

/-- The names that blocks are searched for. -/
def names (ctx : Context σ) (s : Findings) : SortedSet String :=
  match ctx.options.classifier with
  | .none => ∅
  | _ => s.knowledge.reporters

def extract (ctx : Context σ) (routines : List Routine) (s : Findings) : Findings :=
  (s.sweep (successPhase ctx) routines).sweep (knownPhase ctx) routines

def conclude (ctx : Context σ) (routines : List Routine) (s : Findings) : Findings :=
  (s.sweep (generalPhase ctx (s.names ctx) s.knowledge.successCodes) routines).sweep
    (forwardPhase ctx) routines

def round (ctx : Context σ) (routines : List Routine) (s : Findings) : Findings :=
  ((s.extract ctx routines).learn ctx routines).conclude ctx routines

/-! ## What a round leaves alone -/

variable {ctx : Context σ} {routines : List Routine} {s : Findings}

theorem learn_parts :
    (s.learn ctx routines).summary = s.summary ∧
      (s.learn ctx routines).knowledge.successes = s.knowledge.successes := by
  unfold learn
  split
  · exact ⟨rfl, rfl⟩
  · exact ⟨rfl, rfl⟩

theorem reporters_apply (f : Handle) (s : Findings) (changes : List Change) :
    (s.apply f changes).knowledge.reporters = s.knowledge.reporters := by
  induction changes generalizing s with
  | nil => rfl
  | cons c changes ih => exact (ih _).trans (reporters_change f s c)

theorem reporters_sweep (phase : Phase) (s : Findings) (routines : List Routine) :
    (s.sweep phase routines).knowledge.reporters = s.knowledge.reporters :=
  sweep_induction (fun t => t.knowledge.reporters = s.knowledge.reporters)
    (fun _ _ _ _ _ _ t same => (reporters_apply _ t _).trans same) rfl

/-- The last two sweeps of a round only add descriptors. -/
theorem conclude_induction (inv : Findings → Prop)
    (adding : ∀ (t : Findings) (f : Handle) (changes : List Change),
      (∀ change ∈ changes, ∃ d, change = .add d) → inv t → inv (t.apply f changes))
    (start : inv s) : inv (s.conclude ctx routines) := by
  refine sweep_induction inv ?_ (sweep_induction inv ?_ start)
  · intro r _ b _ deed listed t holds
    unfold forwardPhase at listed
    split at listed
    · obtain ⟨callee, -, rfl⟩ := List.mem_map.1 listed
      exact adding t _ _ (adds_forwardChanges ctx) holds
    · cases listed
  · intro r _ b _ deed listed t holds
    obtain rfl := List.mem_singleton.1 listed
    exact adding t _ _ (adds_generalChanges ctx) holds

theorem successes_conclude :
    (s.conclude ctx routines).knowledge.successes = s.knowledge.successes := by
  refine conclude_induction (fun t => t.knowledge.successes = s.knowledge.successes) ?_ rfl
  intro t f changes adds same
  refine (successes_apply fun change listed => ?_).trans same
  obtain ⟨d, rfl⟩ := adds change listed
  rfl

theorem facts_conclude : (s.conclude ctx routines).summary.facts = s.summary.facts :=
  conclude_induction (fun t => t.summary.facts = s.summary.facts)
    (fun _ _ _ adds same => (facts_apply_add adds).trans same) rfl

end Findings

end ErrorContracts
