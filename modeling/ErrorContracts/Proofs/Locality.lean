import ErrorContracts.Proofs.Changes
import ErrorContracts.Proofs.Vocabulary

/-!
# What a visit reads and changes

The rules at the blocks of a routine read the descriptors of the functions whose results it compares
or returns, which of its own blocks have facts, and its own success codes.  They change what is known
of the routine alone, and beyond that they only add to the codes and to the log.  So the visits of two
routines neither of which reads the other can be swapped, and a sweep gives the same result in every
order in which no routine stands in front of one that it reads.
-/

namespace ErrorContracts

variable {σ : Type}

/-! ## What is read -/

/-- The calls whose results a routine compares or returns, with their callees. -/
def Routine.usedCalls (ctx : Context σ) (r : Routine) : List (Handle × Handle) :=
  r.blocks.flatMap fun b =>
    ((ctx.program.comparison? b.terminator).bind (Inference.checkedCall? ctx.program)).toList ++
      (((r.blockReturn? b).map ctx.program.ignoreCasts).bind fun call =>
        match ctx.program.op? call with
        | some (.call callee _) => some (call, callee)
        | _ => none).toList

/-- The function is one that a call may reach whose result the routine uses. -/
def Routine.Reads (ctx : Context σ) (r : Routine) (f : Handle) : Prop :=
  ctx.program.isFunction f = true ∧
    ∃ used ∈ r.usedCalls ctx, f ∈ callTargets ctx.program ctx.indirect used.2

/-- Two findings that look the same to the rules at the blocks of a routine. -/
structure Findings.SameView (ctx : Context σ) (r : Routine) (s t : Findings) : Prop where
  descriptors : ∀ f, r.Reads ctx f → s.summary.descriptorsOf f = t.summary.descriptorsOf f
  classified : ∀ b ∈ r.blocks,
    (s.summary.factOf? b.handle).isSome = (t.summary.factOf? b.handle).isSome
  successes : s.knowledge.successCodesOf r.handle = t.knowledge.successCodesOf r.handle

/--
A phase whose rules read no more than the view of their routine, and which marks no block but the one
it is at.
-/
structure Phase.Local (ctx : Context σ) (phase : Phase) : Prop where
  reads : ∀ {r : Routine} {b : Block}, b ∈ r.blocks → ∀ deed ∈ phase r b, ∀ {s t : Findings},
    s.SameView ctx r t → deed s = deed t
  marks : ∀ {r : Routine} {b : Block}, ∀ deed ∈ phase r b, ∀ s, ∀ c ∈ deed s,
    ∀ h fact, c.fact? = some (h, fact) → h = b.handle

section Views

variable {ctx : Context σ} {r : Routine} {s t : Findings}

theorem Routine.mem_usedCalls_of_checked {b : Block} (inside : b ∈ r.blocks) {call callee : Handle}
    (checked : (ctx.program.comparison? b.terminator).bind (Inference.checkedCall? ctx.program) =
      some (call, callee)) : (call, callee) ∈ r.usedCalls ctx := by
  refine List.mem_flatMap.2 ⟨b, inside, List.mem_append.2 (.inl ?_)⟩
  simp [checked]

theorem Routine.mem_usedCalls_of_returned {b : Block} (inside : b ∈ r.blocks) {call : Handle}
    {candidates : List Handle} (returned : returnedCall? ctx r b = some (call, candidates)) :
    ∃ callee, (call, callee) ∈ r.usedCalls ctx ∧
      candidates = callTargets ctx.program ctx.indirect callee := by
  obtain ⟨call', value, isCall⟩ := Option.bind_eq_some_iff.1 returned
  split at isCall
  · rename_i callee arguments op
    cases isCall
    refine ⟨callee, List.mem_flatMap.2 ⟨b, inside, List.mem_append.2 (.inr ?_)⟩, rfl⟩
    rw [value]
    simp [op]
  · cases isCall

theorem Findings.SameView.knownClauses_eq (same : s.SameView ctx r t) {call callee f : Handle}
    (uses : (call, callee) ∈ r.usedCalls ctx)
    (target : f ∈ callTargets ctx.program ctx.indirect callee) :
    knownClauses ctx s.summary f = knownClauses ctx t.summary f := by
  unfold knownClauses
  split
  · rename_i defined
    rw [Summary.merged?, Summary.merged?, same.descriptors f ⟨defined, _, uses, target⟩]
  · rfl

theorem Findings.SameView.errorCodes_eq (same : s.SameView ctx r t) {call callee : Handle}
    (uses : (call, callee) ∈ r.usedCalls ctx) :
    ((callTargets ctx.program ctx.indirect callee).mapM fun f =>
        Clause.errorCodes? (knownClauses ctx s.summary f)) =
      (callTargets ctx.program ctx.indirect callee).mapM fun f =>
        Clause.errorCodes? (knownClauses ctx t.summary f) := by
  have known : ∀ f ∈ callTargets ctx.program ctx.indirect callee,
      Clause.errorCodes? (knownClauses ctx s.summary f) =
        Clause.errorCodes? (knownClauses ctx t.summary f) :=
    fun f target => by rw [same.knownClauses_eq uses target]
  generalize callTargets ctx.program ctx.indirect callee = targets at known
  induction targets with
  | nil => rfl
  | cons f targets ih =>
      obtain ⟨first, others⟩ := List.forall_mem_cons.1 known
      rw [List.mapM_cons, List.mapM_cons, first, ih others]

theorem Findings.SameView.checkNotes_eq (same : s.SameView ctx r t) {b : Block}
    (inside : b ∈ r.blocks) :
    checkNotes ctx s.summary b.terminator = checkNotes ctx t.summary b.terminator := by
  unfold checkNotes
  split
  · rfl
  · rename_i call callee checked
    rw [candidateNotes, candidateNotes,
      same.errorCodes_eq (Routine.mem_usedCalls_of_checked inside checked)]

theorem Findings.SameView.checkOf?_eq (same : s.SameView ctx r t) {b : Block} (inside : b ∈ r.blocks) :
    checkOf? ctx s.summary b.terminator = checkOf? ctx t.summary b.terminator := by
  unfold checkOf?
  refine Option.bind_congr fun ⟨call, callee⟩ checked => ?_
  dsimp only
  rw [agreedCodes?, agreedCodes?,
    same.errorCodes_eq (Routine.mem_usedCalls_of_checked inside checked)]

theorem Findings.SameView.question?_eq (same : s.SameView ctx r t) {b dep : Block}
    (inside : dep ∈ r.blocks) :
    question? ctx s.summary r b dep.terminator = question? ctx t.summary r b dep.terminator := by
  rw [question?, question?, same.checkOf?_eq inside]

theorem Routine.mem_blocks_of_singlePredecessor {b p : Block} (behind : r.singlePredecessor? b = some p) :
    p ∈ r.blocks := by
  have listed : p ∈ r.predecessors b := by
    unfold singlePredecessor? at behind
    split at behind
    · rename_i single
      cases behind
      simp [single]
    · cases behind
  obtain ⟨h, -, found⟩ := List.mem_filterMap.1 listed
  exact List.mem_of_find?_eq_some found

theorem local_successPhase : (successPhase ctx).Local ctx where
  reads inside deed listed s t same := by
    obtain rfl := List.mem_singleton.1 listed
    unfold successChanges
    split
    · rename_i p code behind constant
      have before := Routine.mem_blocks_of_singlePredecessor behind
      rw [same.checkNotes_eq before, same.question?_eq before]
    · rfl
  marks deed listed s c made h fact marked := by
    obtain rfl := List.mem_singleton.1 listed
    rcases mem_successChanges ctx made with ⟨_, rfl⟩ | ⟨_, rfl⟩
    · cases marked
    · cases marked
      rfl

theorem local_knownPhase : (knownPhase ctx).Local ctx where
  reads inside deed listed s t same := by
    unfold knownPhase at listed
    split at listed
    · obtain ⟨dep, controls, rfl⟩ := List.mem_map.1 listed
      have before := mem_blocks_of_allControllers controls
      unfold knownChanges outcome Knowledge.fitsSuccess
      rw [same.checkNotes_eq before, same.question?_eq before, same.successes]
    · cases listed
  marks deed listed s c made h fact marked := by
    unfold knownPhase at listed
    split at listed
    · obtain ⟨dep, controls, rfl⟩ := List.mem_map.1 listed
      rcases mem_knownChanges ctx made with ⟨_, rfl⟩ | ⟨_, _, -, ⟨-, rfl⟩ | ⟨-, _, rfl⟩⟩
      · cases marked
      · cases marked
        rfl
      · cases marked
        rfl
    · cases listed

theorem local_generalPhase (names : SortedSet String) (successCodes : SortedSet Int) :
    (generalPhase ctx names successCodes).Local ctx where
  reads inside deed listed s t same := by
    obtain rfl := List.mem_singleton.1 listed
    rw [generalChanges, generalChanges, same.classified _ inside]
  marks deed listed s c made h fact marked := by
    obtain rfl := List.mem_singleton.1 listed
    obtain ⟨_, rfl⟩ := adds_generalChanges ctx c made
    cases marked

theorem local_forwardPhase : (forwardPhase ctx).Local ctx where
  reads {r b} inside deed listed s t same := by
    unfold forwardPhase at listed
    split at listed
    · rename_i call candidates returned
      obtain ⟨f, candidate, rfl⟩ := List.mem_map.1 listed
      obtain ⟨callee, uses, rfl⟩ := Routine.mem_usedCalls_of_returned inside returned
      rw [forwardChanges, forwardChanges, same.classified _ inside, same.knownClauses_eq uses candidate]
    · cases listed
  marks deed listed s c made h fact marked := by
    unfold forwardPhase at listed
    split at listed
    · obtain ⟨f, candidate, rfl⟩ := List.mem_map.1 listed
      obtain ⟨_, rfl⟩ := adds_forwardChanges ctx c made
      cases marked
    · cases listed

end Views

/-! ## What is changed -/

namespace Change

/-- What a change makes of the entry of its function in the table of descriptors. -/
def onEntry (entry : Option (SortedSet Descriptor)) : Change → Option (SortedSet Descriptor)
  | note _ => entry
  | succeed _ _ => entry
  | withdraw _ codes => entry.map fun ds => SortedSet.ofList (ds.toList.filterMap (Summary.without codes))
  | report _ _ d => some ((entry.getD ∅).insert d)
  | add d => some ((entry.getD ∅).insert d)

/-- What a change makes of the entry of its function in the table of success codes. -/
def onSuccesses (entry : Option (SortedSet Int)) (c : Change) : Option (SortedSet Int) :=
  match c.success? with
  | some code => some ((entry.getD ∅).insert code)
  | none => entry

end Change

namespace Findings

theorem get?_descriptors_change (f g : Handle) (s : Findings) (c : Change) :
    (s.change f c).summary.descriptors.get? g =
      if g = f then c.onEntry (s.summary.descriptors.get? f) else s.summary.descriptors.get? g := by
  have same : s.summary.descriptors.get? g =
      if g = f then s.summary.descriptors.get? f else s.summary.descriptors.get? g := by
    split
    · rename_i same
      rw [same]
    · rfl
  cases c with
  | note d => exact same
  | succeed b code => exact same
  | withdraw b codes =>
      simp only [change, Summary.retract, Summary.setFact, Change.onEntry]
      split
      · rename_i unknown
        rw [unknown] at same ⊢
        exact same
      · rename_i ds known
        rw [SortedMap.get?_insert, known]
        rfl
  | report b taken d => exact SortedMap.get?_insert ..
  | add d => exact SortedMap.get?_insert ..

theorem get?_successes_change (f g : Handle) (s : Findings) (c : Change) :
    (s.change f c).knowledge.successes.get? g =
      if g = f then c.onSuccesses (s.knowledge.successes.get? f) else s.knowledge.successes.get? g := by
  rw [successes_change, Change.onSuccesses]
  cases c.success? with
  | some code => exact SortedMap.get?_insert ..
  | none =>
      dsimp only
      split
      · rename_i same
        rw [same]
      · rfl

/-- The same summary, the same knowledge, and the same entries in the log. -/
structure Same (s t : Findings) : Prop where
  summary : s.summary = t.summary
  knowledge : s.knowledge = t.knowledge
  diagnostics : ∀ d, d ∈ s.diagnostics ↔ d ∈ t.diagnostics

namespace Same

variable {s t u : Findings}

theorem refl (s : Findings) : s.Same s := ⟨rfl, rfl, fun _ => Iff.rfl⟩

theorem symm (same : s.Same t) : t.Same s :=
  ⟨same.summary.symm, same.knowledge.symm, fun d => (same.diagnostics d).symm⟩

theorem trans (first : s.Same t) (second : t.Same u) : s.Same u :=
  ⟨first.summary.trans second.summary, first.knowledge.trans second.knowledge,
    fun d => (first.diagnostics d).trans (second.diagnostics d)⟩

theorem change (same : s.Same t) (f : Handle) (c : Change) : (s.change f c).Same (t.change f c) := by
  obtain ⟨summary, knowledge, log⟩ := s
  obtain ⟨summary', knowledge', log'⟩ := t
  obtain ⟨rfl, rfl, logs⟩ := same
  refine ⟨?_, ?_, fun d => ?_⟩
  · cases c <;> rfl
  · cases c <;> rfl
  · rw [mem_diagnostics_change, mem_diagnostics_change, logs d]

theorem apply (same : s.Same t) (f : Handle) (changes : List Change) :
    (s.apply f changes).Same (t.apply f changes) := by
  induction changes generalizing s t with
  | nil => exact same
  | cons c changes ih => exact ih (same.change f c)

theorem sameView {ctx : Context σ} {r : Routine} (same : s.Same t) : s.SameView ctx r t := by
  refine ⟨fun f _ => ?_, fun b _ => ?_, ?_⟩
  · rw [same.summary]
  · rw [same.summary]
  · rw [same.knowledge]

end Same

/-- Changes about two functions that mark no block in common can be swapped. -/
theorem change_comm {f g : Handle} (other : f ≠ g) {c d : Change}
    (apart : ∀ h fact h' fact', c.fact? = some (h, fact) → d.fact? = some (h', fact') → h ≠ h')
    (s : Findings) : ((s.change f c).change g d).Same ((s.change g d).change f c) := by
  have entries : ((s.change f c).change g d).summary.descriptors =
      ((s.change g d).change f c).summary.descriptors := by
    refine SortedMap.ext fun h => ?_
    simp only [get?_descriptors_change]
    grind
  have facts : ((s.change f c).change g d).summary.facts =
      ((s.change g d).change f c).summary.facts := by
    refine SortedMap.ext fun h => ?_
    change Summary.factOf? _ h = Summary.factOf? _ h
    simp only [factOf?_change]
    cases first : c.fact? with
    | none => rfl
    | some mark =>
        cases second : d.fact? with
        | none => rfl
        | some mark' =>
            have unequal := apart mark.1 mark.2 mark'.1 mark'.2 first second
            grind
  have successes : ((s.change f c).change g d).knowledge.successes =
      ((s.change g d).change f c).knowledge.successes := by
    refine SortedMap.ext fun h => ?_
    simp only [get?_successes_change]
    grind
  have codes : ((s.change f c).change g d).knowledge.codes =
      ((s.change g d).change f c).knowledge.codes := by
    refine SortedSet.ext fun code => ?_
    simp only [mem_codes_change]
    exact or_right_comm
  have reporters : ((s.change f c).change g d).knowledge.reporters =
      ((s.change g d).change f c).knowledge.reporters := by
    simp only [reporters_change]
  refine ⟨congrArg₂ Summary.mk entries facts, ?_, fun e => ?_⟩
  · change Knowledge.mk _ _ _ = Knowledge.mk _ _ _
    rw [codes, reporters, successes]
  · simp only [mem_diagnostics_change]
    exact or_right_comm

/-- The changes mark blocks of the routine only. -/
def Stays (r : Routine) (changes : List Change) : Prop :=
  ∀ c ∈ changes, ∀ h fact, c.fact? = some (h, fact) → ∃ b ∈ r.blocks, b.handle = h

end Findings

/-- Two routines of different functions, without a common block. -/
structure Routine.Apart (r r' : Routine) : Prop where
  handles : r.handle ≠ r'.handle
  blocks : ∀ b ∈ r.blocks, ∀ b' ∈ r'.blocks, b.handle ≠ b'.handle

theorem Routine.Apart.symm {r r' : Routine} (apart : r.Apart r') : r'.Apart r :=
  ⟨apart.handles.symm, fun b inside b' inside' => (apart.blocks b' inside' b inside).symm⟩

namespace Findings

theorem apply_comm {r r' : Routine} (apart : r.Apart r') {changes changes' : List Change}
    (stays : Stays r changes) (stays' : Stays r' changes') (s : Findings) :
    ((s.apply r.handle changes).apply r'.handle changes').Same
      ((s.apply r'.handle changes').apply r.handle changes) := by
  have unequal : ∀ c ∈ changes, ∀ c' ∈ changes', ∀ h fact h' fact', c.fact? = some (h, fact) →
      c'.fact? = some (h', fact') → h ≠ h' := by
    intro c listed c' listed' h fact h' fact' marked marked'
    obtain ⟨b, inside, rfl⟩ := stays c listed h fact marked
    obtain ⟨b', inside', rfl⟩ := stays' c' listed' h' fact' marked'
    exact apart.blocks b inside b' inside'
  clear stays stays'
  induction changes generalizing s with
  | nil => exact .refl _
  | cons c changes ih =>
      obtain ⟨head, tail⟩ := List.forall_mem_cons.1 unequal
      have past : ((s.change r.handle c).apply r'.handle changes').Same
          ((s.apply r'.handle changes').change r.handle c) := by
        clear ih tail unequal
        induction changes' generalizing s with
        | nil => exact .refl _
        | cons c' changes' ih =>
            obtain ⟨head', tail'⟩ := List.forall_mem_cons.1 head
            exact ((change_comm apart.handles head' s).apply _ changes').trans (ih _ tail')
      exact (ih _ tail).trans (past.apply _ changes)

/-! ## Visits -/

/-- The changes that some deeds make one after the other. -/
def performed (f : Handle) : Findings → List Deed → List Change
  | _, [] => []
  | s, deed :: deeds => deed s ++ performed f (s.apply f (deed s)) deeds

theorem perform_eq_apply (f : Handle) (s : Findings) (deeds : List Deed) :
    s.perform f deeds = s.apply f (performed f s deeds) := by
  induction deeds generalizing s with
  | nil => rfl
  | cons deed deeds ih => rw [perform_cons, performed, apply_append, ih]

/-- The changes that a visit makes. -/
def made (phase : Phase) (r : Routine) (s : Findings) : List Change :=
  performed r.handle s (r.blocks.flatMap (phase r))

theorem visit_eq_apply (phase : Phase) (s : Findings) (r : Routine) :
    s.visit phase r = s.apply r.handle (made phase r s) :=
  perform_eq_apply ..

section Visits

variable {ctx : Context σ} {phase : Phase} (isLocal : phase.Local ctx) {r r' : Routine}
  {s t : Findings}

theorem SameView.change (same : s.SameView ctx r t) (c : Change) :
    (s.change r.handle c).SameView ctx r (t.change r.handle c) := by
  refine ⟨fun f reads => ?_, fun b inside => ?_, ?_⟩
  · rw [descriptorsOf_change, descriptorsOf_change]
    split
    · rename_i own
      rw [← own, same.descriptors f reads]
    · exact same.descriptors f reads
  · rw [factOf?_change, factOf?_change]
    split
    · split
      · rfl
      · exact same.classified b inside
    · exact same.classified b inside
  · rw [Knowledge.successCodesOf, Knowledge.successCodesOf, SortedMap.getD, SortedMap.getD,
      get?_successes_change, get?_successes_change, if_pos rfl, if_pos rfl, Change.onSuccesses,
      Change.onSuccesses]
    split
    · exact congrArg (SortedSet.insert · _) same.successes
    · exact same.successes

theorem SameView.apply (same : s.SameView ctx r t) (changes : List Change) :
    (s.apply r.handle changes).SameView ctx r (t.apply r.handle changes) := by
  induction changes generalizing s t with
  | nil => exact same
  | cons c changes ih => exact ih (same.change c)

/-- Changes about another function are not seen unless it is read. -/
theorem sameView_apply {changes : List Change} (apart : r.Apart r') (stays : Stays r changes)
    (unread : ¬r'.Reads ctx r.handle) : (s.apply r.handle changes).SameView ctx r' s := by
  induction changes generalizing s with
  | nil => exact (Same.refl s).sameView
  | cons c changes ih =>
      obtain ⟨head, tail⟩ := List.forall_mem_cons.1 stays
      have later : (s.apply r.handle (c :: changes)).SameView ctx r' (s.change r.handle c) := ih tail
      refine ⟨fun f reads => (later.descriptors f reads).trans ?_,
        fun b inside => (later.classified b inside).trans ?_, later.successes.trans ?_⟩
      · rw [descriptorsOf_change, if_neg fun same : f = r.handle => unread (same ▸ reads)]
      · rw [factOf?_change]
        split
        · rename_i h fact marked
          obtain ⟨b', inside', rfl⟩ := head h fact marked
          rw [if_neg (apart.blocks b' inside' b inside).symm]
        · rfl
      · rw [Knowledge.successCodesOf, SortedMap.getD, get?_successes_change,
          if_neg apart.handles.symm]
        rfl

include isLocal

theorem stays_made (s : Findings) : Stays r (made phase r s) := by
  have all : ∀ deed ∈ r.blocks.flatMap (phase r), ∃ b ∈ r.blocks, deed ∈ phase r b :=
    fun deed => List.mem_flatMap.1
  unfold made
  generalize r.blocks.flatMap (phase r) = deeds at all
  induction deeds generalizing s with
  | nil => simp [performed, Stays]
  | cons deed deeds ih =>
      obtain ⟨⟨b, inside, listed⟩, tail⟩ := List.forall_mem_cons.1 all
      intro c done h fact marked
      rcases List.mem_append.1 done with now | later
      · exact ⟨b, inside, (isLocal.marks deed listed s c now h fact marked).symm⟩
      · exact ih _ tail c later h fact marked

/-- A visit makes the changes that its view of the findings asks for. -/
theorem made_eq (same : s.SameView ctx r t) : made phase r s = made phase r t := by
  have all : ∀ deed ∈ r.blocks.flatMap (phase r), ∃ b ∈ r.blocks, deed ∈ phase r b :=
    fun deed => List.mem_flatMap.1
  unfold made
  generalize r.blocks.flatMap (phase r) = deeds at all
  induction deeds generalizing s t with
  | nil => rfl
  | cons deed deeds ih =>
      obtain ⟨⟨b, inside, listed⟩, tail⟩ := List.forall_mem_cons.1 all
      have now : deed s = deed t := isLocal.reads inside deed listed same
      rw [performed, performed, ← now, ih (same.apply (deed s)) tail]

theorem Same.visit (same : s.Same t) (r : Routine) : (s.visit phase r).Same (t.visit phase r) := by
  have view : s.SameView ctx r t := same.sameView
  rw [visit_eq_apply, visit_eq_apply, made_eq isLocal view]
  exact same.apply _ _

/-- Visits of routines neither of which reads the other can be swapped. -/
theorem visit_comm (apart : r.Apart r') (unread : ¬r.Reads ctx r'.handle)
    (unread' : ¬r'.Reads ctx r.handle) (s : Findings) :
    ((s.visit phase r).visit phase r').Same ((s.visit phase r').visit phase r) := by
  have stays := stays_made isLocal (r := r) s
  have stays' := stays_made isLocal (r := r') s
  have view : made phase r' (s.visit phase r) = made phase r' s := by
    refine made_eq isLocal ?_
    rw [visit_eq_apply]
    exact sameView_apply apart stays unread'
  have view' : made phase r (s.visit phase r') = made phase r s := by
    refine made_eq isLocal ?_
    rw [visit_eq_apply]
    exact sameView_apply apart.symm stays' unread
  rw [visit_eq_apply phase (s.visit phase r), visit_eq_apply phase (s.visit phase r'), view, view',
    visit_eq_apply, visit_eq_apply]
  exact apply_comm apart stays stays' s

theorem Same.sweep (same : s.Same t) (routines : List Routine) :
    (s.sweep phase routines).Same (t.sweep phase routines) := by
  induction routines generalizing s t with
  | nil => exact same
  | cons r routines ih => exact ih (same.visit isLocal r)

/-- The visit of a routine can be brought to the front of visits that it has nothing to do with. -/
theorem sweep_visit {routines : List Routine}
    (free : ∀ r' ∈ routines, r.Apart r' ∧ ¬r.Reads ctx r'.handle ∧ ¬r'.Reads ctx r.handle)
    (s : Findings) :
    ((s.sweep phase routines).visit phase r).Same ((s.visit phase r).sweep phase routines) := by
  induction routines generalizing s with
  | nil => exact .refl _
  | cons r' routines ih =>
      obtain ⟨⟨apart, unread, unread'⟩, tail⟩ := List.forall_mem_cons.1 free
      refine (ih tail (s.visit phase r')).trans (Same.sweep isLocal ?_ routines)
      exact visit_comm isLocal apart.symm unread' unread s

end Visits

end Findings

/-- No routine stands in front of one that it reads, and no two share a function or a block. -/
structure Arranged (ctx : Context σ) (routines : List Routine) : Prop where
  apart : routines.Pairwise Routine.Apart
  order : routines.Pairwise fun r r' => ¬r.Reads ctx r'.handle

namespace Findings

variable {ctx : Context σ} {routines others : List Routine} {s t : Findings}

/-- A sweep gives the same in every order in which no routine stands in front of one that it reads. -/
theorem Same.sweep_perm {phase : Phase} (isLocal : phase.Local ctx) (same : s.Same t)
    (perm : routines.Perm others) (arranged : Arranged ctx routines) (arranged' : Arranged ctx others) :
    (s.sweep phase routines).Same (t.sweep phase others) := by
  induction routines generalizing others s t with
  | nil =>
      obtain rfl := perm.nil_eq
      exact same
  | cons r routines ih =>
      obtain ⟨before, after, rfl⟩ := List.append_of_mem (perm.subset (List.mem_cons_self ..))
      have rest : routines.Perm (before ++ after) := (perm.trans List.perm_middle).cons_inv
      obtain ⟨apart, apartRest⟩ := List.pairwise_cons.1 arranged.apart
      obtain ⟨order, orderRest⟩ := List.pairwise_cons.1 arranged.order
      -- What stands before `r` in the other list stands behind it in this one.
      have free : ∀ r' ∈ before, r.Apart r' ∧ ¬r.Reads ctx r'.handle ∧ ¬r'.Reads ctx r.handle := by
        intro r' listed
        have behind : r' ∈ routines := rest.mem_iff.2 (List.mem_append.2 (.inl listed))
        have ahead := (List.pairwise_append.1 arranged'.order).2.2 r' listed r (by simp)
        exact ⟨apart r' behind, order r' behind, ahead⟩
      have shorter : (before ++ after).Sublist (before ++ r :: after) := by simp
      have moved : ((t.visit phase r).sweep phase (before ++ after)).Same
          (t.sweep phase (before ++ r :: after)) := by
        rw [Findings.sweep, Findings.sweep, List.foldl_append, List.foldl_append]
        exact (sweep_visit isLocal free t).symm.sweep isLocal after
      exact (ih (same.visit isLocal r) rest ⟨apartRest, orderRest⟩
        ⟨arranged'.apart.sublist shorter, arranged'.order.sublist shorter⟩).trans moved

end Findings

/-! ## Rounds -/

theorem CallCounts.ofSites_perm {sites others : List CallSite} (perm : sites.Perm others) :
    ofSites sites = ofSites others := by
  have callers : SortedSet.ofList (sites.map CallSite.caller) =
      SortedSet.ofList (others.map CallSite.caller) := by
    refine SortedSet.ext fun f => ?_
    rw [SortedSet.mem_ofList, SortedSet.mem_ofList, (perm.map _).mem_iff]
  simp only [ofSites, perm.countP_eq, callers]

/-- The classifier does not look at the order of the routines. -/
theorem namesByFeatures_perm {m : Module} {facts : SortedMap Handle Fact}
    {accepts : FeatureVector → Bool} {routines others : List Routine} (perm : routines.Perm others) :
    namesByFeatures m facts routines accepts = namesByFeatures m facts others accepts := by
  have sites : (CallSite.ofRoutines m facts routines).Perm (CallSite.ofRoutines m facts others) :=
    perm.flatMap_right _
  have counts : ∀ f, CallCounts.ofSites
        ((CallSite.ofRoutines m facts routines).filter fun site => site.callee = f) =
      CallCounts.ofSites ((CallSite.ofRoutines m facts others).filter fun site => site.callee = f) :=
    fun f => CallCounts.ofSites_perm (sites.filter _)
  refine SortedSet.ext fun name => ?_
  simp only [namesByFeatures, features, callCounts, SortedSet.mem_ofList, List.mem_map,
    List.mem_filter, List.mem_eraseDups, counts, sites.mem_iff]

namespace Findings

variable {ctx : Context σ} {routines others : List Routine} {s t : Findings}

theorem Same.learn (same : s.Same t) (perm : routines.Perm others) :
    (s.learn ctx routines).Same (t.learn ctx others) := by
  have found : foundReporters? ctx routines s.summary = foundReporters? ctx others t.summary := by
    rw [foundReporters?, foundReporters?, same.summary]
    split
    · rfl
    · rfl
    · rw [namesByFeatures_perm perm]
  rw [Findings.learn, Findings.learn, found]
  split
  · exact same
  · refine ⟨same.summary, ?_, same.diagnostics⟩
    dsimp only
    rw [same.knowledge]

/-- A round gives the same in every order in which no routine stands in front of one that it reads. -/
theorem Same.round (same : s.Same t) (perm : routines.Perm others) (arranged : Arranged ctx routines)
    (arranged' : Arranged ctx others) : (s.round ctx routines).Same (t.round ctx others) := by
  have extracted : (s.extract ctx routines).Same (t.extract ctx others) :=
    (same.sweep_perm local_successPhase perm arranged arranged').sweep_perm local_knownPhase perm
      arranged arranged'
  have learned : ((s.extract ctx routines).learn ctx routines).Same
      ((t.extract ctx others).learn ctx others) := extracted.learn perm
  rw [Findings.round, Findings.round, conclude, conclude, names, names, learned.knowledge]
  exact (learned.sweep_perm (local_generalPhase _ _) perm arranged arranged').sweep_perm
    local_forwardPhase perm arranged arranged'

theorem Same.rounds (perm : routines.Perm others) (arranged : Arranged ctx routines)
    (arranged' : Arranged ctx others) (same : s.Same t) (n : Nat) :
    ((Findings.round ctx routines)^[n] s).Same ((Findings.round ctx others)^[n] t) := by
  induction n with
  | zero => exact same
  | succ n ih =>
      rw [Function.iterate_succ_apply', Function.iterate_succ_apply']
      exact ih.round perm arranged arranged'

end Findings

end ErrorContracts
