import ErrorContracts.Proofs.Exactness
import ErrorContracts.Proofs.Growth

/-!
# Success codes among the errors

A code that a function reports success with is taken out of its integer codes where a block that
returns it is checked again, and stays out of them unless it is forwarded from a callee.  So such a
code is exported for three reasons only: it is a pointer code, a callee exports it, or it was recorded
before the function was seen to report success with it and no check meets it again.  Each of them
occurs.
-/

namespace ErrorContracts

variable {σ : Type}

/-! ## Integer codes of a contract -/

namespace Returns

/-- The code is one of the integer codes. -/
def HasInteger (r : Returns) (c : Int) : Prop := r.kind = .integer ∧ c ∈ r.codes

end Returns

/-- The integer codes that a function exports are those of its descriptors. -/
theorem Summary.hasCode_integer_iff {s : Summary} {f : Handle} {c : Int} :
    s.HasCode f .integer c ↔
      ∃ contract ws, s.merged? f = some (contract, ws) ∧ contract.returns.HasInteger c := by
  have members : s.HasCode f .integer c ↔
      ∃ d ∈ (s.descriptorsOf f).toList, d.returns.HasInteger c := Iff.rfl
  rw [members, merged?]
  constructor
  · rintro ⟨d, seen, kind, member⟩
    obtain ⟨contract, ws, made⟩ := Contract.exists_merged? seen
    have gathers := (Contract.merges_of_merged? made).returns
    have integer := gathers.integer d seen kind
    exact ⟨contract, ws, made, integer,
      (gathers.codes c).2 ⟨d, seen, kind.trans integer.symm, member⟩⟩
  · rintro ⟨contract, ws, made, integer, member⟩
    have gathers := (Contract.merges_of_merged? made).returns
    obtain ⟨d, seen, kind, member'⟩ := (gathers.codes c).1 member
    exact ⟨d, seen, kind.trans integer, member'⟩

/-! ## Where codes come from -/

theorem Knowledge.mem_successCodes {k : Knowledge} {f : Handle} {c : Int}
    (success : c ∈ k.successCodesOf f) : c ∈ k.successCodes := by
  have collected : ∀ (l : List (Handle × SortedSet Int)) (codes : SortedSet Int),
      (c ∈ codes ∨ ∃ entry ∈ l, c ∈ entry.2) →
        c ∈ l.foldl (fun codes entry => codes ∪ entry.2) codes := by
    intro l
    induction l with
    | nil => simp
    | cons entry l ih =>
        rintro codes (old | ⟨other, listed, hc⟩)
        · exact ih _ (.inl (SortedSet.mem_union.2 (.inl old)))
        · rcases List.mem_cons.1 listed with rfl | later
          · exact ih _ (.inl (SortedSet.mem_union.2 (.inr hc)))
          · exact ih _ (.inr ⟨other, later, hc⟩)
  unfold successCodesOf SortedMap.getD at success
  cases known : k.successes.get? f with
  | none =>
      rw [known] at success
      cases success
  | some codes =>
      rw [known] at success
      exact collected _ _ (.inr ⟨(f, codes), SortedMap.mem_toList_iff.2 known, success⟩)

/-- An integer descriptor that has a success code fits it. -/
theorem Knowledge.fitsSuccess_of_mem {k : Knowledge} {f : Handle} {d : Descriptor} {c : Int}
    (integer : d.isInteger = true) (own : c ∈ d.returns.codes) (success : c ∈ k.successCodesOf f) :
    k.fitsSuccess f d = true := by
  cases apart : d.returns.codes.disjoint (k.successCodesOf f) with
  | true => exact absurd success (SortedSet.disjoint_iff.1 apart c own)
  | false => simp [fitsSuccess, integer, apart]

/-- What is left of a descriptor has no new codes, and none of the integer codes taken away. -/
theorem Summary.of_without {codes : SortedSet Int} {d e : Descriptor}
    (left : without codes d = some e) :
    e.returns.kind = d.returns.kind ∧
      ∀ c ∈ e.returns.codes, c ∈ d.returns.codes ∧ (e.returns.kind = .integer → c ∉ codes) := by
  have shape := without_eq_some_iff.1 left
  split at shape
  · rename_i integer
    obtain ⟨-, -, integer', filtered⟩ := shape
    have kind : d.returns.kind = .integer := of_decide_eq_true integer
    have kind' : e.returns.kind = .integer := of_decide_eq_true integer'
    refine ⟨kind'.trans kind.symm, fun c hc => ?_⟩
    rw [filtered, SortedSet.mem_filter] at hc
    exact ⟨hc.1, fun _ => of_decide_eq_true hc.2⟩
  · rename_i pointer
    subst shape
    exact ⟨rfl, fun c hc => ⟨hc, fun kind => absurd (decide_eq_true kind) pointer⟩⟩

namespace Findings

theorem hasCode_change {f g : Handle} {s : Findings} {change : Change} {kind : ReturnKind} {c : Int}
    (has : (s.change f change).summary.HasCode g kind c) :
    s.summary.HasCode g kind c ∨
      g = f ∧ ∃ d, change.added? = some d ∧ d.returns.kind = kind ∧ c ∈ d.returns.codes := by
  obtain ⟨d, hd, holds⟩ := has
  rw [descriptorsOf_change] at hd
  split at hd
  · rename_i same
    have inserted : ∀ e, d ∈ (s.summary.descriptorsOf f).insert e →
        s.summary.HasCode g kind c ∨ d = e := by
      intro e placed
      rcases SortedSet.mem_insert.1 placed with rfl | old
      · exact .inr rfl
      · exact .inl ⟨d, same ▸ old, holds⟩
    cases change with
    | note e => exact .inl ⟨d, same ▸ hd, holds⟩
    | succeed b code => exact .inl ⟨d, same ▸ hd, holds⟩
    | withdraw b codes =>
        obtain ⟨e, he, left⟩ := List.mem_filterMap.1 (SortedSet.mem_ofList.1 hd)
        obtain ⟨kind, within⟩ := Summary.of_without left
        exact .inl ⟨e, same ▸ he, kind ▸ holds.1, (within c holds.2).1⟩
    | report b taken e =>
        rcases inserted e hd with old | rfl
        · exact .inl old
        · exact .inr ⟨same, d, rfl, holds⟩
    | add e =>
        rcases inserted e hd with old | rfl
        · exact .inl old
        · exact .inr ⟨same, d, rfl, holds⟩
  · exact .inl ⟨d, hd, holds⟩

/-- The descriptors that a list of changes adds. -/
def Adds (changes : List Change) (kind : ReturnKind) (c : Int) : Prop :=
  ∃ change ∈ changes, ∃ d, change.added? = some d ∧ d.returns.kind = kind ∧ c ∈ d.returns.codes

theorem hasCode_apply {f g : Handle} {s : Findings} {changes : List Change} {kind : ReturnKind}
    {c : Int} (has : (s.apply f changes).summary.HasCode g kind c) :
    s.summary.HasCode g kind c ∨ g = f ∧ Adds changes kind c := by
  induction changes generalizing s with
  | nil => exact .inl has
  | cons change changes ih =>
      rcases ih has with before | ⟨same, later, listed, adds⟩
      · rcases hasCode_change before with old | ⟨same, adds⟩
        · exact .inl old
        · exact .inr ⟨same, change, by simp, adds⟩
      · exact .inr ⟨same, later, by simp [listed], adds⟩

theorem successCodesOf_change {f g : Handle} {s : Findings} {c : Change} {code : Int}
    (known : code ∈ s.knowledge.successCodesOf g) :
    code ∈ (s.change f c).knowledge.successCodesOf g := by
  rw [Knowledge.successCodesOf, successes_change]
  split
  · exact (Knowledge.Below.addSuccess s.knowledge f _).successCodes g code known
  · exact known

theorem successCodesOf_apply {f g : Handle} {s : Findings} {changes : List Change} {code : Int}
    (known : code ∈ s.knowledge.successCodesOf g) :
    code ∈ (s.apply f changes).knowledge.successCodesOf g := by
  induction changes generalizing s with
  | nil => exact known
  | cons c changes ih => exact ih (successCodesOf_change known)

/-- A code that a function reports success with and that is not among its integer codes. -/
structure Suppressed (s : Findings) (f : Handle) (c : Int) : Prop where
  success : c ∈ s.knowledge.successCodesOf f
  absent : ¬s.summary.HasCode f .integer c

theorem Suppressed.apply {f g : Handle} {s : Findings} {changes : List Change} {c : Int}
    (suppressed : s.Suppressed g c) (silent : g = f → ¬Adds changes .integer c) :
    (s.apply f changes).Suppressed g c where
  success := successCodesOf_apply suppressed.success
  absent has := by
    rcases hasCode_apply has with old | ⟨same, adds⟩
    · exact suppressed.absent old
    · exact silent same adds

variable {ctx : Context σ} {s : Findings} {r : Routine} {b : Block} {f : Handle} {c : Int}

/-- Success blocks add no codes. -/
theorem not_adds_successChanges {kind : ReturnKind} : ¬Adds (successChanges ctx r b s) kind c := by
  rintro ⟨change, listed, d, added, -⟩
  rcases mem_successChanges ctx listed with ⟨_, rfl⟩ | ⟨_, rfl⟩
  · cases added
  · cases added

/-- A checked block adds no integer code that its function reports success with. -/
theorem not_adds_knownChanges {dep : Block} (success : c ∈ s.knowledge.successCodesOf r.handle) :
    ¬Adds (knownChanges ctx r b dep s) .integer c := by
  rintro ⟨change, listed, d, added, kind, returned⟩
  rcases mem_knownChanges ctx listed with ⟨_, rfl⟩ | ⟨e, taken, described, ⟨-, rfl⟩ | ⟨unfit, _, rfl⟩⟩
  · cases added
  · cases added
  · cases added
    have kind : e.returns.kind = .integer := kind
    have apart : e.returns.codes.disjoint (s.knowledge.successCodesOf r.handle) = true := by
      simpa [Knowledge.fitsSuccess, Descriptor.isInteger, Returns.isInteger, kind] using unfit
    exact SortedSet.disjoint_iff.1 apart c returned success

theorem Suppressed.known (suppressed : s.Suppressed f c) {deed : Deed}
    (listed : deed ∈ knownPhase ctx r b) : (s.apply r.handle (deed s)).Suppressed f c := by
  unfold knownPhase at listed
  split at listed
  · obtain ⟨dep, -, rfl⟩ := List.mem_map.1 listed
    refine suppressed.apply fun same => not_adds_knownChanges ?_
    rw [← same]
    exact suppressed.success
  · cases listed

/-- A reporting function's block adds no code that any function reports success with. -/
theorem Suppressed.general (suppressed : s.Suppressed f c) {names : SortedSet String}
    {successCodes : SortedSet Int} (success : c ∈ successCodes) {deed : Deed}
    (listed : deed ∈ generalPhase ctx names successCodes r b) :
    (s.apply r.handle (deed s)).Suppressed f c := by
  obtain rfl := List.mem_singleton.1 listed
  refine suppressed.apply fun _ => ?_
  rintro ⟨change, listed, d, added, kind, returned⟩
  obtain ⟨code, noSuccess, rfl⟩ := mem_generalChanges ctx listed
  cases added
  have same : c = code := SortedSet.mem_singleton.1 returned
  exact noSuccess (same ▸ success)

end Findings

/-! ## Forwarded codes -/

theorem Formula.satisfiable_at_iff {condition : Formula} {c : Int} :
    (conjoin [.relation .eq .result (.int c), condition]).satisfiable = true ↔
      condition.holds c = true := by
  have equal : ∀ x, (relation .eq result (int c)).holds x = true ↔ Word32.wrap x = Word32.wrap c :=
    fun x => holds_equal
  have same : ∀ x, Word32.wrap x = Word32.wrap c → condition.holds x = condition.holds c := by
    intro x wraps
    rw [holds, wraps, ← holds]
  rw [satisfiable_iff]
  constructor
  · rintro ⟨x, -, -, yes⟩
    simp only [holds_conjoin, List.all_cons, List.all_nil, Bool.and_true, Bool.and_eq_true] at yes
    rw [← same x ((equal x).1 yes.1)]
    exact yes.2
  · intro yes
    have wraps := Word32.wrap_wrap c
    refine ⟨Word32.wrap c, Word32.minValue_le_wrap c, Word32.wrap_le_maxValue c, ?_⟩
    simp only [holds_conjoin, List.all_cons, List.all_nil, Bool.and_true, Bool.and_eq_true]
    exact ⟨(equal _).2 wraps, (same _ wraps).trans yes⟩

theorem mem_permitted {codes : SortedSet Int} {condition? : Option Formula} {c : Int} :
    c ∈ permitted codes condition? ↔
      c ∈ codes ∧ ∀ condition ∈ condition?, condition.holds c = true := by
  cases condition? with
  | none => simp [permitted]
  | some condition => simp [permitted, Formula.satisfiable_at_iff]

/-- The integer codes that are known of a function. -/
def Exports (ctx : Context σ) (s : Summary) (f : Handle) (c : Int) : Prop :=
  ∃ contract, Clause.contract? (knownClauses ctx s f) = some contract ∧ contract.returns.HasInteger c

theorem Exports.mono {ctx : Context σ} {s t : Summary} {f : Handle} {c : Int}
    (exported : Exports ctx s f c) (grows : s.HasCode f .integer c → t.HasCode f .integer c) :
    Exports ctx t f c := by
  by_cases defined : ctx.program.isFunction f = true
  · have known : ∀ u : Summary, Exports ctx u f c ↔ u.HasCode f .integer c := by
      intro u
      rw [Summary.hasCode_integer_iff, Exports, knownClauses, if_pos defined]
      rcases u.merged? f with _ | ⟨contract, ws⟩
      · simp [Clause.contract?]
      · simp [Clause.contract?]
    exact (known t).2 (grows ((known s).1 exported))
  · simpa only [Exports, knownClauses, if_neg defined] using exported

/--
A block without a fact returns the result of a call, one of the functions that the call may reach
exports the code, and the condition on the result under which the block is reached permits it.
-/
def Routine.Forwards (ctx : Context σ) (s : Summary) (r : Routine) (c : Int) : Prop :=
  ∃ b ∈ r.blocks, s.factOf? b.handle = none ∧ ∃ call candidates,
    returnedCall? ctx r b = some (call, candidates) ∧
    (∀ condition ∈ pathCondition? ctx.program r b.handle call, condition.holds c = true) ∧
    ∃ f ∈ candidates, Exports ctx s f c

namespace Findings

variable {ctx : Context σ} {routines : List Routine} {s : Findings} {r : Routine} {c : Int}

theorem mem_descriptorsOf_apply_add {f g : Handle} {changes : List Change} {d : Descriptor}
    (adding : ∀ change ∈ changes, ∃ d, change = .add d) (old : d ∈ s.summary.descriptorsOf g) :
    d ∈ (s.apply f changes).summary.descriptorsOf g := by
  induction changes generalizing s with
  | nil => exact old
  | cons change changes ih =>
      obtain ⟨⟨e, rfl⟩, rest⟩ := List.forall_mem_cons.1 adding
      refine ih rest ?_
      rw [descriptorsOf_change]
      split
      · rename_i same
        exact SortedSet.mem_insert.2 (.inr (same ▸ old))
      · exact old

theorem hasCode_apply_add {f g : Handle} {changes : List Change} {kind : ReturnKind}
    (adding : ∀ change ∈ changes, ∃ d, change = .add d) (has : s.summary.HasCode g kind c) :
    (s.apply f changes).summary.HasCode g kind c := by
  obtain ⟨d, listed, holds⟩ := has
  exact ⟨d, mem_descriptorsOf_apply_add adding listed, holds⟩

/-- A code is passed on from a callee only if the callee exports it and the condition permits it. -/
theorem exports_of_adds {b : Block} {call callee : Handle}
    (adds : Adds (forwardChanges ctx r b call callee s) .integer c) :
    s.summary.factOf? b.handle = none ∧
      (∀ condition ∈ Routine.pathCondition? ctx.program r b.handle call, condition.holds c = true) ∧
      Exports ctx s.summary callee c := by
  obtain ⟨change, listed, d, added, -, returned⟩ := adds
  obtain ⟨unclassified, contract, returns, known, integer, nonempty, rfl⟩ :=
    mem_forwardChanges ctx listed
  cases added
  obtain ⟨_, rfl⟩ := Returns.of_ofSet? nonempty
  obtain ⟨exported, permits⟩ := mem_permitted.1 returned
  exact ⟨unclassified, permits, contract, known, of_decide_eq_true integer, exported⟩

/-- A code that is added in the last phase is forwarded then. -/
theorem forwards_of_adds {b : Block} {call callee : Handle} {candidates : List Handle}
    (inside : b ∈ r.blocks) (called : returnedCall? ctx r b = some (call, candidates))
    (candidate : callee ∈ candidates)
    (adds : Adds (forwardChanges ctx r b call callee s) .integer c) :
    r.Forwards ctx s.summary c := by
  obtain ⟨unclassified, permits, exported⟩ := exports_of_adds adds
  exact ⟨b, inside, unclassified, call, candidates, called, permits, callee, candidate, exported⟩

/-- What stays suppressed up to the last phase is forwarded if it comes back. -/
theorem forwards_of_sweep
    (read : ∀ r' ∈ routines, r'.handle = r.handle → r' = r)
    (absent : ¬s.summary.HasCode r.handle .integer c)
    (has : (s.sweep (forwardPhase ctx) routines).summary.HasCode r.handle .integer c) :
    r.Forwards ctx (s.sweep (forwardPhase ctx) routines).summary c := by
  let inv (s : Findings) : Prop :=
    s.summary.HasCode r.handle .integer c → r.Forwards ctx s.summary c
  refine sweep_induction inv ?_ (fun here => absurd here absent) has
  intro r' routine b inside deed listed s forwarded has
  unfold forwardPhase at listed
  split at listed
  · rename_i call candidates called
    obtain ⟨callee, candidate, rfl⟩ := List.mem_map.1 listed
    have adding : ∀ change ∈ forwardChanges ctx r' b call callee s, ∃ d, change = .add d :=
      adds_forwardChanges ctx
    have before : r.Forwards ctx s.summary c := by
      rcases hasCode_apply has with old | ⟨same, adds⟩
      · exact forwarded old
      · obtain rfl := read r' routine same.symm
        exact forwards_of_adds inside called candidate adds
    obtain ⟨b', inside', unclassified, call', candidates', called', permits, f, candidate', exported⟩ :=
      before
    refine ⟨b', inside', ?_, call', candidates', called', permits, f, candidate', ?_⟩
    · rwa [Summary.factOf?, facts_apply_add adding]
    · exact exported.mono fun old => hasCode_apply_add adding old
  · cases listed

theorem successes_known :
    (s.sweep (knownPhase ctx) routines).knowledge.successes = s.knowledge.successes := by
  refine sweep_induction (fun t => t.knowledge.successes = s.knowledge.successes) ?_ rfl
  intro r _ b _ deed listed t same
  unfold knownPhase at listed
  split at listed
  · obtain ⟨dep, -, rfl⟩ := List.mem_map.1 listed
    exact (successes_apply (success?_knownChanges ctx)).trans same
  · cases listed

theorem Suppressed.learn {f : Handle} (suppressed : s.Suppressed f c) :
    (s.learn ctx routines).Suppressed f c where
  success := by
    rw [Knowledge.successCodesOf, learn_parts.2]
    exact suppressed.success
  absent := by
    rw [learn_parts.1]
    exact suppressed.absent

/-- A code that is suppressed when the facts have been found comes back by forwarding only. -/
theorem Suppressed.forwards (read : ∀ r' ∈ routines, r'.handle = r.handle → r' = r)
    (suppressed : s.Suppressed r.handle c)
    (has : (s.conclude ctx routines).summary.HasCode r.handle .integer c) :
    r.Forwards ctx (s.conclude ctx routines).summary c := by
  have still : (s.sweep (generalPhase ctx (s.names ctx) s.knowledge.successCodes)
      routines).Suppressed r.handle c := by
    refine sweep_induction (fun t => t.Suppressed r.handle c) ?_ suppressed
    intro r' _ b _ deed listed t before
    exact before.general (Knowledge.mem_successCodes suppressed.success) listed
  exact forwards_of_sweep read still.absent has

/-- Where an integer code of a function may come from in a round. -/
theorem hasCode_round (read : ∀ r' ∈ routines, r'.handle = r.handle → r' = r)
    (has : (s.round ctx routines).summary.HasCode r.handle .integer c) :
    s.summary.HasCode r.handle .integer c ∨
      c ∉ (s.round ctx routines).knowledge.successCodesOf r.handle ∨
      r.Forwards ctx (s.round ctx routines).summary c := by
  by_cases old : s.summary.HasCode r.handle .integer c
  · exact .inl old
  by_cases success : c ∈ (s.round ctx routines).knowledge.successCodesOf r.handle
  · right
    right
    refine Suppressed.forwards read (.learn ?_) has
    have found : (s.sweep (successPhase ctx) routines).Suppressed r.handle c := by
      constructor
      · rw [Knowledge.successCodesOf, round, successes_conclude, learn_parts.2, extract,
          successes_known] at success
        exact success
      · refine sweep_induction (fun t => ¬t.summary.HasCode r.handle .integer c) ?_ old
        intro r' _ b _ deed listed t absent has
        obtain rfl := List.mem_singleton.1 listed
        rcases hasCode_apply has with before | ⟨-, adds⟩
        · exact absent before
        · exact not_adds_successChanges adds
    refine sweep_induction (fun t => t.Suppressed r.handle c) ?_ found
    exact fun r' _ b _ deed listed t before => before.known listed
  · exact .inr (.inl success)

end Findings

/-! ## Checks that are made again -/

/-- The part of an extraction in front of the check of the block `b` that follows `earlier`. -/
def Inference.extractUpTo (ctx : Context σ) (routines done : List Routine) (r : Routine)
    (before : List Block) (b : Block) (earlier : List Block) : Inference σ Unit := do
  byBlock routines (reportsSuccess ctx)
  byBlock done (handlesKnownError ctx)
  before.forM (handlesKnownError ctx r)
  earlier.forM fun dep => checkKnownError ctx r b dep.exit dep.terminator

/--
An extraction from the run `a` comes to a branch that controls the block `b` and checks a call, and
the block is reached with an error of that call.
-/
def Run.LetsErrorReach (ctx : Context σ) (routines : List Routine) (a : Run σ) (r : Routine)
    (b : Block) : Prop :=
  ∃ done rest before after earlier dep later,
    routines = done ++ r :: rest ∧ r.blocks = before ++ b :: after ∧
    r.allControllers b.handle = earlier ++ dep :: later ∧
    ∃ m target isError facts,
      (Inference.extractUpTo ctx routines done r before b earlier).run a = (.ok (), m) ∧
      checkOf? ctx m.summary dep.terminator = some (target, isError) ∧
      Routine.pathCondition? ctx.program r b.handle target = some facts ∧
      (Formula.conjoin [isError, facts]).HasSolution

/-- The findings when the extraction comes to the check. -/
def Findings.extractUpTo (ctx : Context σ) (routines done : List Routine) (r : Routine)
    (before : List Block) (b : Block) (earlier : List Block) (s : Findings) : Findings :=
  (((s.sweep (successPhase ctx) routines).sweep (knownPhase ctx) done).perform r.handle
    (before.flatMap (knownPhase ctx r))).perform r.handle (earlier.map (knownChanges ctx r b))

theorem Inference.yields_extractUpTo {ctx : Context σ}
    {routines done rest : List Routine} {r : Routine} (before : List Block) (b : Block)
    (earlier : List Block)
    (read : ∀ r ∈ routines, Routine.ofFunction ctx.program r.handle = .ok r)
    (split : routines = done ++ r :: rest) {a : Run σ} (sound : a.Sound ctx) :
    Yields ctx (extractUpTo ctx routines done r before b earlier) a ()
      (a.findings.extractUpTo ctx routines done r before b earlier) := by
  have own : Routine.ofFunction ctx.program r.handle = .ok r := read r (by simp [split])
  have readDone : ∀ r ∈ done, Routine.ofFunction ctx.program r.handle = .ok r :=
    fun r listed => read r (by simp [split, listed])
  refine .bind (yields_successes read sound) fun a₁ sound₁ found₁ => ?_
  refine .bind (yields_knownErrors readDone sound₁) fun a₂ sound₂ found₂ => ?_
  refine .bind (yields_blocks _ (fun b _ => yields_handlesKnownError own b) before sound₂)
    fun a₃ sound₃ found₃ => ?_
  rw [Findings.extractUpTo, ← found₁, ← found₂, ← found₃]
  exact yields_checks own b earlier sound₃

namespace Findings

variable {ctx : Context σ} {s : Findings} {r : Routine} {b dep : Block} {c : Int}

theorem not_hasCode_withdraw {f block : Handle} {codes : SortedSet Int} (taken : c ∈ codes) :
    ¬(s.change f (.withdraw block codes)).summary.HasCode f .integer c := by
  rintro ⟨e, he, kind, returned⟩
  rw [descriptorsOf_change, if_pos rfl] at he
  obtain ⟨d, -, left⟩ := List.mem_filterMap.1 (SortedSet.mem_ofList.1 he)
  exact ((Summary.of_without left).2 c returned).2 kind taken

/-- The check of a block that returns a success code withdraws it where an error may reach the block. -/
theorem knownChanges_of_success {target : Handle} {question : Formula}
    (constant : Routine.returnedConstant? ctx.program r b = some c)
    (integer : ctx.program.returnsPointer r.handle = false)
    (asked : question? ctx s.summary r b dep.terminator = some (target, question))
    (possible : question.satisfiable = true) (success : c ∈ s.knowledge.successCodesOf r.handle) :
    ∃ codes : SortedSet Int, c ∈ codes ∧ knownChanges ctx r b dep s =
      checkNotes ctx s.summary dep.terminator ++ [.withdraw b.handle codes] := by
  let d : Descriptor :=
    ⟨SortedSet.ofList (ctx.program.reportingActions b.steps).1, .single .integer c, []⟩
  have described : Routine.blockDescriptor? ctx.program r b =
      some (d, (ctx.program.reportingActions b.steps).2) := by
    simp [Routine.blockDescriptor?, constant, Routine.signal, integer, d]
  have own : c ∈ d.returns.codes := SortedSet.mem_singleton.2 rfl
  have fits : s.knowledge.fitsSuccess r.handle d = true :=
    Knowledge.fitsSuccess_of_mem rfl own success
  refine ⟨d.returns.codes, own, ?_⟩
  rw [knownChanges, asked]
  dsimp only
  rw [if_pos possible, outcome, described]
  dsimp only
  rw [if_pos fits]

/-- A block that returns a success code takes it away where an error may reach the block. -/
theorem suppressed_of_check {target : Handle} {question : Formula}
    (constant : Routine.returnedConstant? ctx.program r b = some c)
    (integer : ctx.program.returnsPointer r.handle = false)
    (asked : question? ctx s.summary r b dep.terminator = some (target, question))
    (possible : question.satisfiable = true) (success : c ∈ s.knowledge.successCodesOf r.handle) :
    (s.apply r.handle (knownChanges ctx r b dep s)).Suppressed r.handle c := by
  refine ⟨successCodesOf_apply success, ?_⟩
  obtain ⟨codes, own, changes⟩ := knownChanges_of_success constant integer asked possible success
  rw [changes, apply_append]
  exact not_hasCode_withdraw own

theorem successCodesOf_sweep {phase : Phase} {routines : List Routine} {f : Handle}
    (success : c ∈ s.knowledge.successCodesOf f) :
    c ∈ (s.sweep phase routines).knowledge.successCodesOf f :=
  sweep_induction (fun t => c ∈ t.knowledge.successCodesOf f)
    (fun _ _ _ _ _ _ _ known => successCodesOf_apply known) success

theorem successCodesOf_perform {f g : Handle} {deeds : List Deed}
    (success : c ∈ s.knowledge.successCodesOf g) :
    c ∈ (s.perform f deeds).knowledge.successCodesOf g :=
  perform_induction (fun t => c ∈ t.knowledge.successCodesOf g)
    (fun _ _ _ known => successCodesOf_apply known) success

/-- The checks of a block that returns a constant, split at one of them. -/
theorem knownPhase_split {earlier later : List Block}
    (controls : r.allControllers b.handle = earlier ++ dep :: later)
    (constant : Routine.returnedConstant? ctx.program r b = some c) :
    knownPhase ctx r b = earlier.map (knownChanges ctx r b) ++
      knownChanges ctx r b dep :: later.map (knownChanges ctx r b) := by
  simp [knownPhase, constant, controls]

/-- An extraction goes up to a check, makes it and goes on with the checks after it. -/
theorem extract_eq {routines done rest : List Routine} {before after earlier later : List Block}
    (split : routines = done ++ r :: rest) (blocks : r.blocks = before ++ b :: after)
    (checks : knownPhase ctx r b = earlier.map (knownChanges ctx r b) ++
      knownChanges ctx r b dep :: later.map (knownChanges ctx r b)) :
    let m := s.extractUpTo ctx routines done r before b earlier
    s.extract ctx routines =
      ((m.apply r.handle (knownChanges ctx r b dep m)).perform r.handle
        (later.map (knownChanges ctx r b) ++ after.flatMap (knownPhase ctx r))).sweep
          (knownPhase ctx) rest := by
  intro m
  have deeds : r.blocks.flatMap (knownPhase ctx r) =
      before.flatMap (knownPhase ctx r) ++ (earlier.map (knownChanges ctx r b) ++
        knownChanges ctx r b dep ::
          (later.map (knownChanges ctx r b) ++ after.flatMap (knownPhase ctx r))) := by
    rw [blocks]
    simp [checks]
  rw [extract, sweep, sweep, split, List.foldl_append, List.foldl_cons, visit, deeds, perform_append,
    perform_append, perform_cons, ← split]
  rfl

/-- What a check brings about and every later check keeps holds after the extraction. -/
theorem extract_induction {routines done rest : List Routine}
    {before after earlier later : List Block} (inv : Findings → Prop)
    (split : routines = done ++ r :: rest) (blocks : r.blocks = before ++ b :: after)
    (controls : r.allControllers b.handle = earlier ++ dep :: later)
    (constant : Routine.returnedConstant? ctx.program r b = some c)
    (keeps : ∀ r' ∈ routines, ∀ b' ∈ r'.blocks, ∀ deed ∈ knownPhase ctx r' b', ∀ t, inv t →
      inv (t.apply r'.handle (deed t)))
    (here : let m := s.extractUpTo ctx routines done r before b earlier
      inv (m.apply r.handle (knownChanges ctx r b dep m))) :
    inv (s.extract ctx routines) := by
  have checks := knownPhase_split controls constant
  have remaining : ∀ deed ∈ later.map (knownChanges ctx r b) ++ after.flatMap (knownPhase ctx r),
      ∃ b' ∈ r.blocks, deed ∈ knownPhase ctx r b' := by
    intro deed listed
    rcases List.mem_append.1 listed with own | other
    · exact ⟨b, by simp [blocks], by simp [checks, own]⟩
    · obtain ⟨b', inside, listed⟩ := List.mem_flatMap.1 other
      exact ⟨b', by simp [blocks, inside], listed⟩
  rw [extract_eq split blocks checks]
  refine sweep_induction inv (fun r' visited => keeps r' (by simp [split, visited])) ?_
  refine perform_induction inv (fun deed listed t holds => ?_) here
  obtain ⟨b', inside, listed⟩ := remaining deed listed
  exact keeps r (by simp [split]) b' inside deed listed t holds

theorem successCodesOf_extractUpTo {routines done : List Routine} {before earlier : List Block}
    {f : Handle} (success : c ∈ s.knowledge.successCodesOf f) :
    c ∈ (s.extractUpTo ctx routines done r before b earlier).knowledge.successCodesOf f :=
  successCodesOf_perform <| successCodesOf_perform <| successCodesOf_sweep <|
    successCodesOf_sweep success

/-- Once taken away, the code stays away for the rest of the extraction. -/
theorem suppressed_extract {routines done rest : List Routine}
    {before after earlier later : List Block} (split : routines = done ++ r :: rest)
    (blocks : r.blocks = before ++ b :: after)
    (controls : r.allControllers b.handle = earlier ++ dep :: later)
    (constant : Routine.returnedConstant? ctx.program r b = some c)
    (integer : ctx.program.returnsPointer r.handle = false)
    (success : c ∈ s.knowledge.successCodesOf r.handle) {target : Handle} {question : Formula}
    (asked : question? ctx (s.extractUpTo ctx routines done r before b earlier).summary r b
      dep.terminator = some (target, question))
    (possible : question.satisfiable = true) :
    (s.extract ctx routines).Suppressed r.handle c := by
  refine extract_induction (fun t => t.Suppressed r.handle c) split blocks controls constant
    (fun _ _ _ _ _ listed _ still => still.known listed) ?_
  exact suppressed_of_check constant integer asked possible (successCodesOf_extractUpTo success)

end Findings

/-- What the extraction finds where it comes to the check. -/
theorem Run.LetsErrorReach.asked {ctx : Context σ}
    {routines : List Routine} {r : Routine} {b : Block} {a : Run σ}
    (read : ∀ r ∈ routines, Routine.ofFunction ctx.program r.handle = .ok r) (sound : a.Sound ctx)
    (reached : a.LetsErrorReach ctx routines r b) :
    ∃ done rest before after earlier dep later target question,
      routines = done ++ r :: rest ∧ r.blocks = before ++ b :: after ∧
      r.allControllers b.handle = earlier ++ dep :: later ∧
      question? ctx (a.findings.extractUpTo ctx routines done r before b earlier).summary r b
        dep.terminator = some (target, question) ∧
      question.satisfiable = true := by
  obtain ⟨done, rest, before, after, earlier, dep, later, split, blocks, controls, m, target, isError,
    facts, ran, checked, known, solution⟩ := reached
  obtain ⟨m', ran', -, found⟩ :=
    Inference.yields_extractUpTo before b earlier read split sound
  rw [ran] at ran'
  cases ran'
  have asked : question? ctx m.findings.summary r b dep.terminator =
      some (target, Formula.conjoin [isError, facts]) := by
    simp [question?, checked, known]
  rw [found] at asked
  exact ⟨done, rest, before, after, earlier, dep, later, target, _, split, blocks, controls, asked,
    Formula.satisfiable_iff_hasSolution.2 solution⟩

/-! ## What is exported in the end -/

theorem Routine.Forwards.of_alike {ctx : Context σ} {a b : Run σ} (alike : a.Alike Eq b) {r : Routine}
    {c : Int} (forwards : r.Forwards ctx a.summary c) : r.Forwards ctx b.summary c := by
  obtain ⟨block, inside, unclassified, call, candidates, called, permits, f, candidate, exported⟩ :=
    forwards
  refine ⟨block, inside, ?_, call, candidates, called, permits, f, candidate, exported.mono ?_⟩
  · rwa [Summary.factOf?, ← alike.facts]
  · rw [Summary.HasCode, Summary.HasCode, alike.descriptors f]
    exact id

section Exported

variable {ctx : Context σ} {functions : List Handle} {routines : List Routine} {limit : Nat}
  {oracle : σ} {final : Run σ} (exact : ctx.oracle.IsExact oracle)
  (read : routinesOf ctx.program functions = .ok routines) {r : Routine} (listed : r ∈ routines)

include exact read listed

/-- An integer code has been recorded before it became a success code, or has been forwarded. -/
theorem recorded_of_hasCode {c : Int} {n : Nat}
    (has : ((Run.initial oracle).after ctx (visitOrder ctx routines) n).summary.HasCode r.handle
      .integer c) :
    ∃ k, r.Forwards ctx ((Run.initial oracle).after ctx (visitOrder ctx routines) k).summary c ∨
      ((Run.initial oracle).after ctx (visitOrder ctx routines) k).summary.HasCode r.handle
          .integer c ∧
        c ∉ ((Run.initial oracle).after ctx (visitOrder ctx routines) k).knowledge.successCodesOf
          r.handle := by
  have own : ∀ r' ∈ visitOrder ctx routines, r'.handle = r.handle → r' = r :=
    fun r' visited => eq_of_handle_eq read listed (mem_of_mem_visitOrder visited)
  induction n with
  | zero =>
      obtain ⟨d, hd, -⟩ := has
      cases hd
  | succ n ih =>
      have next := Run.findings_after_succ (read_of_mem_visitOrder read)
        (Run.sound_initial exact) n
      have again : (((Run.initial oracle).after ctx (visitOrder ctx routines) n).findings.round ctx
          (visitOrder ctx routines)).summary.HasCode r.handle .integer c := by
        rw [← next]
        exact has
      have origin := Findings.hasCode_round own again
      rw [← next] at origin
      rcases origin with old | noSuccess | forwards
      · exact ih old
      · exact ⟨n + 1, .inr ⟨has, noSuccess⟩⟩
      · exact ⟨n + 1, .inl forwards⟩

/-- A success code that is met again in an extraction from the end is forwarded. -/
theorem forwards_of_letsErrorReach {b : Block} {c : Int}
    (ended : infer ctx functions limit oracle = .ok final)
    (has : final.summary.HasCode r.handle .integer c)
    (success : c ∈ final.knowledge.successCodesOf r.handle)
    (constant : Routine.returnedConstant? ctx.program r b = some c)
    (integer : ctx.program.returnsPointer r.handle = false)
    (reached : final.LetsErrorReach ctx (visitOrder ctx routines) r b) :
    r.Forwards ctx final.summary c := by
  have own : ∀ r' ∈ visitOrder ctx routines, r'.handle = r.handle → r' = r :=
    fun r' visited => eq_of_handle_eq read listed (mem_of_mem_visitOrder visited)
  have readAll : ∀ r ∈ visitOrder ctx routines, Routine.ofFunction ctx.program r.handle = .ok r :=
    read_of_mem_visitOrder read
  obtain ⟨n, rfl, alike⟩ := exists_settled_of_infer exact read ended
  have start := Run.sound_initial exact
  have next := Run.findings_after_succ readAll start n
  have sound := (Run.findings_after readAll start n).1
  obtain ⟨_, _, _, _, _, _, _, _, _, split, blocks, controls, asked, possible⟩ :=
    reached.asked readAll sound
  have suppressed :=
    Findings.suppressed_extract split blocks controls constant integer success asked possible
  have again : ((Run.initial oracle).after ctx (visitOrder ctx routines)
      (n + 1)).findings.summary.HasCode r.handle .integer c := by
    rw [Run.summary_findings, Summary.HasCode, ← alike.descriptors r.handle]
    exact has
  rw [next] at again
  have forwards := suppressed.learn.forwards own again
  rw [← Findings.round, ← next] at forwards
  exact forwards.of_alike alike.symm

/--
A code that a function exports although it reports success with it is a pointer code, or is forwarded
from a callee, or is not met again: no block that returns it is reached by an error in a further
extraction, and it has been recorded before the function was seen to report success with it, or has
been forwarded then.
-/
theorem success_code_exported (ended : infer ctx functions limit oracle = .ok final)
    {contract : Contract} {ws : List Witness} {c : Int}
    (exported : final.summary.contract? r.handle = .ok (some (contract, ws)))
    (code : c ∈ contract.returns.codes)
    (success : c ∈ final.knowledge.successCodesOf r.handle) :
    contract.returns.kind = .pointer ∨ r.Forwards ctx final.summary c ∨
      (ctx.program.returnsPointer r.handle = false → ∀ b ∈ r.blocks,
          Routine.returnedConstant? ctx.program r b = some c →
          ¬final.LetsErrorReach ctx (visitOrder ctx routines) r b) ∧
        ∃ n, r.Forwards ctx ((Run.initial oracle).after ctx (visitOrder ctx routines) n).summary c ∨
          ((Run.initial oracle).after ctx (visitOrder ctx routines) n).summary.HasCode r.handle
              .integer c ∧
            c ∉ ((Run.initial oracle).after ctx (visitOrder ctx routines)
              n).knowledge.successCodesOf r.handle := by
  cases kind : contract.returns.kind with
  | pointer => exact .inl rfl
  | integer =>
      right
      have has : final.summary.HasCode r.handle .integer c :=
        Summary.hasCode_integer_iff.2
          ⟨contract, ws, Summary.contract?_eq_some_iff.1 exported, kind, code⟩
      by_cases forwards : r.Forwards ctx final.summary c
      · exact .inl forwards
      · refine .inr ⟨fun integer b _ constant reached => forwards ?_, ?_⟩
        · exact forwards_of_letsErrorReach exact read listed ended has success constant integer reached
        · obtain ⟨n, rfl, -⟩ := exists_settled_of_infer exact read ended
          exact recorded_of_hasCode exact read listed has

end Exported

/-! ## Success codes that are exported -/

/--
The first blocks of a function: the one at `base` calls `callee` and goes to the second block if the
result is negative and else to the third.
-/
def checkedEntry (f callee base : Handle) : List Edit :=
  [.block f "test", .block f "bad", .block f "good", .call (some base) callee [] "k" none,
    .compare (some base) .slt (.value (base + 3)) (.literal 0) "c",
    .branch (some base) (.value (base + 4)) (base + 1) (base + 2)]

/--
Three functions.  The first returns a null pointer on errors and on success.  The second passes on
the result of `source` on errors, whose error code is 0, and returns 0 on success.  The third returns
7 next to a call of `report`, and 7 where its own result is 9.
-/
def gaps : Context (Recall Nat) where
  program := Module.build {}
    ([.external "check" .i32, .external "source" .i32, .external "report" .i32, .constant 0 .i32,
      .constant 0 .ptr, .constant 9 .i32, .constant 7 .i32,
      .function "open" .ptr [], .function "relay" .i32 [], .function "late" .i32 []] ++
      checkedEntry 8 1 11 ++
      [.call (some 12) 3 [] "" none, .ret (some 12) (some (.value 5)),
        .ret (some 13) (some (.value 5))] ++
      checkedEntry 9 1 20 ++
      [.call (some 21) 2 [] "s" none, .ret (some 21) (some (.value 26)),
        .ret (some 22) (some (.literal 0))] ++
      [.block 10 "entry", .block 10 "loud", .block 10 "more", .block 10 "done", .block 10 "fail",
        .call (some 29) 3 [] "u" none, .compare (some 29) .eq (.value 34) (.literal 9) "d",
        .branch (some 29) (.value 35) 30 31,
        .call (some 30) 3 [] "" none, .ret (some 30) (some (.literal 7)),
        .call (some 31) 10 [] "v" none, .compare (some 31) .eq (.value 39) (.literal 9) "e",
        .branch (some 31) (.value 40) 32 33,
        .ret (some 32) (some (.literal 7)), .ret (some 33) (some (.literal 0))])
  dependencies :=
    [("check", [.reports ⟨∅, .single .integer (-1)⟩]), ("source", [.reports ⟨∅, .single .integer 0⟩])]
  oracle := Oracle.exact.caching

def gapRoutines : List Routine := (routinesOf gaps.program [8, 9, 10]).toOption.getD []

/-- The run over the three functions after some rounds. -/
def gapRun (n : Nat) : Run (Recall Nat) :=
  (Run.initial (.fresh 0)).after gaps (visitOrder gaps gapRoutines) n

/-- The function exports a code that it reports success with. -/
def Run.exportsSuccess (a : Run σ) (f : Handle) (c : Int) : Bool :=
  c ∈ a.knowledge.successCodesOf f &&
    (a.summary.merged? f).any fun (contract, _) => c ∈ contract.returns.codes

theorem Run.exportsSuccess_iff {a : Run σ} {f : Handle} {c : Int} :
    a.exportsSuccess f c = true ↔ c ∈ a.knowledge.successCodesOf f ∧
      ∃ contract ws, a.summary.contract? f = .ok (some (contract, ws)) ∧
        c ∈ contract.returns.codes := by
  rw [exportsSuccess, Bool.and_eq_true, decide_eq_true_iff]
  simp only [Summary.contract?_eq_some_iff]
  rcases a.summary.merged? f with _ | ⟨contract, ws⟩
  · simp
  · simp

theorem gaps_read : routinesOf gaps.program [8, 9, 10] = .ok gapRoutines :=
  eq_ok_of_isOk [] (by decide +kernel)

set_option maxRecDepth 10000 in
/-- The third round is the first to change nothing, and all three functions export a success code. -/
theorem gapRun_settles :
    (gapRun 0).settled (gapRun 1) = false ∧ (gapRun 1).settled (gapRun 2) = false ∧
      (gapRun 2).settled (gapRun 3) = true ∧ (gapRun 3).exportsSuccess 8 0 = true ∧
      (gapRun 3).exportsSuccess 9 0 = true ∧ (gapRun 3).exportsSuccess 10 7 = true := by
  have checked : (!(gapRun 0).settled (gapRun 1) && !(gapRun 1).settled (gapRun 2) &&
      (gapRun 2).settled (gapRun 3) && (gapRun 3).exportsSuccess 8 0 &&
      (gapRun 3).exportsSuccess 9 0 && (gapRun 3).exportsSuccess 10 7) = true := by
    cbv
  simpa [and_assoc] using checked

theorem gaps_exact : gaps.oracle.IsExact (.fresh 0) := (Oracle.exact_isExact 0).caching

theorem gaps_infer : infer gaps [8, 9, 10] 3 (.fresh 0) = .ok (gapRun 3) := by
  obtain ⟨first, second, settled, -⟩ := gapRun_settles
  refine infer_eq_of_settled gaps_exact.answers gaps_read settled (fun k below => ?_) (by decide)
  obtain rfl | rfl : k = 0 ∨ k = 1 := by omega
  · exact first
  · exact second

/-- A pointer code, a forwarded code and a code recorded early are success codes and yet exported. -/
theorem gaps_export_success_codes :
    infer gaps [8, 9, 10] 3 (.fresh 0) = .ok (gapRun 3) ∧
      ∀ f c, (f, c) ∈ [((8 : Handle), (0 : Int)), (9, 0), (10, 7)] →
        c ∈ (gapRun 3).knowledge.successCodesOf f ∧
          ∃ contract ws, (gapRun 3).summary.contract? f = .ok (some (contract, ws)) ∧
            c ∈ contract.returns.codes := by
  obtain ⟨-, -, -, first, second, third⟩ := gapRun_settles
  refine ⟨gaps_infer, fun f c listed => Run.exportsSuccess_iff.1 ?_⟩
  simp only [List.mem_cons, Prod.mk.injEq, List.not_mem_nil, or_false] at listed
  obtain ⟨rfl, rfl⟩ | ⟨rfl, rfl⟩ | ⟨rfl, rfl⟩ := listed
  · exact first
  · exact second
  · exact third

/-- The code 7 of the third function. -/
theorem success_code_exported_late :
    ∃ r ∈ gapRoutines, r.handle = 10 ∧ ∃ contract ws,
      (gapRun 3).summary.contract? r.handle = .ok (some (contract, ws)) ∧
      7 ∈ contract.returns.codes ∧
      7 ∈ (gapRun 3).knowledge.successCodesOf r.handle ∧
      (contract.returns.kind = .pointer ∨ r.Forwards gaps (gapRun 3).summary 7 ∨
        (gaps.program.returnsPointer r.handle = false → ∀ b ∈ r.blocks,
            Routine.returnedConstant? gaps.program r b = some 7 →
            ¬(gapRun 3).LetsErrorReach gaps (visitOrder gaps gapRoutines) r b) ∧
          ∃ n, r.Forwards gaps (gapRun n).summary 7 ∨
            (gapRun n).summary.HasCode r.handle .integer 7 ∧
              7 ∉ (gapRun n).knowledge.successCodesOf r.handle) := by
  have named : (10 : Handle) ∈ gapRoutines.map Routine.handle := by
    rw [(routinesOf_ok gaps_read).1]
    decide
  obtain ⟨r, listed, handle⟩ := List.mem_map.1 named
  obtain ⟨-, -, -, -, -, third⟩ := gapRun_settles
  rw [← handle] at third
  obtain ⟨success, contract, ws, exported, code⟩ := Run.exportsSuccess_iff.1 third
  exact ⟨r, listed, handle, contract, ws, exported, code, success,
    success_code_exported gaps_exact gaps_read listed gaps_infer exported code success⟩

end ErrorContracts
