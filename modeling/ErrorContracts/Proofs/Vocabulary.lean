import ErrorContracts.Proofs.Agreement
import ErrorContracts.Proofs.Merging
import ErrorContracts.Proofs.Moves
import Mathlib.Data.Finset.Powerset
import Mathlib.Data.Finset.Prod
import Mathlib.Data.List.Sublists
import Mathlib.Data.Set.Finite.Lemmas

/-!
# The vocabulary of a program

All codes, actions and witnesses of a run come from the blocks of its routines and from the
dependencies.  So there are finitely many descriptors, names and codes that a run can ever hold.
-/

namespace ErrorContracts

variable {σ : Type}

/-! ## What contracts are made of -/

namespace Contract

theorem mem_actions_of_soleAction? {d : Descriptor} {a : Action}
    (sole : soleAction? d = some a) : a ∈ d.actions := by
  rw [soleAction?_eq_some_iff.1 sole, SortedSet.mem_singleton]

/-- A contract holds nothing that the descriptors behind it do not hold. -/
theorem of_merged? {ds : List Descriptor} {contract : Contract} {ws : List Witness}
    (made : merged? ds = some (contract, ws)) :
    (∀ a ∈ contract.actions, ∃ d ∈ ds, a ∈ d.actions) ∧
      ∀ c ∈ contract.returns.codes, ∃ d ∈ ds, c ∈ d.returns.codes := by
  have merges := merges_of_merged? made
  constructor
  · intro a ha
    obtain ⟨d, hd, had⟩ := merges.actions.mem ha
    exact ⟨d, (List.mem_filter.1 hd).1, had⟩
  · intro c hc
    obtain ⟨d, hd, -, hcd⟩ := (merges.returns.codes c).1 hc
    exact ⟨d, hd, hcd⟩

end Contract

theorem Clause.mem_of_contract? {clauses : List Clause} {contract : Contract}
    (known : Clause.contract? clauses = some contract) : .reports contract ∈ clauses := by
  induction clauses with
  | nil => cases known
  | cons clause rest ih =>
      cases clause with
      | reports first =>
          cases known
          simp
      | noReturn => exact List.mem_cons_of_mem _ (ih known)
      | allocator finalizer => exact List.mem_cons_of_mem _ (ih known)
      | finalizer => exact List.mem_cons_of_mem _ (ih known)

/-- A known contract is made of descriptors or stands among the dependencies. -/
theorem contract_cases {ctx : Context σ} {s : Summary} {f : Handle} {contract : Contract}
    (known : Clause.contract? (knownClauses ctx s f) = some contract) :
    (∃ ws, s.merged? f = some (contract, ws)) ∨
      ∃ entry ∈ ctx.dependencies, .reports contract ∈ entry.2 := by
  unfold knownClauses at known
  split at known
  · cases made : s.merged? f with
    | none =>
        rw [made] at known
        cases known
    | some found =>
        rw [made] at known
        cases known
        exact .inl ⟨found.2, rfl⟩
  · split at known
    · have listed := Clause.mem_of_contract? known
      cases found : ctx.dependencies.lookup? (ctx.program.nameOf f) with
      | none =>
          rw [found] at listed
          cases listed
      | some clauses =>
          rw [found] at listed
          exact .inr ⟨_, Bindings.mem_of_find? found, listed⟩
    · cases known

/-! ## The words that a program has for errors -/

/-- The calls of a block to known functions, with the names of these. -/
def Module.callsIn (m : Module) (b : Block) : List (Handle × String) :=
  b.steps.filterMap fun step =>
    match step.op with
    | .call callee _ => (m.calledFunction? callee).map fun f => (step.handle, m.nameOf f)
    | _ => none

theorem callsTo_eq (m : Module) (names : SortedSet String) (b : Block) :
    Inference.callsTo m names b = (m.callsIn b).filter fun call => call.2 ∈ names := by
  unfold Inference.callsTo Module.callsIn
  rw [List.filter_filterMap]
  congr 1
  funext step
  cases step.op with
  | call callee arguments =>
      cases called : m.calledFunction? callee with
      | none => simp [called]
      | some f => by_cases known : m.nameOf f ∈ names <;> simp [called, known, Option.filter]
  | compare predicate lhs rhs => rfl
  | cast kind operand => rfl
  | phi incoming => rfl

/-- The contracts that are known before a run. -/
def Context.contracts (ctx : Context σ) : List Contract :=
  ctx.dependencies.flatMap fun (_, clauses) =>
    clauses.filterMap fun
      | .reports contract => some contract
      | _ => none

theorem Context.mem_contracts {ctx : Context σ} {contract : Contract}
    {entry : String × List Clause} (listed : entry ∈ ctx.dependencies)
    (known : .reports contract ∈ entry.2) : contract ∈ ctx.contracts :=
  List.mem_flatMap.2 ⟨entry, listed, List.mem_filterMap.2 ⟨_, known, rfl⟩⟩

section Words

variable (ctx : Context σ) (routines : List Routine)

/-- The codes that blocks return or dependencies report. -/
def codeWords : List Int :=
  (routines.flatMap fun r => r.blocks.flatMap fun b =>
    (Routine.returnedConstant? ctx.program r b).toList ++
      (Routine.uniformConstant? ctx.program r b).toList) ++
    ctx.contracts.flatMap fun contract => contract.returns.codes.toList

/-- The actions that blocks take or dependencies report. -/
def actionWords : List Action :=
  (routines.flatMap fun r => r.blocks.flatMap fun b =>
    (ctx.program.reportingActions b.steps).1 ++
      (ctx.program.callsIn b).map fun (_, name) => ⟨name, []⟩) ++
    ctx.contracts.flatMap fun contract => contract.actions.toList

/-- What may justify a descriptor: a check and an exit, some calls of a block, or one call. -/
def witnessWords : List (List Witness) :=
  (routines.flatMap fun r => r.blocks.flatMap fun b =>
    (ctx.program.values.keys.map fun h =>
      [⟨h, "check error return"⟩, ⟨b.exit, "return error code"⟩]) ++
    (ctx.program.callsIn b).sublists.map fun calls =>
      calls.map fun (h, _) => ⟨h, "calls error-reporting function"⟩) ++
    ctx.program.values.keys.map fun h => [⟨h, "transitive error"⟩]

/-- A descriptor in the words of a program. -/
structure Descriptor.Worded (d : Descriptor) : Prop where
  actions : ∀ a ∈ d.actions, a ∈ actionWords ctx routines
  codes : ∀ c ∈ d.returns.codes, c ∈ codeWords ctx routines
  witnesses : d.witnesses ∈ witnessWords ctx routines

/-- A run in the words of a program. -/
structure Run.Worded (a : Run σ) : Prop where
  descriptors : ∀ f, ∀ d ∈ a.summary.descriptorsOf f,
    f ∈ routines.map Routine.handle ∧ d.Worded ctx routines
  codes : ∀ c ∈ a.knowledge.codes, c ∈ codeWords ctx routines
  reporters : ∀ name ∈ a.knowledge.reporters, name ∈ (actionWords ctx routines).map Action.name
  successes : ∀ f, (a.knowledge.successes.get? f).isSome = true → f ∈ routines.map Routine.handle
  successCodes : ∀ f, ∀ c ∈ a.knowledge.successCodesOf f, c ∈ codeWords ctx routines

end Words

/-! ## Rules keep to the vocabulary -/

section Moves

variable {ctx : Context σ} {routines : List Routine} {r : Routine} {b : Block}

theorem mem_codeWords_of_returned (routine : r ∈ routines) (block : b ∈ r.blocks) {c : Int}
    (constant : Routine.returnedConstant? ctx.program r b = some c) :
    c ∈ codeWords ctx routines := by
  refine List.mem_append.2 (.inl (List.mem_flatMap.2 ⟨r, routine, ?_⟩))
  exact List.mem_flatMap.2 ⟨b, block, by simp [constant]⟩

theorem mem_codeWords_of_uniform (routine : r ∈ routines) (block : b ∈ r.blocks) {c : Int}
    (constant : Routine.uniformConstant? ctx.program r b = some c) :
    c ∈ codeWords ctx routines := by
  refine List.mem_append.2 (.inl (List.mem_flatMap.2 ⟨r, routine, ?_⟩))
  exact List.mem_flatMap.2 ⟨b, block, by simp [constant]⟩

theorem mem_actionWords_of_block (routine : r ∈ routines) (block : b ∈ r.blocks) {a : Action}
    (taken : a ∈ (ctx.program.reportingActions b.steps).1 ∨
      ∃ call ∈ ctx.program.callsIn b, a = ⟨call.2, []⟩) : a ∈ actionWords ctx routines := by
  refine List.mem_append.2 (.inl (List.mem_flatMap.2 ⟨r, routine, ?_⟩))
  refine List.mem_flatMap.2 ⟨b, block, List.mem_append.2 ?_⟩
  rcases taken with action | ⟨call, listed, rfl⟩
  · exact .inl action
  · exact .inr (List.mem_map.2 ⟨call, listed, rfl⟩)

theorem mem_keys_of_op? {m : Module} {h : Handle} {op : Op} (defined : m.op? h = some op) :
    h ∈ m.values.keys := by
  refine SortedMap.contains_iff.1 ?_
  unfold Module.op? Module.kind? Module.value? at defined
  cases found : m.values.get? h with
  | none =>
      rw [found] at defined
      cases defined
  | some v => simp [SortedMap.contains, found]

theorem mem_blocks_of_allControllers {dep : Block} (controls : dep ∈ r.allControllers b.handle) :
    dep ∈ r.blocks := by
  unfold Routine.allControllers Routine.byTerminator at controls
  rw [List.mem_mergeSort, List.mem_filterMap] at controls
  obtain ⟨node, -, found⟩ := controls
  exact List.mem_of_find?_eq_some found

/-- What a branch checks is a call. -/
theorem call_of_checkOf? {s : Summary} {t : Terminator} {target : Handle} {isError : Formula}
    (checked : checkOf? ctx s t = some (target, isError)) :
    ∃ callee arguments, ctx.program.op? target = some (.call callee arguments) := by
  simp only [checkOf?, Option.bind_eq_some_iff, Option.map_eq_some_iff] at checked
  obtain ⟨⟨call, callee⟩, ⟨c, -, found⟩, codes, -, same⟩ := checked
  cases same
  unfold Inference.checkedCall? at found
  obtain ⟨side, -, isCall⟩ := List.exists_of_findSome?_eq_some found
  split at isCall
  · rename_i calls
    cases isCall
    exact ⟨_, _, calls⟩
  · cases isCall

/-- A block that returns a constant is described in the words of the program. -/
theorem worded_of_described {d : Descriptor} {taken : SortedSet Handle} {ws : List Witness}
    (routine : r ∈ routines) (block : b ∈ r.blocks)
    (described : Routine.blockDescriptor? ctx.program r b = some (d, taken))
    (listed : ws ∈ witnessWords ctx routines) :
    Descriptor.Worded ctx routines { d with witnesses := ws } := by
  obtain ⟨code, constant, same⟩ := Option.map_eq_some_iff.1 described
  cases same
  refine ⟨fun a ha => ?_, fun c hc => ?_, listed⟩
  · exact mem_actionWords_of_block routine block (.inl (SortedSet.mem_ofList.1 ha))
  · have same : c = code := SortedSet.mem_singleton.1 hc
    subst same
    exact mem_codeWords_of_returned routine block constant

theorem worded_generalized {names : SortedSet String} {code : Int} (routine : r ∈ routines)
    (block : b ∈ r.blocks)
    (constant : Routine.returnedConstant? ctx.program r b = some code) :
    (Routine.generalized ctx.program r b names code).Worded ctx routines := by
  unfold Routine.generalized
  rw [callsTo_eq]
  refine ⟨fun a ha => ?_, fun c hc => ?_, ?_⟩
  · obtain ⟨call, listed, rfl⟩ := List.mem_map.1 (SortedSet.mem_ofList.1 ha)
    have called := (List.mem_filter.1 listed).1
    exact mem_actionWords_of_block routine block (.inr ⟨call, called, rfl⟩)
  · have same : c = code := SortedSet.mem_singleton.1 hc
    subst same
    exact mem_codeWords_of_returned routine block constant
  · refine List.mem_append.2 (.inl (List.mem_flatMap.2 ⟨r, routine, ?_⟩))
    refine List.mem_flatMap.2 ⟨b, block, List.mem_append.2 (.inr (List.mem_map.2 ⟨_, ?_, rfl⟩))⟩
    exact List.mem_sublists.2 List.filter_sublist

theorem worded_without {d e : Descriptor} {codes : SortedSet Int} (worded : d.Worded ctx routines)
    (left : Summary.without codes d = some e) : e.Worded ctx routines := by
  rw [Summary.without_eq_some_iff] at left
  split at left
  · obtain ⟨actions, witnesses, -, returned⟩ := left
    refine ⟨actions ▸ worded.actions, fun c hc => ?_, witnesses ▸ worded.witnesses⟩
    rw [returned, SortedSet.mem_filter] at hc
    exact worded.codes c hc.1
  · exact left ▸ worded

/-- What is known of a callee is said in the words of the program. -/
theorem worded_of_contract {a : Run σ} {f call : Handle} {contract : Contract} {returns : Returns}
    (worded : a.Worded ctx routines)
    (known : Clause.contract? (knownClauses ctx a.summary f) = some contract)
    (part : ∀ c ∈ returns.codes, c ∈ contract.returns.codes)
    (defined : call ∈ ctx.program.values.keys) :
    Descriptor.Worded ctx routines
      ⟨contract.actions, returns, [⟨call, "transitive error"⟩]⟩ := by
  have listed : [⟨call, "transitive error"⟩] ∈ witnessWords ctx routines :=
    List.mem_append.2 (.inr (List.mem_map.2 ⟨call, defined, rfl⟩))
  rcases contract_cases known with ⟨ws, made⟩ | ⟨entry, stands, reports⟩
  · obtain ⟨actions, codes⟩ := Contract.of_merged? made
    refine ⟨fun x hx => ?_, fun c hc => ?_, listed⟩
    · obtain ⟨d, hd, hxd⟩ := actions x hx
      exact (worded.descriptors f d hd).2.actions x hxd
    · obtain ⟨d, hd, hcd⟩ := codes c (part c hc)
      exact (worded.descriptors f d hd).2.codes c hcd
  · have stated := Context.mem_contracts stands reports
    refine ⟨fun x hx => ?_, fun c hc => ?_, listed⟩
    · exact List.mem_append.2 (.inr (List.mem_flatMap.2 ⟨contract, stated, hx⟩))
    · exact List.mem_append.2 (.inr (List.mem_flatMap.2 ⟨contract, stated, part c hc⟩))

theorem exists_callsIn_of_ofStep? {m : Module} {fact : Option Fact} {returnsConstant : Bool}
    {step : Step} {site : CallSite} (listed : step ∈ b.steps)
    (is : CallSite.ofStep? m r fact returnsConstant step = some site) :
    (step.handle, m.nameOf site.callee) ∈ m.callsIn b := by
  refine List.mem_filterMap.2 ⟨step, listed, ?_⟩
  obtain ⟨h, op⟩ := step
  cases op with
  | call callee arguments =>
      obtain ⟨f, called, rfl⟩ := Option.map_eq_some_iff.1 is
      simp [called]
  | _ => cases is

theorem exists_call_of_features {m : Module} {facts : SortedMap Handle Fact} {f : Handle}
    {vector : FeatureVector} (listed : (f, vector) ∈ features m facts routines) :
    ∃ r ∈ routines, ∃ b ∈ r.blocks, ∃ call ∈ m.callsIn b, call.2 = m.nameOf f := by
  simp only [features, callCounts, List.mem_map, List.mem_eraseDups, CallSite.ofRoutines,
    List.mem_flatMap, List.mem_filterMap] at listed
  obtain ⟨_, ⟨_, ⟨site, ⟨r, routine, b, block, step, inside, is⟩, rfl⟩, rfl⟩, same⟩ := listed
  cases same
  exact ⟨r, routine, b, block, _, exists_callsIn_of_ofStep? inside is, rfl⟩

/-- The classifier finds names of the vocabulary only. -/
theorem mem_names_of_found {a : Run σ} {found : SortedSet String} {name : String}
    (worded : a.Worded ctx routines)
    (classified : foundReporters? ctx routines a.summary = some found) (listed : name ∈ found) :
    name ∈ (actionWords ctx routines).map Action.name := by
  unfold foundReporters? at classified
  split at classified
  · cases classified
  · cases classified
    obtain ⟨f, d, hd, action, sole, rfl⟩ := Summary.mem_soleReporters.1 listed
    have words := (worded.descriptors f d hd).2.actions
    exact List.mem_map.2 ⟨action, words action (Contract.mem_actions_of_soleAction? sole), rfl⟩
  · cases classified
    obtain ⟨⟨f, vector⟩, accepted, rfl⟩ := List.mem_map.1 (SortedSet.mem_ofList.1 listed)
    obtain ⟨r, routine, b, block, call, called, same⟩ :=
      exists_call_of_features (List.mem_filter.1 accepted).1
    refine List.mem_map.2 ⟨⟨call.2, []⟩, ?_, same⟩
    exact mem_actionWords_of_block routine block (.inr ⟨call, called, rfl⟩)

theorem Run.Worded.addError {a : Run σ} {d : Descriptor} (worded : a.Worded ctx routines)
    (routine : r ∈ routines) (hd : d.Worded ctx routines) :
    (a.addError r.handle d).Worded ctx routines where
  descriptors f e he := by
    have cases := (Summary.descriptorsOf_addDescriptor a.summary r.handle f d) ▸ he
    split at cases
    · rename_i same
      subst same
      refine ⟨List.mem_map.2 ⟨r, routine, rfl⟩, ?_⟩
      rcases SortedSet.mem_insert.1 cases with rfl | old
      · exact hd
      · exact (worded.descriptors _ e old).2
    · exact worded.descriptors f e cases
  codes c hc := by
    unfold Run.addError at hc
    split at hc
    · rcases SortedSet.mem_union.1 hc with old | new
      · exact worded.codes c old
      · exact hd.codes c new
    · exact worded.codes c hc
  reporters name known := by
    refine worded.reporters name ?_
    unfold Run.addError at known
    split at known
    · exact known
    · exact known
  successes f known := by
    refine worded.successes f ?_
    unfold Run.addError at known
    split at known
    · exact known
    · exact known
  successCodes f c hc := by
    refine worded.successCodes f c ?_
    unfold Run.addError at hc
    split at hc
    · exact hc
    · exact hc

/-- The vocabulary of a run is that of its descriptors and of what it has learned. -/
theorem Run.Worded.congr {a c : Run σ} (worded : a.Worded ctx routines)
    (descriptors : c.summary.SameDescriptors a.summary) (knowledge : c.knowledge = a.knowledge) :
    c.Worded ctx routines := by
  constructor
  · intro f
    rw [descriptors f]
    exact worded.descriptors f
  all_goals rw [knowledge]
  · exact worded.codes
  · exact worded.reporters
  · exact worded.successes
  · exact worded.successCodes

theorem Run.Move.worded {a c : Run σ} (move : Move ctx routines a c)
    (worded : a.Worded ctx routines) : c.Worded ctx routines := by
  cases move with
  | ask undecided question => exact worded.congr (fun _ => rfl) rfl
  | keep routine block fresh => exact worded.congr (fun _ => rfl) rfl
  | warn d => exact worded.congr (fun _ => rfl) rfl
  | succeed routine block behind constant checked kept refuted =>
      refine ⟨worded.descriptors, worded.codes, worded.reporters, fun f known => ?_,
        fun f c hc => ?_⟩
      · rw [Knowledge.addSuccess, SortedMap.get?_insert] at known
        split at known
        · rename_i same
          subst same
          exact List.mem_map.2 ⟨_, routine, rfl⟩
        · exact worded.successes f known
      · rw [Knowledge.successCodesOf_addSuccess] at hc
        split at hc
        · rcases SortedSet.mem_insert.1 hc with rfl | old
          · exact mem_codeWords_of_uniform routine block constant
          · exact worded.successCodes _ c old
        · exact worded.successCodes f c hc
  | withdraw routine block evidence described fits =>
      refine ⟨fun f e he => ?_, worded.codes, worded.reporters, worded.successes,
        worded.successCodes⟩
      rw [Summary.descriptorsOf_retract, Summary.descriptorsOf_setFact,
        Summary.descriptorsOf_setFact] at he
      split at he
      · rename_i same
        subst same
        obtain ⟨d, hd, left⟩ := List.mem_filterMap.1 (SortedSet.mem_ofList.1 he)
        obtain ⟨inside, hdw⟩ := worded.descriptors _ d hd
        exact ⟨inside, worded_without hdw left⟩
      · exact worded.descriptors f e he
  | report routine block evidence described unfit =>
      obtain ⟨_, _, defined⟩ := call_of_checkOf? evidence.checked
      apply Run.Worded.addError ?_ routine (worded_of_described routine block described ?_)
      · exact worded.congr (fun _ => rfl) rfl
      refine List.mem_append.2 (.inl (List.mem_flatMap.2 ⟨_, routine, List.mem_flatMap.2
        ⟨_, mem_blocks_of_allControllers evidence.controls, List.mem_append.2 (.inl ?_)⟩⟩))
      exact List.mem_map.2 ⟨_, mem_keys_of_op? defined, rfl⟩
  | learn classified =>
      refine ⟨worded.descriptors, worded.codes, fun name known => ?_, worded.successes,
        worded.successCodes⟩
      rcases SortedSet.mem_union.1 known with old | new
      · exact worded.reporters name old
      · exact mem_names_of_found worded classified new
  | generalize routine block unclassified constant noSuccess reporting calls =>
      exact worded.addError routine (worded_generalized routine block constant)
  | forward routine block unclassified returned calls candidate known integer kind kept codes =>
      refine worded.addError routine
        (worded_of_contract worded known (fun c hc => (codes c hc).1) ?_)
      exact mem_keys_of_op? calls

theorem Run.Moves.worded {a c : Run σ} (moves : Moves ctx routines a c)
    (worded : a.Worded ctx routines) : c.Worded ctx routines := by
  induction moves with
  | refl => exact worded
  | tail _ move ih => exact move.worded ih

end Moves

section Finite

variable (ctx : Context σ) (routines : List Routine)

/-- There are finitely many descriptors in the words of a program. -/
theorem finite_worded : {d : Descriptor | d.Worded ctx routines}.Finite := by
  let view : Descriptor → (Finset Action × ReturnKind) × (Finset Int × List Witness) := fun d =>
    ((d.actions.toList.toFinset, d.returns.kind), (d.returns.codes.toList.toFinset, d.witnesses))
  have injective : Function.Injective view := by
    intro d e same
    obtain ⟨actions, ⟨kind, codes, _⟩, witnesses⟩ := d
    obtain ⟨actions', ⟨kind', codes', _⟩, witnesses'⟩ := e
    simp only [view, Prod.mk.injEq] at same
    obtain ⟨⟨sameActions, rfl⟩, sameCodes, rfl⟩ := same
    have hactions : actions = actions' := SortedSet.ext fun a => by
      simpa [SortedSet.mem_def] using Finset.ext_iff.1 sameActions a
    have hcodes : codes = codes' := SortedSet.ext fun c => by
      simpa [SortedSet.mem_def] using Finset.ext_iff.1 sameCodes c
    subst hactions hcodes
    rfl
  let kinds : Finset ReturnKind := {.integer, .pointer}
  let bound := ((actionWords ctx routines).toFinset.powerset ×ˢ kinds) ×ˢ
    ((codeWords ctx routines).toFinset.powerset ×ˢ (witnessWords ctx routines).toFinset)
  refine Set.Finite.of_injOn (f := view) (t := bound) ?_ injective.injOn bound.finite_toSet
  intro d worded
  have kind : d.returns.kind ∈ kinds := by cases d.returns.kind <;> simp [kinds]
  simp only [bound, view, Finset.coe_product, Set.mem_prod, Finset.mem_coe, Finset.mem_powerset,
    List.mem_toFinset]
  refine ⟨⟨fun a ha => ?_, kind⟩, fun c hc => ?_, worded.witnesses⟩
  · exact List.mem_toFinset.2 (worded.actions a (List.mem_toFinset.1 ha))
  · exact List.mem_toFinset.2 (worded.codes c (List.mem_toFinset.1 hc))

end Finite

end ErrorContracts
