import ErrorContracts.Proofs.Admission
import ErrorContracts.Proofs.Forwarding
import ErrorContracts.Proofs.Merging

/-!
# A contract absorbs itself

A descriptor that repeats the actions of a contract and some of its codes adds nothing to it: merged
with the descriptors that the contract was made of, it leaves the contract as it is.  This holds in
each case of the policy on actions.  So a function that returns its own result passes on errors to
itself without any change to what it exports, whatever the oracle answers and also where it fails.
-/

namespace ErrorContracts

variable {σ α β : Type}

/-! ## Merging once more -/

namespace Returns.Gathers

variable {r : Returns} {ds : List Descriptor} {d : Descriptor}

theorem absorb (hr : r.Gathers ds) (kind : d.returns.kind = r.kind)
    (within : ∀ c ∈ d.returns.codes, c ∈ r.codes) : r.Gathers (d :: ds) where
  kind := ⟨d, List.mem_cons_self, kind⟩
  integer := List.forall_mem_cons.2 ⟨fun integer => kind ▸ integer, hr.integer⟩
  codes c := by
    rw [List.exists_mem_cons_iff, ← hr.codes c]
    exact ⟨.inr, fun member => member.elim (fun own => within c own.2) id⟩

end Returns.Gathers

namespace Contract

variable {ds : List Descriptor} {d : Descriptor} {actions : SortedSet Action} {contract : Contract}

theorem singleton_ne_empty (a : Action) : SortedSet.singleton a ≠ ∅ := fun same =>
  SortedSet.not_mem_empty a (same ▸ SortedSet.mem_singleton.2 rfl)

theorem singleton_inj {a b : Action} (same : SortedSet.singleton a = SortedSet.singleton b) :
    a = b :=
  SortedSet.mem_singleton.1 (same ▸ SortedSet.mem_singleton.2 rfl)

theorem Unifies.absorb (unifies : Unifies ds actions) (filled : ds ≠ [])
    (own : d.actions = actions) : Unifies (d :: ds) actions := by
  have later : ∀ {e}, e ∈ ds → e ∈ d :: ds := List.mem_cons_of_mem d
  cases unifies with
  | vacant none => exact absurd none filled
  | agreed listed agree => exact .agreed (later listed) (List.forall_mem_cons.2 ⟨own, agree⟩)
  | sole hd he differ listed alone least =>
      refine .sole (later hd) (later he) differ (later listed) alone
        (List.forall_mem_cons.2 ⟨fun b alone' => ?_, least⟩)
      -- the new descriptor has the least action itself
      rw [singleton_inj (own.symm.trans alone')]
      simp
  | mixed hd he differ several =>
      refine .mixed (later hd) (later he) differ (List.forall_mem_cons.2 ⟨fun b alone => ?_, several⟩)
      exact singleton_ne_empty b (alone.symm.trans own)

theorem Merges.absorb (merges : contract.Merges ds) (actions : d.actions = contract.actions)
    (kind : d.returns.kind = contract.returns.kind)
    (within : ∀ c ∈ d.returns.codes, c ∈ contract.returns.codes) : contract.Merges (d :: ds) where
  returns := merges.returns.absorb kind within
  actions := by
    have chosen : d.isInteger = contract.returns.isInteger := by
      rw [Descriptor.isInteger, Returns.isInteger, kind, Returns.isInteger]
    rw [List.filter_cons_of_pos (by simpa using chosen)]
    refine merges.actions.absorb (fun none => ?_) actions
    obtain ⟨e, he, own⟩ := merges.returns.kind
    have member : e ∈ ds.filter fun d => d.isInteger = contract.returns.isInteger :=
      List.mem_filter.2 ⟨he, by simp [Descriptor.isInteger, Returns.isInteger, own]⟩
    rw [none] at member
    cases member

end Contract

namespace Summary

variable {s : Summary} {f g : Handle} {d : Descriptor} {contract : Contract}

/-- The contract that is exported for a function, without its witnesses. -/
def exported? (s : Summary) (f : Handle) : Except ContractFault (Option Contract) :=
  (s.contract? f).map (Option.map Prod.fst)

theorem exported?_eq_ok (s : Summary) (f : Handle) :
    s.exported? f = .ok ((s.merged? f).map Prod.fst) := by
  rw [exported?, contract?_eq_ok]
  rfl

theorem exported?_eq_some_iff :
    s.exported? f = .ok (some contract) ↔ contract.Merges (s.descriptorsOf f).toList := by
  rw [exported?_eq_ok, Except.ok.injEq]
  exact Contract.merged?_eq_some_iff

theorem exists_exported? (seen : d ∈ s.descriptorsOf f) :
    ∃ contract, s.exported? f = .ok (some contract) := by
  obtain ⟨contract, ws, made⟩ := Contract.exists_merged? seen
  exact ⟨contract, by rw [exported?_eq_ok, merged?, made]; rfl⟩

theorem exported?_addDescriptor (made : s.exported? f = .ok (some contract))
    (actions : d.actions = contract.actions) (kind : d.returns.kind = contract.returns.kind)
    (within : ∀ c ∈ d.returns.codes, c ∈ contract.returns.codes) (g : Handle) :
    (s.addDescriptor f d).exported? g = s.exported? g := by
  by_cases same : g = f
  · subst same
    rw [made, exported?_eq_some_iff, descriptorsOf_addDescriptor, if_pos rfl]
    refine ((exported?_eq_some_iff.1 made).absorb actions kind within).congr fun e => ?_
    rw [List.mem_cons]
    exact SortedSet.mem_insert.symm
  · rw [exported?, contract?, descriptorsOf_addDescriptor, if_neg same]
    rfl

end Summary

theorem exported?_of_known {ctx : Context σ} {s : Summary} {f : Handle} {contract : Contract}
    (defined : ctx.program.isFunction f = true)
    (known : Clause.contract? (knownClauses ctx s f) = some contract) :
    s.exported? f = .ok (some contract) := by
  rw [knownClauses, if_pos defined] at known
  rw [Summary.exported?_eq_ok]
  cases made : s.merged? f with
  | none =>
      rw [made] at known
      cases known
  | some found =>
      rw [made] at known
      cases known
      rfl

/-! ## Steps and what they leave behind -/

namespace Inference

/--
Whether or not the step fails, `inv` holds of the summary that it leaves; if it succeeds, `post` holds
of its value.
-/
def Leaves (p : Inference σ α) (a : Run σ) (inv : Summary → Prop) (post : α → Prop) : Prop :=
  match p.run a with
  | (.ok v, b) => inv b.summary ∧ post v
  | (.error _, b) => inv b.summary

namespace Leaves

variable {p : Inference σ α} {a : Run σ} {inv inv' : Summary → Prop} {post : α → Prop}
  {post' : β → Prop}

theorem summary (leaves : Leaves p a inv post) : inv (p.run a).2.summary := by
  unfold Leaves at leaves
  split at leaves
  · rename_i ended
    rw [ended]
    exact leaves.1
  · rename_i ended
    rw [ended]
    exact leaves

theorem pure {v : α} (before : inv a.summary) (holds : post v) : Leaves (pure v) a inv post :=
  ⟨before, holds⟩

theorem bind {next : α → Inference σ β} (first : Leaves p a inv post)
    (weaker : ∀ s, inv s → inv' s)
    (second : ∀ v b, inv b.summary → post v → Leaves (next v) b inv' post') :
    Leaves (p >>= next) a inv' post' := by
  unfold Leaves at first ⊢
  rw [run_bind]
  cases ended : p.run a with
  | mk result b =>
      rw [ended] at first
      cases result with
      | ok v => exact second v b first.1 first.2
      | error fault => exact weaker b.summary first

theorem reading {next : Run σ → Inference σ β} (rest : Leaves (next a) a inv post') :
    Leaves (get >>= next) a inv post' :=
  rest

theorem weaken {post' : α → Prop} (leaves : Leaves p a inv post)
    (weaker : ∀ v, post v → post' v) : Leaves p a inv post' := by
  unfold Leaves at leaves ⊢
  split at leaves
  · exact ⟨leaves.1, weaker _ leaves.2⟩
  · exact leaves

/-- What every turn of a loop leaves, the loop leaves. -/
theorem forM {f : α → Inference σ Unit} {l : List α}
    (turn : ∀ v ∈ l, ∀ a, inv a.summary → Leaves (f v) a inv fun _ => True) {a : Run σ}
    (before : inv a.summary) : Leaves (l.forM f) a inv fun _ => True := by
  induction l generalizing a with
  | nil => exact .pure before trivial
  | cons v l ih =>
      obtain ⟨head, tail⟩ := List.forall_mem_cons.1 turn
      exact .bind (head a before) (fun _ left => left) fun _ b left _ => ih tail left

/-- A filter keeps nothing new. -/
theorem filterM {test : α → Inference σ Bool}
    (turn : ∀ v a, inv a.summary → Leaves (test v) a inv fun _ => True) (l : List α) {a : Run σ}
    (before : inv a.summary) : Leaves (l.filterM test) a inv fun kept => ∀ v ∈ kept, v ∈ l := by
  have collected : ∀ (l kept : List α) (a : Run σ), inv a.summary →
      Leaves (l.filterAuxM test kept) a inv fun kept' => ∀ v ∈ kept', v ∈ kept ∨ v ∈ l := by
    intro l
    induction l with
    | nil => exact fun kept a before => .pure before fun v listed => .inl listed
    | cons w l ih =>
        intro kept a before
        refine .bind (turn w a before) (fun _ left => left) fun keep b left _ => ?_
        refine .weaken (ih _ b left) fun kept' within v listed => ?_
        have member := within v listed
        cases keep with
        | true => grind
        | false => grind
  refine .bind (collected l [] a before) (fun _ left => left) fun kept b left within => ?_
  exact .pure left fun v listed => by simpa using within v (List.mem_reverse.1 listed)

end Leaves

variable {ctx : Context σ}

theorem leaves_satisfiable? (f : Formula) (a : Run σ) :
    Leaves (satisfiable? ctx f) a (· = a.summary) fun _ => True := by
  unfold Leaves
  rw [run_satisfiable?]
  cases ctx.oracle.ask f a.memory with
  | mk answer memory =>
      cases answer with
      | ok verdict => exact ⟨rfl, trivial⟩
      | error fault => rfl

theorem leaves_condition? (r : Routine) (b target : Handle) (a : Run σ) :
    Leaves (condition? ctx r b target) a (· = a.summary) fun _ => True := by
  unfold Leaves
  rw [run_condition?]
  cases a.conditions.get? ⟨r.handle, b, target⟩ with
  | some known => exact ⟨rfl, trivial⟩
  | none => exact ⟨rfl, trivial⟩

theorem leaves_consistentCodes (condition : Formula) (codes : SortedSet Int) (a : Run σ) :
    Leaves (consistentCodes ctx condition codes) a (· = a.summary) fun kept =>
      ∀ c ∈ kept, c ∈ codes := by
  have filtered : Leaves (codes.toList.filterM fun c => do
      let question := Formula.conjoin [.relation .eq .result (.int c), condition]
      return decide ((← satisfiable? ctx question) ≠ some false)) a (· = a.summary) fun kept =>
        ∀ c ∈ kept, c ∈ codes.toList := by
    refine .filterM (fun c b same => ?_) codes.toList rfl
    rw [← same]
    exact .bind (leaves_satisfiable? _ b) (fun _ left => left) fun _ _ left _ => .pure left trivial
  exact .bind filtered (fun _ left => left) fun kept b left within =>
    .pure left fun c listed => within c (SortedSet.mem_ofList.1 listed)

/-- A function that passes on errors to itself exports what it did. -/
theorem leaves_forwardFrom_self {r : Routine} (defined : ctx.program.isFunction r.handle = true)
    (call : Handle) (condition? : Option Formula) (a : Run σ) :
    Leaves (forwardFrom ctx r call condition? r.handle) a
      (fun s => ∀ g, s.exported? g = a.summary.exported? g) fun _ => True := by
  have unchanged : ∀ s, s = a.summary → ∀ g, s.exported? g = a.summary.exported? g :=
    fun _ same _ => same ▸ rfl
  unfold forwardFrom
  simp only [clausesOf_eq_ok, ofContract_ok, pure_bind, ofSet_bind]
  refine .reading ?_
  split
  · exact .pure (fun _ => rfl) trivial
  rename_i contract known
  have known := exported?_of_known defined known
  split
  · rename_i integer
    have finish : ∀ codes (b : Run σ), b.summary = a.summary →
        (∀ c ∈ codes, c ∈ contract.returns.codes) →
        Leaves ((Returns.ofSet? .integer codes).elim (pure ()) fun returns =>
            addError r.handle ⟨contract.actions, returns, [⟨call, "transitive error"⟩]⟩) b
          (fun s => ∀ g, s.exported? g = a.summary.exported? g) fun _ => True := by
      intro codes b same within
      cases made : Returns.ofSet? .integer codes with
      | none => exact .pure (unchanged _ same) trivial
      | some returns =>
          obtain ⟨_, rfl⟩ := Returns.of_ofSet? made
          unfold Leaves
          rw [Option.elim_some, run_addError]
          refine ⟨fun g => ?_, trivial⟩
          rw [← same] at known ⊢
          exact Summary.exported?_addDescriptor known rfl (of_decide_eq_true integer).symm within g
    split
    · exact finish _ a rfl fun _ member => member
    · rename_i condition
      exact .bind (leaves_consistentCodes condition contract.returns.codes a) unchanged
        fun codes b same within => finish codes b same within
  · exact .pure (fun _ => rfl) trivial

/-- So does a function that calls nothing but itself for its result. -/
theorem leaves_forwardError_self {r : Routine} (defined : ctx.program.isFunction r.handle = true)
    {b : Block}
    (recursive : ∀ call callee arguments, (r.blockReturn? b).map ctx.program.ignoreCasts = some call →
      ctx.program.op? call = some (.call callee arguments) →
        ∀ g ∈ callTargets ctx.program ctx.indirect callee, g = r.handle) (a : Run σ) :
    Leaves (forwardError ctx r b) a
      (fun s => ∀ g, s.exported? g = a.summary.exported? g) fun _ => True := by
  refine .reading ?_
  split
  · exact .pure (fun _ => rfl) trivial
  split
  · exact .pure (fun _ => rfl) trivial
  rename_i call returned
  split
  · rename_i callee arguments calls
    refine .bind (leaves_condition? r b.handle call a) (fun _ same _ => same ▸ rfl)
      fun condition? c same _ => .forM (fun f candidate c kept => ?_) fun _ => same ▸ rfl
    obtain rfl := recursive call callee arguments returned calls f candidate
    have turned := leaves_forwardFrom_self defined call condition? c
    simpa only [kept] using turned
  · exact .pure (fun _ => rfl) trivial

end Inference

/--
A descriptor that repeats the actions of a contract, its kind and some of its codes leaves the contract
as it is.  So no function changes what it or any other exports by passing on its own errors: neither
where it stands among the candidates of a call whose result is returned, nor in a block that returns
the result of calling the function itself.
-/
theorem exported?_absorbs :
    (∀ (s : Summary) (f : Handle), (∃ d, d ∈ s.descriptorsOf f) →
      ∃ contract, s.exported? f = .ok (some contract) ∧
        ∀ d : Descriptor, d.actions = contract.actions →
          d.returns.kind = contract.returns.kind →
          (∀ c ∈ d.returns.codes, c ∈ contract.returns.codes) →
            (s.addDescriptor f d).exported? f = .ok (some contract)) ∧
    ∀ (ctx : Context σ) (f : Handle) (r : Routine) (a : Run σ),
      Routine.ofFunction ctx.program f = .ok r →
        (∀ call condition? g,
          ((Inference.forwardFrom ctx r call condition? f).run a).2.summary.exported? g =
            a.summary.exported? g) ∧
        ∀ b : Block,
          (∀ call callee arguments, (r.blockReturn? b).map ctx.program.ignoreCasts = some call →
            ctx.program.op? call = some (.call callee arguments) →
              ∀ g ∈ callTargets ctx.program ctx.indirect callee, g = f) →
            ∀ g, ((Inference.forwardError ctx r b).run a).2.summary.exported? g =
              a.summary.exported? g := by
  refine ⟨?_, ?_⟩
  · rintro s f ⟨e, seen⟩
    obtain ⟨contract, made⟩ := Summary.exists_exported? seen
    refine ⟨contract, made, fun d actions kind within => ?_⟩
    rw [Summary.exported?_addDescriptor made actions kind within, made]
  · intro ctx f r a read
    have defined := Routine.isFunction_of_read read
    obtain rfl := Routine.handle_of_read read
    refine ⟨fun call condition? => ?_, fun b recursive => ?_⟩
    · exact (Inference.leaves_forwardFrom_self defined call condition? a).summary
    · exact (Inference.leaves_forwardError_self defined recursive a).summary

/-! ## A function that returns its own result -/

def selfCalling : Context Nat where
  program := Module.build {}
    [.function "f" .i32 [], .block 1 "entry", .call (some 2) 1 [] "t" none,
      .ret (some 2) (some (.value 3))]
  oracle := .exact

/-- Errors are reported in three ways, of which one has a single action and integer codes. -/
def selfCallingStart : Run Nat :=
  { Run.initial 0 with
    summary :=
      ((({} : Summary).addDescriptor 1
        ⟨SortedSet.ofList [⟨"free", []⟩, ⟨"log", []⟩], .single .integer (-1), []⟩).addDescriptor 1
        ⟨SortedSet.singleton ⟨"warn", []⟩, .single .integer (-2), []⟩).addDescriptor 1
        ⟨SortedSet.singleton ⟨"abort", []⟩, .single .pointer 0, []⟩ }

def selfCallingContract : Contract :=
  ⟨SortedSet.singleton ⟨"warn", []⟩, (Returns.single .integer (-2)).merge (.single .integer (-1))⟩

/-- The block gives the function a descriptor that it passes on to itself, and the contract stays. -/
theorem exported?_absorbs_selfCalling :
    selfCallingStart.summary.exported? 1 = .ok (some selfCallingContract) ∧
      (selfCallingStart.summary.addDescriptor 1
        ⟨SortedSet.singleton ⟨"warn", []⟩, .single .integer (-1), []⟩).exported? 1 =
          .ok (some selfCallingContract) ∧
      ∃ r b a, Routine.ofFunction selfCalling.program 1 = .ok r ∧ b ∈ r.blocks ∧
        (r.blockReturn? b).map selfCalling.program.ignoreCasts = some 3 ∧
        callTargets selfCalling.program selfCalling.indirect 1 = [1] ∧
        a = ((Inference.forwardError selfCalling r b).run selfCallingStart).2 ∧
        (∃ d ∈ a.summary.descriptorsOf 1, d.witnesses = [⟨3, "transitive error"⟩]) ∧
        a.summary.exported? 1 = .ok (some selfCallingContract) := by
  have made : selfCallingStart.summary.exported? 1 = .ok (some selfCallingContract) := by
    rw [Summary.exported?_eq_ok, Except.ok.injEq]
    decide +kernel
  have checked : (Routine.ofFunction selfCalling.program 1).toOption.any (fun r => ∃ b ∈ r.blocks,
      (r.blockReturn? b).map selfCalling.program.ignoreCasts = some 3 ∧
        (((Inference.forwardError selfCalling r b).run selfCallingStart).2.summary.descriptorsOf
          1).toList.any (fun d => d.witnesses = [⟨3, "transitive error"⟩]) = true) = true := by
    cbv
  obtain ⟨r, read, found⟩ := Routine.exists_read checked
  obtain ⟨b, inside, returned, passed⟩ := of_decide_eq_true found
  simp only [List.any_eq_true, decide_eq_true_eq] at passed
  have calls : selfCalling.program.op? 3 = some (.call 1 []) := by decide +kernel
  have targets : callTargets selfCalling.program selfCalling.indirect 1 = [1] := by decide +kernel
  obtain ⟨adding, forwarding⟩ := @exported?_absorbs Nat
  obtain ⟨contract, made', absorbs⟩ := adding selfCallingStart.summary 1
    ⟨⟨SortedSet.singleton ⟨"warn", []⟩, .single .integer (-2), []⟩, by decide +kernel⟩
  obtain rfl := Option.some.inj (Except.ok.inj (made'.symm.trans made))
  refine ⟨made, absorbs _ rfl rfl (by decide +kernel), r, b, _, read, inside, returned, targets, rfl,
    passed, ?_⟩
  rw [(forwarding selfCalling 1 r selfCallingStart read).2 b ?_ 1, made]
  intro call callee arguments returned' calls'
  obtain rfl := Option.some.inj (returned.symm.trans returned')
  rw [calls] at calls'
  cases calls'
  rw [targets]
  exact fun g listed => List.mem_singleton.1 listed

end ErrorContracts
