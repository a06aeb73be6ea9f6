import ErrorContracts.Proofs.Suppression

/-!
# Where codes come from

No code appears out of nothing.  A code that a function is seen to return stands as a constant behind
one of its blocks, or a block returns the result of a call to a function that has it, and at the end
of such a chain the code stands as a constant in an analysed function or is declared for an external
one.  The chain is carried through every move: codes that are recorded extend a chain or start one,
and a withdrawal only drops codes.
-/

namespace ErrorContracts

variable {σ : Type}

section Chains

variable (ctx : Context σ) (routines : List Routine)

/-- A block of `f` returns, up to casts, the result of a call that may go to `g`. -/
def Relays (f g : Handle) : Prop :=
  ∃ r ∈ routines, r.handle = f ∧ ∃ b ∈ r.blocks, ∃ call callee arguments,
    (r.blockReturn? b).map ctx.program.ignoreCasts = some call ∧
      ctx.program.op? call = some (.call callee arguments) ∧
        g ∈ callTargets ctx.program ctx.indirect callee

/-- A block of `f` returns the integer constant `c`. -/
def ReturnsConstant (f : Handle) (c : Int) : Prop :=
  ∃ r ∈ routines, r.handle = f ∧ ∃ b ∈ r.blocks, Routine.returnedConstant? ctx.program r b = some c

/-- The first contract that the dependencies have for the external function `f` has the integer `c`. -/
def Declares (f : Handle) (c : Int) : Prop :=
  ctx.program.isExternal f = true ∧ ∃ contract,
    Clause.contract? ((ctx.dependencies.lookup? (ctx.program.nameOf f)).getD []) = some contract ∧
      contract.returns.HasInteger c

/-- A chain of functions that pass on results, from `f` to one that has the code `c` of its own. -/
def Originates (f : Handle) (c : Int) : Prop :=
  ∃ g, Relation.ReflTransGen (Relays ctx routines) f g ∧
    (ctx.program.returnsPointer g = false ∧ ReturnsConstant ctx routines g c ∨ Declares ctx g c)

/-- All codes of a run come from somewhere. -/
structure Run.Traced (a : Run σ) : Prop where
  analysed : ∀ f, (a.summary.descriptors.get? f).isSome = true → f ∈ routines.map Routine.handle
  pointers : ∀ f c, a.summary.HasCode f .pointer c →
    ctx.program.returnsPointer f = true ∧ ReturnsConstant ctx routines f c
  integers : ∀ f c, a.summary.HasCode f .integer c → Originates ctx routines f c
  codes : ∀ c ∈ a.knowledge.codes, ∃ f ∈ routines.map Routine.handle, Originates ctx routines f c

end Chains

variable {ctx : Context σ} {routines : List Routine}

/-- A defined function exports the codes of its descriptors, an external one those declared for it. -/
theorem exports_iff {s : Summary} {f : Handle} {c : Int} :
    Exports ctx s f c ↔
      ctx.program.isFunction f = true ∧ s.HasCode f .integer c ∨ Declares ctx f c := by
  unfold Exports Declares knownClauses
  by_cases defined : ctx.program.isFunction f = true
  · have inside : ctx.program.isExternal f = false := by
      unfold Module.isFunction at defined
      unfold Module.isExternal
      split at defined <;> simp_all
    rw [if_pos defined, Summary.hasCode_integer_iff]
    cases s.merged? f with
    | none => simp [defined, inside, Clause.contract?]
    | some found =>
        obtain ⟨contract, ws⟩ := found
        simp [defined, inside, Clause.contract?]
  · rw [if_neg defined]
    by_cases outside : ctx.program.isExternal f = true
    · simp [defined, outside]
    · simp [defined, outside, Clause.contract?]

/-! ## What adds and withdraws codes -/

namespace Summary

variable {s : Summary} {f g : Handle} {kind : ReturnKind} {c : Int}

theorem of_hasCode_addDescriptor {d : Descriptor} (has : (s.addDescriptor g d).HasCode f kind c) :
    s.HasCode f kind c ∨ f = g ∧ d.returns.kind = kind ∧ c ∈ d.returns.codes := by
  obtain ⟨e, he, holds⟩ := has
  rw [descriptorsOf_addDescriptor] at he
  split at he
  · rename_i same
    rcases SortedSet.mem_insert.1 he with rfl | old
    · exact .inr ⟨same, holds⟩
    · exact .inl ⟨e, same ▸ old, holds⟩
  · exact .inl ⟨e, he, holds⟩

theorem of_hasCode_retract {codes : SortedSet Int} (has : (s.retract g codes).HasCode f kind c) :
    s.HasCode f kind c := by
  obtain ⟨e, he, rfl, returned⟩ := has
  rw [descriptorsOf_retract] at he
  split at he
  · rename_i same
    obtain ⟨d, hd, left⟩ := List.mem_filterMap.1 (SortedSet.mem_ofList.1 he)
    obtain ⟨kind, within⟩ := of_without left
    exact ⟨d, same ▸ hd, kind.symm, (within c returned).1⟩
  · exact ⟨e, he, rfl, returned⟩

theorem of_isSome_retract {codes : SortedSet Int}
    (known : ((s.retract g codes).descriptors.get? f).isSome = true) :
    (s.descriptors.get? f).isSome = true := by
  unfold retract at known
  split at known
  · exact known
  · rename_i ds found
    rw [SortedMap.get?_insert] at known
    split at known
    · rename_i same
      rw [same, found]
      rfl
    · exact known

end Summary

namespace Run.Traced

variable {a : Run σ} {r : Routine} {b : Block} {d : Descriptor}

/-- A descriptor may be added whose pointer codes are constants and whose integer codes have chains. -/
theorem addError (traced : a.Traced ctx routines) (routine : r ∈ routines)
    (pointers : d.returns.kind = .pointer → ∀ c ∈ d.returns.codes,
      ctx.program.returnsPointer r.handle = true ∧ ReturnsConstant ctx routines r.handle c)
    (integers : d.returns.kind = .integer → ∀ c ∈ d.returns.codes,
      Originates ctx routines r.handle c) :
    (a.addError r.handle d).Traced ctx routines where
  analysed f known := by
    unfold Run.addError Summary.addDescriptor at known
    rw [SortedMap.get?_insert] at known
    split at known
    · rename_i same
      rw [same]
      exact List.mem_map_of_mem routine
    · exact traced.analysed f known
  pointers f c has := by
    rcases Summary.of_hasCode_addDescriptor has with old | ⟨rfl, kind, returned⟩
    · exact traced.pointers f c old
    · exact pointers kind c returned
  integers f c has := by
    rcases Summary.of_hasCode_addDescriptor has with old | ⟨rfl, kind, returned⟩
    · exact traced.integers f c old
    · exact integers kind c returned
  codes c known := by
    unfold Run.addError at known
    split at known
    · rename_i integer
      rcases SortedSet.mem_union.1 known with old | new
      · exact traced.codes c old
      · exact ⟨r.handle, List.mem_map_of_mem routine, integers (of_decide_eq_true integer) c new⟩
    · exact traced.codes c known

/-- A descriptor may be added that signals a constant behind a block of the function. -/
theorem addSignal {code : Int} (traced : a.Traced ctx routines) (routine : r ∈ routines)
    (block : b ∈ r.blocks) (constant : Routine.returnedConstant? ctx.program r b = some code)
    (signals : d.returns = Routine.signal ctx.program r code) :
    (a.addError r.handle d).Traced ctx routines := by
  have returned : ∀ c ∈ d.returns.codes, ReturnsConstant ctx routines r.handle c := by
    intro c hc
    rw [signals] at hc
    have same : c = code := SortedSet.mem_singleton.1 hc
    exact ⟨r, routine, rfl, b, block, same ▸ constant⟩
  have kind : d.returns.kind =
      if ctx.program.returnsPointer r.handle then .pointer else .integer := by
    rw [signals]
    rfl
  apply traced.addError routine
  · intro pointer c hc
    rw [pointer] at kind
    constructor
    · by_contra other
      rw [if_neg other] at kind
      cases kind
    · exact returned c hc
  · intro integer c hc
    rw [integer] at kind
    refine ⟨r.handle, .refl, .inl ⟨?_, returned c hc⟩⟩
    by_contra other
    rw [if_pos (by simpa using other)] at kind
    cases kind

theorem asked (traced : a.Traced ctx routines) (f : Formula) :
    (a.asked ctx f).Traced ctx routines :=
  ⟨traced.analysed, traced.pointers, traced.integers, traced.codes⟩

theorem setFact (traced : a.Traced ctx routines) (place : Handle) (fact : Fact) :
    Traced ctx routines { a with summary := a.summary.setFact place fact } :=
  ⟨traced.analysed, traced.pointers, traced.integers, traced.codes⟩

theorem retract (traced : a.Traced ctx routines) (f : Handle) (codes : SortedSet Int) :
    Traced ctx routines { a with summary := a.summary.retract f codes } where
  analysed g known := traced.analysed g (Summary.of_isSome_retract known)
  pointers g c has := traced.pointers g c (Summary.of_hasCode_retract has)
  integers g c has := traced.integers g c (Summary.of_hasCode_retract has)
  codes := traced.codes

/-- A chain of the callee is extended by the call. -/
theorem originates_of_exports (traced : a.Traced ctx routines) {f g : Handle} {c : Int}
    (relays : Relays ctx routines f g) (exported : Exports ctx a.summary g c) :
    Originates ctx routines f c := by
  rcases exports_iff.1 exported with ⟨-, has⟩ | declared
  · obtain ⟨last, chain, ends⟩ := traced.integers g c has
    exact ⟨last, .head relays chain, ends⟩
  · exact ⟨g, .single relays, .inr declared⟩

end Run.Traced

namespace Run

variable {a b : Run σ}

theorem Move.traced (move : Move ctx routines a b) (traced : a.Traced ctx routines) :
    b.Traced ctx routines := by
  cases move with
  | withdraw routine block evidence described fits =>
      exact ((traced.asked _).setFact _ _).retract _ _
  | report routine block evidence described unfit =>
      obtain ⟨code, constant, same⟩ := Option.map_eq_some_iff.1 described
      cases same
      exact ((traced.asked _).setFact _ _).addSignal routine block constant rfl
  | generalize routine block unclassified constant noSuccess reporting calls =>
      exact traced.addSignal routine block constant rfl
  | forward routine block unclassified returned calls candidate known integer kind kept codes =>
      apply traced.addError routine
      · intro pointer
        rw [kind] at pointer
        cases pointer
      · intro _ c hc
        have relays : Relays ctx routines _ _ :=
          ⟨_, routine, rfl, _, block, _, _, _, returned, calls, candidate⟩
        have own : Exports ctx a.summary _ c :=
          ⟨_, known, of_decide_eq_true integer, (codes c hc).1⟩
        exact traced.originates_of_exports relays own
  | _ => exact ⟨traced.analysed, traced.pointers, traced.integers, traced.codes⟩

theorem Moves.traced (moves : Moves ctx routines a b) (traced : a.Traced ctx routines) :
    b.Traced ctx routines := by
  induction moves with
  | refl => exact traced
  | tail _ move ih => exact move.traced ih

theorem traced_initial (oracle : σ) : (initial oracle).Traced ctx routines where
  analysed f known := by cases known
  pointers f c has := by
    obtain ⟨d, hd, -⟩ := has
    cases hd
  integers f c has := by
    obtain ⟨d, hd, -⟩ := has
    cases hd
  codes c known := by cases known

/-- Some rounds make moves only, also where the oracle ends the last of them. -/
theorem moves_rounds (ctx : Context σ) (routines : List Routine) (start : Run σ) (n : Nat) :
    Moves ctx routines start (start.after ctx routines n) := by
  induction n with
  | zero => exact .refl
  | succ n ih =>
      refine ih.trans ?_
      rw [after, after, rounds_succ, Inference.run_bind]
      split
      · rename_i reached ended
        rw [ended]
        exact (Inference.leads_round reached).moves
      · rename_i ended
        rw [ended]

/--
However many rounds are made from an empty summary, with whatever oracle and classifier, only analysed
functions have descriptors, pointer codes are constants of functions that return pointers, and every
integer code and every code learned has a chain to a constant or to a declaration.
-/
theorem after_traced (ctx : Context σ) (routines : List Routine) (oracle : σ) (n : Nat) :
    ((initial oracle).after ctx routines n).Traced ctx routines :=
  (moves_rounds ctx routines (initial oracle) n).traced (traced_initial oracle)

end Run

end ErrorContracts
