import ErrorContracts.Inference.Rules

/-!
# Constructions that cannot fail

Codes, contracts and what is left of a descriptor are made only where there is something to make them
of.  So none of the constructions that a rule makes fails: each is a plain function of what it reads,
and these functions are what a rule is described by.
-/

namespace ErrorContracts

/-! ## Codes -/

namespace Returns

/-- The codes of a set, if there are any. -/
def ofSet? (kind : ReturnKind) (codes : SortedSet Int) : Option Returns :=
  if h : codes.isEmpty = false then some ⟨kind, codes, h⟩ else none

theorem of_ofSet? {kind : ReturnKind} {codes : SortedSet Int} {r : Returns}
    (made : ofSet? kind codes = some r) : ∃ nonempty, r = ⟨kind, codes, nonempty⟩ := by
  unfold ofSet? at made
  split at made
  · rename_i nonempty
    cases made
    exact ⟨nonempty, rfl⟩
  · cases made

/-- Behind a test for codes there are some. -/
theorem ofSet_cases (kind : ReturnKind) (codes : SortedSet Int) :
    codes.isEmpty = true ∧ ofSet? kind codes = none ∨
      codes.isEmpty = false ∧ ∃ r, ofSet? kind codes = some r ∧ ofSet kind codes = .ok r := by
  by_cases filled : codes.isEmpty = false
  · exact .inr ⟨filled, _, dif_pos filled, dif_pos filled⟩
  · exact .inl ⟨by simpa using filled, dif_neg filled⟩

end Returns

/-! ## What is left of descriptors -/

namespace Summary

/-- What is left of a descriptor when some integer codes are taken away. -/
def without (codes : SortedSet Int) (d : Descriptor) : Option Descriptor :=
  if d.isInteger then
    (Returns.ofSet? .integer (d.returns.codes.filter fun c => c ∉ codes)).map fun returns =>
      { d with returns }
  else some d

theorem without_eq_some_iff {codes : SortedSet Int} {d e : Descriptor} :
    without codes d = some e ↔
      if d.isInteger = true then
        e.actions = d.actions ∧ e.witnesses = d.witnesses ∧ e.isInteger = true ∧
          e.returns.codes = d.returns.codes.filter fun c => c ∉ codes
      else e = d := by
  obtain ⟨actions, returns, witnesses⟩ := d
  obtain ⟨actions', ⟨kind', codes', nonempty'⟩, witnesses'⟩ := e
  unfold without
  split
  · rename_i integer
    simp only [Returns.ofSet?, Option.map_eq_some_iff, Option.dite_none_right_eq_some,
      Option.some.injEq]
    constructor
    · rintro ⟨left, ⟨some_left, rfl⟩, same⟩
      simp only [Descriptor.mk.injEq, Returns.mk.injEq] at same
      obtain ⟨rfl, ⟨rfl, rfl⟩, rfl⟩ := same
      exact ⟨rfl, rfl, rfl, rfl⟩
    · rintro ⟨rfl, rfl, kind_eq, codes_eq⟩
      have integer' : kind' = .integer := by
        simpa [Descriptor.isInteger, Returns.isInteger] using kind_eq
      subst integer'
      subst codes_eq
      exact ⟨_, ⟨nonempty', rfl⟩, rfl⟩
  · simp [eq_comm]

theorem without_eq_ok (codes : SortedSet Int) (d : Descriptor) :
    d.without codes = .ok (without codes d) := by
  unfold Descriptor.without without
  split
  · rcases Returns.ofSet_cases .integer (d.returns.codes.filter fun c => c ∉ codes) with
      ⟨empty, none⟩ | ⟨filled, r, made, ok⟩
    · rw [none, if_pos empty]
      rfl
    · rw [made, if_neg (by rw [filled]; decide), ok]
      rfl
  · rfl

/-- A summary from which integer codes of a function have been taken away. -/
def retract (s : Summary) (f : Handle) (codes : SortedSet Int) : Summary :=
  match s.descriptors.get? f with
  | none => s
  | some ds =>
      { s with
        descriptors :=
          s.descriptors.insert f (SortedSet.ofList (ds.toList.filterMap (without codes))) }

theorem withdraw_eq_ok (s : Summary) (f : Handle) (codes : SortedSet Int) :
    s.withdraw f codes = .ok (s.retract f codes) := by
  have left : Descriptor.without codes = fun d => pure (without codes d) :=
    funext (without_eq_ok codes)
  unfold withdraw retract
  cases s.descriptors.get? f with
  | none => rfl
  | some ds =>
      simp only [left, List.mapM_pure, pure_bind, List.filterMap_map, Function.id_comp]
      rfl

end Summary

/-! ## Contracts -/

namespace Contract

/-- The contract of the descriptors of a list, and what justifies it. -/
def merged? : List Descriptor → Option (Contract × List Witness)
  | [] => none
  | d :: ds =>
      let returns := ds.foldl (fun r e => r.merge e.returns) d.returns
      let chosen := (d :: ds).filter fun e => e.isInteger = returns.isInteger
      some (⟨unifyActions chosen, returns⟩, chosen.flatMap Descriptor.witnesses)

theorem ofDescriptors_eq_ok (ds : SortedSet Descriptor) :
    ofDescriptors ds = .ok (merged? ds.toList) := by
  unfold ofDescriptors SortedSet.isEmpty
  cases ds.toList with
  | nil => rfl
  | cons d rest => rfl

end Contract

/-- The contract that is exported for a function, with its witnesses. -/
def Summary.merged? (s : Summary) (f : Handle) : Option (Contract × List Witness) :=
  Contract.merged? (s.descriptorsOf f).toList

theorem Summary.contract?_eq_ok (s : Summary) (f : Handle) : s.contract? f = .ok (s.merged? f) :=
  Contract.ofDescriptors_eq_ok _

theorem Summary.contract?_eq_some_iff {s : Summary} {f : Handle} {found : Contract × List Witness} :
    s.contract? f = .ok (some found) ↔ s.merged? f = some found := by
  rw [contract?_eq_ok, Except.ok.injEq]

variable {σ : Type}

/-- What is known of a function by a summary. -/
def knownClauses (ctx : Context σ) (s : Summary) (callee : Handle) : List Clause :=
  if ctx.program.isFunction callee then
    ((s.merged? callee).map fun (contract, _) => Clause.reports contract).toList
  else if ctx.program.isExternal callee then
    (ctx.dependencies.lookup? (ctx.program.nameOf callee)).getD []
  else []

theorem clausesOf_eq_ok (ctx : Context σ) (s : Summary) (callee : Handle) :
    clausesOf ctx s callee = .ok (knownClauses ctx s callee) := by
  unfold clausesOf knownClauses
  rw [Summary.contract?_eq_ok]
  split
  · rfl
  · split <;> rfl

theorem listedCodes?_eq_ok (ctx : Context σ) (s : Summary) (callees : List Handle) :
    listedCodes? ctx s callees =
      .ok (callees.mapM fun f => Clause.errorCodes? (knownClauses ctx s f)) := by
  induction callees with
  | nil => rfl
  | cons f rest ih =>
      rw [listedCodes?, clausesOf_eq_ok, ih, List.mapM_cons]
      simp only [bind, Except.bind]
      cases Clause.errorCodes? (knownClauses ctx s f) with
      | none => rfl
      | some codes =>
          cases rest.mapM fun f => Clause.errorCodes? (knownClauses ctx s f) <;> rfl

/-! ## Rules -/

namespace Inference

@[simp]
theorem ofContract_ok {α : Type} (made : α) : (ofContract (.ok made) : Inference σ α) = pure made :=
  rfl

theorem retract_eq (f : Handle) (d : Descriptor) :
    (retract f d : Inference σ Unit) =
      if d.isInteger then modifySummary fun s => s.retract f d.returns.codes else pure () := by
  unfold retract
  simp only [Summary.withdraw_eq_ok, ofContract_ok, pure_bind]
  rfl

/-- Codes are given to a step where there are some. -/
theorem ofSet_bind (kind : ReturnKind) (codes : SortedSet Int) (next : Returns → Inference σ Unit) :
    (if codes.isEmpty then pure () else ofContract (Returns.ofSet kind codes) >>= next) =
      (Returns.ofSet? kind codes).elim (pure ()) next := by
  rcases Returns.ofSet_cases kind codes with ⟨empty, none⟩ | ⟨filled, r, made, ok⟩
  · rw [if_pos empty, none]
    rfl
  · rw [if_neg (by rw [filled]; decide), made, ok]
    rfl

end Inference

end ErrorContracts
