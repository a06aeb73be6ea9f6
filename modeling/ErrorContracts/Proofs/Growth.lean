import ErrorContracts.Proofs.Termination

/-!
# What a run keeps

From round to round a run learns, marks more blocks, keeps every path condition, asks its oracle on
from where it has left it, and writes new diagnostics behind the old ones.  Of the codes that functions
are seen to return it gives up integer codes only, and only those that the function has come to report
success with.  All of this is seen move by move, so it holds whatever the oracle and the classifier say,
also if the oracle says one thing now and another later, and also of a round in which it fails.
-/

namespace ErrorContracts

variable {σ : Type}

/-- Some descriptor of the function returns the code, as a code of the given kind. -/
def Summary.HasCode (s : Summary) (f : Handle) (kind : ReturnKind) (c : Int) : Prop :=
  ∃ d ∈ s.descriptorsOf f, d.returns.kind = kind ∧ c ∈ d.returns.codes

namespace Summary.HasCode

variable {s : Summary} {f g : Handle} {kind : ReturnKind} {c : Int}

theorem addDescriptor (has : s.HasCode f kind c) (g : Handle) (d : Descriptor) :
    (s.addDescriptor g d).HasCode f kind c := by
  obtain ⟨e, he, holds⟩ := has
  refine ⟨e, ?_, holds⟩
  rw [descriptorsOf_addDescriptor]
  split
  · rename_i same
    exact SortedSet.mem_insert.2 (.inr (same ▸ he))
  · exact he

/-- What stays after a descriptor has lost some integer codes has the other codes. -/
theorem exists_without {codes : SortedSet Int} {d : Descriptor} (kept : c ∉ codes)
    (returned : c ∈ d.returns.codes) :
    ∃ e, without codes d = some e ∧ e.returns.kind = d.returns.kind ∧ c ∈ e.returns.codes := by
  unfold without
  split
  · rename_i integer
    have left : c ∈ d.returns.codes.filter fun c => c ∉ codes := by simp [returned, kept]
    have some_left : (d.returns.codes.filter fun c => c ∉ codes).isEmpty = false := by
      rw [Bool.eq_false_iff]
      exact fun none => SortedSet.isEmpty_iff.1 none c left
    refine ⟨{ d with returns := ⟨.integer, _, some_left⟩ }, ?_, ?_, left⟩
    · rw [Returns.ofSet?, dif_pos some_left]
      rfl
    · simpa [Descriptor.isInteger, Returns.isInteger, eq_comm] using integer
  · exact ⟨d, rfl, rfl, returned⟩

theorem retract (has : s.HasCode f kind c) {codes : SortedSet Int}
    (kept : f = g → c ∉ codes) : (s.retract g codes).HasCode f kind c := by
  obtain ⟨d, hd, rfl, returned⟩ := has
  unfold HasCode
  rw [descriptorsOf_retract]
  split
  · rename_i same
    obtain ⟨e, left, kind, returned'⟩ := exists_without (kept same) returned
    refine ⟨e, ?_, kind, returned'⟩
    rw [SortedSet.mem_ofList, List.mem_filterMap]
    exact ⟨d, same ▸ hd, left⟩
  · exact ⟨d, hd, rfl, returned⟩

/-- A pointer code outlives the withdrawal of integer codes. -/
theorem retract_pointer (has : s.HasCode f .pointer c) (g : Handle) (codes : SortedSet Int) :
    (s.retract g codes).HasCode f .pointer c := by
  obtain ⟨d, hd, pointer, returned⟩ := has
  refine ⟨d, ?_, pointer, returned⟩
  rw [descriptorsOf_retract]
  split
  · rename_i same
    rw [SortedSet.mem_ofList, List.mem_filterMap]
    refine ⟨d, same ▸ hd, ?_⟩
    rw [without, if_neg]
    simp [Descriptor.isInteger, Returns.isInteger, pointer]
  · exact hd

end Summary.HasCode

namespace Run

/-- What `b` has kept of `a`, and in which direction it may have gone on. -/
structure Advances (oracle : Oracle σ) (a b : Run σ) : Prop where
  knowledge : a.knowledge.Below b.knowledge
  facts : ∀ block, (a.summary.factOf? block).isSome = true → (b.summary.factOf? block).isSome = true
  recalls : a.Recalls oracle b
  diagnostics : a.diagnostics <+: b.diagnostics
  pointerCodes : ∀ f c, a.summary.HasCode f .pointer c → b.summary.HasCode f .pointer c
  integerCodes : ∀ f c, a.summary.HasCode f .integer c → c ∉ b.knowledge.successCodesOf f →
    b.summary.HasCode f .integer c

namespace Advances

variable {oracle : Oracle σ}

theorem refl (a : Run σ) : a.Advances oracle a where
  knowledge := .refl _
  facts _ known := known
  recalls := .refl a
  diagnostics := List.prefix_rfl
  pointerCodes _ _ has := has
  integerCodes _ _ has _ := has

theorem trans {a b c : Run σ} (first : a.Advances oracle b) (second : b.Advances oracle c) :
    a.Advances oracle c where
  knowledge := first.knowledge.trans second.knowledge
  facts block known := second.facts block (first.facts block known)
  recalls := first.recalls.trans second.recalls
  diagnostics := first.diagnostics.trans second.diagnostics
  pointerCodes f code has := second.pointerCodes f code (first.pointerCodes f code has)
  integerCodes f code has noSuccess :=
    -- a code that is no success code at the end has never been one
    have before := fun success => noSuccess (second.knowledge.successCodes f code success)
    second.integerCodes f code (first.integerCodes f code has before) noSuccess

/-- A run never changes an answer that its oracle recalls. -/
theorem answer? {inner : Oracle σ} {a b : Run (Recall σ)} (advances : a.Advances inner.caching b)
    {f : Formula} {verdict : Verdict} (known : a.memory.answer? f = some verdict) :
    b.memory.answer? f = some verdict := by
  obtain ⟨asked, reached⟩ := advances.recalls.memory
  rw [reached]
  exact Recall.answer?_after inner known asked

end Advances

variable {ctx : Context σ} {routines : List Routine} {oracle : Oracle σ} {a b : Run σ}

theorem facts_grow_setFact (s : Summary) (place block : Handle) (fact : Fact)
    (known : (s.factOf? block).isSome = true) :
    ((s.setFact place fact).factOf? block).isSome = true := by
  rw [Summary.factOf?_setFact]
  split
  · rfl
  · exact known

theorem Advances.asked (ctx : Context σ) (f : Formula) (a : Run σ) :
    a.Advances ctx.oracle (a.asked ctx f) where
  knowledge := .refl _
  facts _ known := known
  recalls := .asked a f rfl rfl
  diagnostics := List.prefix_rfl
  pointerCodes _ _ has := has
  integerCodes _ _ has _ := has

theorem Advances.addError (a : Run σ) (f : Handle) (d : Descriptor) :
    a.Advances oracle (a.addError f d) where
  knowledge := below_addError a f d
  facts _ known := known
  recalls := .of_eq rfl rfl
  diagnostics := List.prefix_rfl
  pointerCodes _ _ has := has.addDescriptor f d
  integerCodes _ _ has _ := has.addDescriptor f d

theorem Advances.setFact (a : Run σ) (block : Handle) (fact : Fact) :
    a.Advances oracle { a with summary := a.summary.setFact block fact } where
  knowledge := .refl _
  facts other := facts_grow_setFact _ block other fact
  recalls := .of_eq rfl rfl
  diagnostics := List.prefix_rfl
  pointerCodes _ _ has := has
  integerCodes _ _ has _ := has

/-- Codes may be withdrawn that the function reports success with. -/
theorem Advances.retract {f : Handle} {codes : SortedSet Int}
    (successes : ∀ c ∈ codes, c ∈ a.knowledge.successCodesOf f) :
    a.Advances oracle { a with summary := a.summary.retract f codes } where
  knowledge := .refl _
  facts block known := by
    rwa [Summary.factOf?, Summary.facts_retract]
  recalls := .of_eq rfl rfl
  diagnostics := List.prefix_rfl
  pointerCodes _ _ has := has.retract_pointer f codes
  integerCodes g c has noSuccess :=
    has.retract fun same withdrawn => noSuccess (same ▸ successes c withdrawn)

/-- A block returns one code, so a block that fits a success code returns nothing else. -/
theorem successCodes_of_fits {r : Routine} {block : Block} {d : Descriptor}
    {taken : SortedSet Handle} {k : Knowledge}
    (described : Routine.blockDescriptor? ctx.program r block = some (d, taken))
    (fits : k.fitsSuccess r.handle d = true) :
    ∀ c ∈ d.returns.codes, c ∈ k.successCodesOf r.handle := by
  simp only [Routine.blockDescriptor?, Option.map_eq_some_iff, Prod.mk.injEq] at described
  obtain ⟨code, -, rfl, -⟩ := described
  simp only [Knowledge.fitsSuccess, Bool.and_eq_true, Bool.not_eq_true', ← Bool.not_eq_true,
    SortedSet.disjoint_iff] at fits
  simpa [Routine.signal, Returns.single] using fits.2

theorem Move.advances (move : Move ctx routines a b) : a.Advances ctx.oracle b := by
  have below := move.below
  have recalls := move.recalls
  cases move with
  | warn d =>
      refine ⟨below, fun _ known => known, recalls, ?_, fun _ _ has => has, fun _ _ has _ => has⟩
      unfold Diagnostic.emit
      split
      · exact List.prefix_rfl
      · exact List.prefix_append _ _
  | succeed routine block behind constant checked kept refuted =>
      exact ⟨below, fun other => facts_grow_setFact _ _ other _, recalls, List.prefix_rfl,
        fun _ _ has => has, fun _ _ has _ => has⟩
  | withdraw routine block evidence described fits =>
      exact (Advances.asked ctx _ a).trans
        ((Advances.setFact _ _ _).trans (.retract (successCodes_of_fits described fits)))
  | report routine block evidence described unfit =>
      exact (Advances.asked ctx _ a).trans ((Advances.setFact _ _ _).trans (.addError _ _ _))
  | generalize => exact .addError _ _ _
  | forward => exact .addError _ _ _
  | _ => exact ⟨below, fun _ known => known, recalls, List.prefix_rfl, fun _ _ has => has,
      fun _ _ has _ => has⟩

theorem Moves.advances (moves : Moves ctx routines a b) : a.Advances ctx.oracle b := by
  induction moves with
  | refl => exact .refl _
  | tail _ move ih => exact ih.trans move.advances

/-- One round, which the oracle may end before it is complete. -/
theorem advances_round (ctx : Context σ) (routines : List Routine) (a : Run σ) :
    a.Advances ctx.oracle ((Inference.round ctx routines).run a).2 :=
  (Inference.leads_round a).moves.advances

/--
However many rounds are made from an empty summary, with whatever oracle and classifier, all that has
been learned, marked, asked and written stays, and no code gets lost but integer codes that the
function reports success with.
-/
theorem after_advances (ctx : Context σ) (routines : List Routine) (oracle : σ) (n more : Nat) :
    ((initial oracle).after ctx routines n).Advances ctx.oracle
      ((initial oracle).after ctx routines (n + more)) := by
  induction more with
  | zero => exact .refl _
  | succ more ih =>
      refine ih.trans ?_
      rw [after, after, ← Nat.add_assoc, rounds_succ, Inference.run_bind]
      split
      · rename_i reached ended
        rw [ended]
        exact advances_round ctx routines reached
      · rename_i ended
        rw [ended]
        exact .refl _

end Run

end ErrorContracts
