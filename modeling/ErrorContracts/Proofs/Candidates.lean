import ErrorContracts.Proofs.Lookups
import ErrorContracts.Proofs.Termination
import Mathlib.Tactic.TFAE

/-!
# The candidates of a call

Where a call may reach several functions, its error codes are those on which all of them agree, and
candidates without a code in common are noted.  The agreed codes are the same in whatever order the
candidates are listed.  The note is not: candidates are compared with the first one only.  It comes
out the same in every order exactly if no two candidates are apart, or each of them is apart from
some other, as it is where there are two.
-/

namespace ErrorContracts

variable {σ : Type}

section Codes

variable (ctx : Context σ) (s : Summary)

/-- The error codes that are known of a candidate. -/
def candidateCodes? (f : Handle) : Option (SortedSet Int) := Clause.errorCodes? (knownClauses ctx s f)

/-- The codes of both candidates are known, and they have none in common. -/
def Apart (f g : Handle) : Prop :=
  ∃ codes ∈ candidateCodes? ctx s f, ∃ codes' ∈ candidateCodes? ctx s g,
    codes.disjoint codes' = true

instance (f g : Handle) : Decidable (Apart ctx s f g) :=
  inferInstanceAs (Decidable (∃ codes ∈ candidateCodes? ctx s f,
    ∃ codes' ∈ candidateCodes? ctx s g, codes.disjoint codes' = true))

def AllKnown (callees : List Handle) : Prop :=
  ∀ f ∈ callees, (candidateCodes? ctx s f).isSome = true

instance (callees : List Handle) : Decidable (AllKnown ctx s callees) :=
  inferInstanceAs (Decidable (∀ f ∈ callees, (candidateCodes? ctx s f).isSome = true))

/-- All candidates have known codes, and some two of them are apart. -/
def Clashing (callees : List Handle) : Prop :=
  AllKnown ctx s callees ∧ ∃ f ∈ callees, ∃ g ∈ callees, Apart ctx s f g

instance (callees : List Handle) : Decidable (Clashing ctx s callees) :=
  inferInstanceAs (Decidable (AllKnown ctx s callees ∧ ∃ f ∈ callees, ∃ g ∈ callees,
    Apart ctx s f g))

/-- All candidates have known codes, and the first is apart from another. -/
def FirstApart (callees : List Handle) : Prop :=
  AllKnown ctx s callees ∧ ∃ f ∈ callees.head?, ∃ g ∈ callees, Apart ctx s f g

instance (callees : List Handle) : Decidable (FirstApart ctx s callees) :=
  inferInstanceAs (Decidable (AllKnown ctx s callees ∧ ∃ f ∈ callees.head?, ∃ g ∈ callees,
    Apart ctx s f g))

end Codes

variable {ctx : Context σ} {s : Summary} {f g : Handle} {callees order : List Handle}

theorem Apart.symm (apart : Apart ctx s f g) : Apart ctx s g f := by
  obtain ⟨codes, hf, codes', hg, none⟩ := apart
  refine ⟨codes', hg, codes, hf, SortedSet.disjoint_iff.2 fun c member member' => ?_⟩
  exact SortedSet.disjoint_iff.1 none c member' member

/-- Contracts have codes, so candidates with the same codes are not apart. -/
theorem not_apart_of_eq (same : candidateCodes? ctx s f = candidateCodes? ctx s g) :
    ¬Apart ctx s f g := by
  rintro ⟨codes, hf, _, hg, none⟩
  obtain rfl := Option.some.inj (hf.symm.trans (same.trans hg))
  obtain ⟨contract, -, rfl⟩ := Option.map_eq_some_iff.1 hf
  obtain ⟨c, member⟩ := contract.returns.exists_code
  exact SortedSet.disjoint_iff.1 none c member member

/-! ## One order -/

theorem mapM_eq_none {α β : Type} {p : α → Option β} {l : List α} {a : α} (listed : a ∈ l)
    (missing : p a = none) : l.mapM p = none := by
  induction l with
  | nil => cases listed
  | cons b l ih =>
      rw [List.mapM_cons]
      rcases List.mem_cons.1 listed with rfl | later
      · rw [missing]
        rfl
      · rw [ih later]
        cases p b <;> rfl

theorem candidates_known (known : AllKnown ctx s callees) :
    (callees.mapM fun f => Clause.errorCodes? (knownClauses ctx s f)) =
      some (callees.filterMap (candidateCodes? ctx s)) :=
  mapM_eq_filterMap known

theorem candidates_unknown (unknown : ¬AllKnown ctx s callees) :
    (callees.mapM fun f => Clause.errorCodes? (knownClauses ctx s f)) = none := by
  simp only [AllKnown, not_forall, Bool.not_eq_true, Option.isSome_eq_false_iff,
    Option.isNone_iff_eq_none] at unknown
  obtain ⟨f, listed, missing⟩ := unknown
  exact mapM_eq_none listed missing

/-- The other candidates have the codes of the first. -/
theorem all_eq_iff {rest : List Handle} (first : SortedSet Int) (known : AllKnown ctx s rest) :
    (rest.filterMap (candidateCodes? ctx s)).all (fun codes => codes = first) = true ↔
      ∀ g ∈ rest, candidateCodes? ctx s g = some first := by
  simp only [List.all_eq_true, List.mem_filterMap, decide_eq_true_eq]
  constructor
  · intro same g listed
    obtain ⟨codes, found⟩ := Option.isSome_iff_exists.1 (known g listed)
    rw [found, same codes ⟨g, listed, found⟩]
  · rintro same codes ⟨g, listed, found⟩
    exact Option.some.inj (found.symm.trans (same g listed))

theorem any_disjoint_iff {first : SortedSet Int} (rest : List Handle)
    (own : candidateCodes? ctx s f = some first) :
    (rest.filterMap (candidateCodes? ctx s)).any (fun codes => codes.disjoint first) = true ↔
      ∃ g ∈ f :: rest, Apart ctx s f g := by
  simp only [List.any_eq_true, List.mem_filterMap]
  constructor
  · rintro ⟨codes, ⟨g, listed, found⟩, none⟩
    exact ⟨g, List.mem_cons_of_mem f listed, Apart.symm ⟨codes, found, first, own, none⟩⟩
  · rintro ⟨g, listed, apart⟩
    rcases List.mem_cons.1 listed with rfl | later
    · exact absurd apart (not_apart_of_eq rfl)
    · obtain ⟨codes, found, _, own', none⟩ := apart.symm
      obtain rfl := Option.some.inj (own.symm.trans own')
      exact ⟨codes, ⟨g, later, found⟩, none⟩

theorem firstApart_cons {rest : List Handle} (known : AllKnown ctx s (f :: rest)) :
    FirstApart ctx s (f :: rest) ↔ ∃ g ∈ f :: rest, Apart ctx s f g := by
  refine ⟨?_, fun apart => ⟨known, f, rfl, apart⟩⟩
  rintro ⟨-, _, head, apart⟩
  cases head
  exact apart

/-- The agreed codes are those that each candidate has. -/
theorem agreedCodes?_eq_some_iff {codes : SortedSet Int} :
    agreedCodes? ctx s callees = some codes ↔
      callees ≠ [] ∧ ∀ f ∈ callees, candidateCodes? ctx s f = some codes := by
  unfold agreedCodes?
  by_cases known : AllKnown ctx s callees
  · rw [candidates_known known]
    cases callees with
    | nil => simp
    | cons f rest =>
        obtain ⟨own, others⟩ := List.forall_mem_cons.1 known
        obtain ⟨first, own⟩ := Option.isSome_iff_exists.1 own
        have same := all_eq_iff first others
        rw [List.filterMap_cons, own, List.forall_mem_cons, own]
        dsimp only
        split
        · rename_i agree
          constructor
          · intro given
            cases given
            exact ⟨List.cons_ne_nil f rest, rfl, same.1 agree⟩
          · exact fun given => given.2.1
        · rename_i differ
          simp only [reduceCtorEq, false_iff]
          rintro ⟨-, given, agree⟩
          cases given
          exact differ (same.2 agree)
  · rw [candidates_unknown known]
    simp only [reduceCtorEq, false_iff]
    rintro ⟨-, agree⟩
    exact known fun f listed => by rw [agree f listed]; rfl

namespace Run

def noting (a : Run σ) (d : Diagnostic) : Run σ :=
  { a with diagnostics := d.emit a.diagnostics }

theorem noting_eq_self_iff {a : Run σ} {d : Diagnostic} : a.noting d = a ↔ d ∈ a.diagnostics := by
  constructor
  · intro same
    have noted : d ∈ (a.noting d).diagnostics := Diagnostic.mem_emit.2 (.inl rfl)
    rwa [same] at noted
  · intro noted
    rw [noting, Diagnostic.emit, if_pos noted]

end Run

namespace Inference

/-- The step never fails, and notes a mismatch if the first candidate is apart from another. -/
theorem run_sharedCodes? (ctx : Context σ) (callees : List Handle) (call callee : Handle)
    (a : Run σ) :
    (sharedCodes? ctx callees call callee).run a =
      (.ok (agreedCodes? ctx a.summary callees),
        if FirstApart ctx a.summary callees then a.noting (mismatch ctx.program call callee)
        else a) := by
  unfold sharedCodes?
  simp only [listedCodes?_eq_ok, ofContract_ok, pure_bind]
  rw [run_get_bind, agreedCodes?]
  by_cases known : AllKnown ctx a.summary callees
  · rw [candidates_known known]
    cases callees with
    | nil => rfl
    | cons f rest =>
        obtain ⟨own, others⟩ := List.forall_mem_cons.1 known
        obtain ⟨first, own⟩ := Option.isSome_iff_exists.1 own
        have noted := any_disjoint_iff rest own
        rw [← firstApart_cons known] at noted
        rw [List.filterMap_cons, own]
        dsimp only
        split
        · rename_i agree
          have same := (all_eq_iff first others).1 agree
          have together : ¬FirstApart ctx a.summary (f :: rest) := by
            rw [firstApart_cons known]
            rintro ⟨g, listed, apart⟩
            rcases List.mem_cons.1 listed with rfl | later
            · exact not_apart_of_eq rfl apart
            · exact not_apart_of_eq (own.trans (same g later).symm) apart
          rw [if_neg together]
          rfl
        · split
          · rename_i disjoint
            rw [if_pos (noted.1 disjoint)]
            rfl
          · rename_i shared
            rw [if_neg fun apart => shared (noted.2 apart)]
            rfl
  · rw [candidates_unknown known, if_neg fun apart => known apart.1]
    rfl

/-! ## All orders -/

theorem agreedCodes?_perm (perm : order.Perm callees) :
    agreedCodes? ctx s order = agreedCodes? ctx s callees := by
  refine Option.ext fun codes => ?_
  rw [agreedCodes?_eq_some_iff, agreedCodes?_eq_some_iff]
  refine and_congr (not_congr ?_) (forall_congr' fun f => imp_congr_left perm.mem_iff)
  exact ⟨fun none => (none ▸ perm).symm.eq_nil, fun none => (none ▸ perm).eq_nil⟩

theorem firstApart_perm (perm : order.Perm callees) :
    FirstApart ctx s order ↔
      AllKnown ctx s callees ∧ ∃ f ∈ order.head?, ∃ g ∈ callees, Apart ctx s f g := by
  simp only [FirstApart, AllKnown, perm.mem_iff]

theorem exists_order (listed : f ∈ callees) : ∃ rest, (f :: rest).Perm callees :=
  ⟨callees.erase f, (List.perm_cons_erase listed).symm⟩

theorem clashing_of_firstApart (perm : order.Perm callees) (apart : FirstApart ctx s order) :
    Clashing ctx s callees := by
  obtain ⟨known, f, head, partner⟩ := (firstApart_perm perm).1 apart
  exact ⟨known, f, perm.mem_iff.1 (List.mem_of_mem_head? head), partner⟩

theorem firstApart_of_partners (perm : order.Perm callees) (clash : Clashing ctx s callees)
    (partners : ∀ f ∈ callees, ∃ g ∈ callees, Apart ctx s f g) : FirstApart ctx s order := by
  obtain ⟨known, f, hf, -⟩ := clash
  obtain ⟨first, rest, rfl⟩ := List.exists_cons_of_ne_nil (List.ne_nil_of_mem (perm.mem_iff.2 hf))
  have listed := perm.mem_iff.1 List.mem_cons_self
  exact (firstApart_perm perm).2 ⟨known, first, rfl, partners first listed⟩

/-- One of two candidates that are apart is apart from the other. -/
theorem apart_of_two (few : callees.length ≤ 2) (clash : Clashing ctx s callees) :
    ∀ f ∈ callees, ∃ g ∈ callees, Apart ctx s f g := by
  obtain ⟨-, f, hf, g, hg, apart⟩ := clash
  have other : f ≠ g := fun same => not_apart_of_eq (same ▸ rfl) apart
  intro h hh
  have either : h = f ∨ h = g := by
    match callees with
    | [] => grind
    | [_] => grind
    | [_, _] => grind
    | _ :: _ :: _ :: _ => simp at few
  rcases either with rfl | rfl
  · exact ⟨g, hg, apart⟩
  · exact ⟨f, hf, apart.symm⟩

/--
In every order of the candidates the codes are those that each of them has, and the note is written if
the first candidate is apart from another.  So the order is without effect exactly if the note always
says whether some two candidates are apart, and exactly if, where some two are, the note was written
before or each candidate is apart from another.  That is so for up to two candidates.
-/
theorem sharedCodes?_of_order (ctx : Context σ) (callees : List Handle) (call callee : Handle)
    (a : Run σ) :
    (∀ order, order.Perm callees → ∃ codes?,
      (sharedCodes? ctx order call callee).run a =
        (.ok codes?,
          if FirstApart ctx a.summary order then a.noting (mismatch ctx.program call callee)
          else a) ∧
      ∀ codes, codes? = some codes ↔
        callees ≠ [] ∧ ∀ f ∈ callees, candidateCodes? ctx a.summary f = some codes) ∧
    [∀ order, order.Perm callees →
        (sharedCodes? ctx order call callee).run a = (sharedCodes? ctx callees call callee).run a,
      ∀ order, order.Perm callees →
        ((sharedCodes? ctx order call callee).run a).2 =
          if Clashing ctx a.summary callees then a.noting (mismatch ctx.program call callee)
          else a,
      Clashing ctx a.summary callees →
        mismatch ctx.program call callee ∈ a.diagnostics ∨
          ∀ f ∈ callees, ∃ g ∈ callees, Apart ctx a.summary f g].TFAE ∧
    (callees.length ≤ 2 → Clashing ctx a.summary callees →
      ∀ f ∈ callees, ∃ g ∈ callees, Apart ctx a.summary f g) := by
  refine ⟨fun order perm => ?_, ?_, apart_of_two⟩
  · refine ⟨_, run_sharedCodes? ctx order call callee a, fun codes => ?_⟩
    rw [agreedCodes?_perm perm, agreedCodes?_eq_some_iff]
  · simp only [run_sharedCodes?]
    tfae_have 1 → 3 := by
      rintro same ⟨known, f, hf, g, hg, apart⟩
      refine or_iff_not_imp_left.2 fun fresh h hh => ?_
      -- the note is written with `f` in front, so it must be with `h` in front
      obtain ⟨rest, perm⟩ := exists_order hf
      obtain ⟨rest', perm'⟩ := exists_order hh
      have swapped := congrArg Prod.snd ((same _ perm').trans (same _ perm).symm)
      dsimp only at swapped
      rw [if_pos ((firstApart_perm perm).2 ⟨known, f, rfl, g, hg, apart⟩)] at swapped
      split at swapped
      · rename_i front
        obtain ⟨-, _, head, partner⟩ := (firstApart_perm perm').1 front
        cases head
        exact partner
      · exact absurd (Run.noting_eq_self_iff.1 swapped.symm) fresh
    tfae_have 3 → 2 := by
      intro partners order perm
      by_cases clash : Clashing ctx a.summary callees
      · rw [if_pos clash]
        rcases partners clash with noted | partners
        · rw [Run.noting_eq_self_iff.2 noted, ite_self]
        · rw [if_pos (firstApart_of_partners perm clash partners)]
      · rw [if_neg clash, if_neg fun apart => clash (clashing_of_firstApart perm apart)]
    tfae_have 2 → 1 := by
      intro same order perm
      rw [agreedCodes?_perm perm, same order perm, same callees .rfl]
    tfae_finish

end Inference

/-! ## Three candidates -/

/-- A call through a parameter that may reach three functions, the first of which has all codes. -/
def dispatching : Context Nat where
  program := Module.build {}
    [.external "wide" .i32, .external "low" .i32, .external "high" .i32,
      .function "f" .i32 [(some "p", .ptr)],
      .block 4 "entry", .call (some 6) 5 [] "t" none, .ret (some 6) (some (.value 7))]
  dependencies :=
    [("wide", [.reports ⟨∅, ⟨.integer, SortedSet.ofList [-2, -1], rfl⟩⟩]),
      ("low", [.reports ⟨∅, .single .integer (-2)⟩]),
      ("high", [.reports ⟨∅, .single .integer (-1)⟩])]
  indirect := [(5, [1, 2, 3])]
  oracle := .exact

/-- Two candidates are apart, but the note is written only if one of them is listed first. -/
theorem dispatching_order_matters :
    callTargets dispatching.program dispatching.indirect 5 = [1, 2, 3] ∧
      Clashing dispatching {} [1, 2, 3] ∧ [2, 1, 3].Perm [1, 2, 3] ∧
      (((Inference.sharedCodes? dispatching [1, 2, 3] 7 5).run (Run.initial 0)).2.diagnostics.map
        Diagnostic.render) = [] ∧
      (((Inference.sharedCodes? dispatching [2, 1, 3] 7 5).run (Run.initial 0)).2.diagnostics.map
        Diagnostic.render) =
          ["f:entry: warning: [ErrorAnalysis] Mismatched error return codes for indirect call p"] := by
  refine ⟨by decide +kernel, by decide +kernel, by decide, ?_, ?_⟩
  · rw [Inference.run_sharedCodes?]
    decide +kernel
  · rw [Inference.run_sharedCodes?]
    decide +kernel

/-- Without the candidate that has all codes, the two others are noted in both orders. -/
theorem sharedCodes?_of_order_dispatching :
    [3, 2].Perm [2, 3] ∧ [2, 3].length ≤ 2 ∧ Clashing dispatching {} [2, 3] ∧
      (Inference.sharedCodes? dispatching [3, 2] 7 5).run (Run.initial 0) =
        (Inference.sharedCodes? dispatching [2, 3] 7 5).run (Run.initial 0) ∧
      (((Inference.sharedCodes? dispatching [3, 2] 7 5).run (Run.initial 0)).2.diagnostics.map
        Diagnostic.render) =
          ["f:entry: warning: [ErrorAnalysis] Mismatched error return codes for indirect call p"] := by
  have swap : [3, 2].Perm [2, 3] := by decide
  have clash : Clashing dispatching {} [2, 3] := by decide +kernel
  obtain ⟨-, equivalent, two⟩ :=
    Inference.sharedCodes?_of_order dispatching [2, 3] 7 5 (Run.initial 0)
  have unordered := equivalent.out 0 2
  have exact_notes := equivalent.out 1 2
  have partners := two le_rfl
  have unordered := unordered.2 (fun clash => .inr (partners clash)) [3, 2] swap
  have noted := exact_notes.2 (fun clash => .inr (partners clash)) [3, 2] swap
  refine ⟨swap, le_rfl, clash, unordered, ?_⟩
  rw [noted, if_pos (show Clashing dispatching (Run.initial 0).summary [2, 3] from clash)]
  decide +kernel

end ErrorContracts
