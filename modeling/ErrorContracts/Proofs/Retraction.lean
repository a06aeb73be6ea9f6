import ErrorContracts.Proofs.Convergence
import ErrorContracts.Proofs.Growth

/-!
# Retraction

A retraction takes integer codes away from the descriptors of one function.  What is left of each
descriptor is what it has of other codes; nothing else changes.  Retractions add up: several of them
take away the codes that they take away together, so neither their order nor their number matters.
-/

namespace ErrorContracts

namespace Summary

variable {codes : SortedSet Int} {d e : Descriptor} {ds : SortedSet Descriptor}

/-! ## What is left of descriptors -/

theorem without_eq_pointer_iff (pointer : e.isInteger = false) :
    without codes d = some e ↔ d = e := by
  rw [without_eq_some_iff]
  split
  · rename_i integer
    constructor
    · rintro ⟨-, -, integer', -⟩
      rw [pointer] at integer'
      cases integer'
    · rintro rfl
      rw [pointer] at integer
      cases integer
  · exact eq_comm

/-- What is left of an integer descriptor has its other codes and is the same in all else. -/
theorem without_eq_integer_iff (integer : e.isInteger = true) :
    without codes d = some e ↔
      d.isInteger = true ∧ e.actions = d.actions ∧ e.witnesses = d.witnesses ∧
        ∀ c, c ∈ e.returns.codes ↔ c ∈ d.returns.codes ∧ c ∉ codes := by
  rw [without_eq_some_iff]
  split
  · rename_i integer'
    simp [integer, integer', SortedSet.ext_iff]
  · rename_i pointer
    constructor
    · rintro rfl
      exact absurd integer pointer
    · exact fun left => absurd left.1 pointer

/-- What is left of a set of descriptors. -/
def remaining (codes : SortedSet Int) (ds : SortedSet Descriptor) : SortedSet Descriptor :=
  SortedSet.ofList (ds.toList.filterMap (without codes))

theorem mem_remaining : e ∈ remaining codes ds ↔ ∃ d ∈ ds, without codes d = some e := by
  rw [remaining, SortedSet.mem_ofList, List.mem_filterMap]
  rfl

@[simp]
theorem remaining_empty : remaining ∅ = id :=
  funext fun ds => SortedSet.ext fun e => by simp [mem_remaining, without_empty]

theorem remaining_remaining (codes codes' : SortedSet Int) (ds : SortedSet Descriptor) :
    remaining codes' (remaining codes ds) = remaining (codes ∪ codes') ds := by
  refine SortedSet.ext fun e => ?_
  simp only [mem_remaining, without_union, Option.bind_eq_some_iff]
  constructor
  · rintro ⟨m, ⟨d, listed, first⟩, second⟩
    exact ⟨d, listed, m, first, second⟩
  · rintro ⟨d, listed, m, first, second⟩
    exact ⟨m, ⟨d, listed, first⟩, second⟩

/-! ## One retraction -/

variable {s : Summary} {f : Handle}

theorem get?_retract (s : Summary) (f g : Handle) (codes : SortedSet Int) :
    (s.retract f codes).descriptors.get? g =
      (s.descriptors.get? g).map (remaining (if g = f then codes else ∅)) := by
  unfold retract
  split
  · rename_i unbound
    split
    · rename_i same
      rw [same, unbound]
      rfl
    · simp
  · rename_i ds bound
    rw [SortedMap.get?_insert]
    split
    · rename_i same
      rw [same, bound]
      rfl
    · simp

theorem mem_descriptorsOf_retract :
    e ∈ (s.retract f codes).descriptorsOf f ↔ ∃ d ∈ s.descriptorsOf f, without codes d = some e := by
  rw [descriptorsOf_retract, if_pos rfl]
  exact mem_remaining

/-- The function has an integer code in a descriptor with the given actions and witnesses. -/
def HasCodeAs (s : Summary) (f : Handle) (actions : SortedSet Action) (witnesses : List Witness)
    (c : Int) : Prop :=
  ∃ d ∈ s.descriptorsOf f,
    d.isInteger = true ∧ d.actions = actions ∧ d.witnesses = witnesses ∧ c ∈ d.returns.codes

/-- The second summary is the first one without the given integer codes of one function. -/
structure Loses (f : Handle) (codes : SortedSet Int) (s t : Summary) : Prop where
  gone : ∀ d ∈ t.descriptorsOf f, d.isInteger = true → ∀ c ∈ codes, c ∉ d.returns.codes
  kept : ∀ actions witnesses, ∀ c ∉ codes,
    t.HasCodeAs f actions witnesses c ↔ s.HasCodeAs f actions witnesses c
  /-- A descriptor is left exactly if it has codes, all those of one before that are not lost. -/
  left : ∀ d, d.isInteger = true →
    (d ∈ t.descriptorsOf f ↔
      (∃ c, c ∈ d.returns.codes) ∧ ∃ e ∈ s.descriptorsOf f,
        e.isInteger = true ∧ d.actions = e.actions ∧ d.witnesses = e.witnesses ∧
          ∀ c, c ∈ d.returns.codes ↔ c ∈ e.returns.codes ∧ c ∉ codes)
  pointers : ∀ d, d.isInteger = false → (d ∈ t.descriptorsOf f ↔ d ∈ s.descriptorsOf f)
  others : ∀ g ≠ f, t.descriptors.get? g = s.descriptors.get? g
  facts : t.facts = s.facts

theorem loses_retract (s : Summary) (f : Handle) (codes : SortedSet Int) :
    Loses f codes s (s.retract f codes) where
  gone d left integer c lost member := by
    obtain ⟨e, -, rest⟩ := mem_descriptorsOf_retract.1 left
    obtain ⟨-, -, -, exact⟩ := (without_eq_integer_iff integer).1 rest
    exact ((exact c).1 member).2 lost
  kept actions witnesses c kept := by
    constructor
    · rintro ⟨d, left, integer, rfl, rfl, member⟩
      obtain ⟨e, seen, rest⟩ := mem_descriptorsOf_retract.1 left
      obtain ⟨integer', actions, witnesses, exact⟩ := (without_eq_integer_iff integer).1 rest
      exact ⟨e, seen, integer', actions.symm, witnesses.symm, ((exact c).1 member).1⟩
    · rintro ⟨e, seen, integer, rfl, rfl, member⟩
      obtain ⟨d, rest, same, member'⟩ := HasCode.exists_without kept member
      have integer' : d.isInteger = true := by
        rw [← integer, Descriptor.isInteger, Returns.isInteger, same]
        rfl
      obtain ⟨-, actions, witnesses, -⟩ := (without_eq_integer_iff integer').1 rest
      exact ⟨d, mem_descriptorsOf_retract.2 ⟨e, seen, rest⟩, integer', actions, witnesses, member'⟩
  left d integer := by
    simp only [mem_descriptorsOf_retract, without_eq_integer_iff integer]
    exact (and_iff_right d.returns.exists_code).symm
  pointers d pointer := by
    simp [mem_descriptorsOf_retract, without_eq_pointer_iff pointer]
  others g other := by
    rw [get?_retract, if_neg other]
    simp
  facts := facts_retract s f codes

end Summary

/-! ## Several retractions -/

/-- The integer codes that a list of retractions takes away from a function. -/
def retracted (g : Handle) : List (Handle × Descriptor) → SortedSet Int
  | [] => ∅
  | (f, d) :: l =>
      (if g = f ∧ d.isInteger = true then d.returns.codes else ∅) ∪ retracted g l

theorem mem_retracted {g : Handle} {l : List (Handle × Descriptor)} {c : Int} :
    c ∈ retracted g l ↔ ∃ d, (g, d) ∈ l ∧ d.isInteger = true ∧ c ∈ d.returns.codes := by
  induction l with
  | nil => simp [retracted]
  | cons p l ih =>
      obtain ⟨f, d⟩ := p
      rw [retracted, SortedSet.mem_union, ih]
      constructor
      · rintro (first | ⟨e, listed, rest⟩)
        · split at first
          · rename_i own
            obtain ⟨rfl, integer⟩ := own
            exact ⟨d, List.mem_cons_self, integer, first⟩
          · exact absurd first (SortedSet.not_mem_empty c)
        · exact ⟨e, List.mem_cons_of_mem _ listed, rest⟩
      · rintro ⟨e, listed, integer, member⟩
        cases listed with
        | head => exact .inl (by rwa [if_pos ⟨rfl, integer⟩])
        | tail _ listed => exact .inr ⟨e, listed, integer, member⟩

namespace Inference

variable {σ : Type}

theorem run_retract_any (f : Handle) (d : Descriptor) (a : Run σ) :
    ∃ s, (retract f d).run a = (.ok (), { a with summary := s }) ∧ s.facts = a.summary.facts ∧
      ∀ g, s.descriptors.get? g =
        (a.summary.descriptors.get? g).map
          (Summary.remaining (if g = f ∧ d.isInteger = true then d.returns.codes else ∅)) := by
  cases kind : d.isInteger with
  | false =>
      refine ⟨a.summary, ?_, rfl, by simp⟩
      rw [retract, if_neg (by simp [kind])]
      rfl
  | true =>
      refine ⟨_, run_retract kind f a, Summary.facts_retract _ _ _, fun g => ?_⟩
      simp [Summary.get?_retract]

theorem run_forM_retract (l : List (Handle × Descriptor)) (a : Run σ) :
    ∃ s, (forM l fun p => retract p.1 p.2).run a = (.ok (), { a with summary := s }) ∧
      s.facts = a.summary.facts ∧
      ∀ g, s.descriptors.get? g =
        (a.summary.descriptors.get? g).map (Summary.remaining (retracted g l)) := by
  induction l generalizing a with
  | nil => exact ⟨a.summary, rfl, rfl, by simp [retracted]⟩
  | cons p l ih =>
      obtain ⟨f, d⟩ := p
      obtain ⟨s, done, facts, left⟩ := run_retract_any f d a
      obtain ⟨t, done', facts', left'⟩ := ih { a with summary := s }
      refine ⟨t, ?_, facts'.trans facts, fun g => ?_⟩
      · rw [List.forM_cons, run_bind_of_ok done]
        exact done'
      · rw [left', left, Option.map_map, retracted]
        congr 1
        exact funext fun ds => Summary.remaining_remaining _ _ ds

/-- Lists of the same retractions, in whatever order and number, end in the same run. -/
theorem run_forM_retract_congr {l k : List (Handle × Descriptor)} (same : ∀ p, p ∈ l ↔ p ∈ k)
    (a : Run σ) :
    ∃ s, (forM l fun p => retract p.1 p.2).run a = (.ok (), { a with summary := s }) ∧
      (forM k fun p => retract p.1 p.2).run a = (.ok (), { a with summary := s }) := by
  obtain ⟨s, done, facts, left⟩ := run_forM_retract l a
  obtain ⟨t, done', facts', left'⟩ := run_forM_retract k a
  have descriptors : s.descriptors = t.descriptors := by
    refine SortedMap.ext fun g => ?_
    have codes : retracted g l = retracted g k :=
      SortedSet.ext fun c => by simp only [mem_retracted, same]
    rw [left, left', codes]
  have agree : s = t := by
    cases s
    cases t
    cases descriptors
    cases facts.trans facts'.symm
    rfl
  exact ⟨s, done, agree ▸ done'⟩

/--
A retraction takes exactly the codes of its descriptor from the integer descriptors of its function,
and several retractions end the same in whatever order and number they are made.
-/
theorem retract_loses_exactly {d : Descriptor} (integer : d.isInteger = true) (f : Handle)
    (a : Run σ) :
    (∃ s, (retract f d).run a = (.ok (), { a with summary := s }) ∧
      Summary.Loses f d.returns.codes a.summary s) ∧
    ∀ l k : List (Handle × Descriptor), (∀ p, p ∈ l ↔ p ∈ k) →
      ∃ s, (forM l fun p => retract p.1 p.2).run a = (.ok (), { a with summary := s }) ∧
        (forM k fun p => retract p.1 p.2).run a = (.ok (), { a with summary := s }) :=
  ⟨⟨_, run_retract integer f a, Summary.loses_retract a.summary f d.returns.codes⟩,
    fun _ _ same => run_forM_retract_congr same a⟩

/-- Zero as an error code. -/
def zeroError : Descriptor := ⟨∅, .single .integer 0, []⟩

/--
Zero was taken for an error in two functions.  In the first it stands beside another code, alone and
as a pointer.
-/
def zeroErrors : Run Nat :=
  { Run.initial 0 with
    summary :=
      (((({} : Summary).addDescriptor 1
        ⟨∅, ⟨.integer, SortedSet.ofList [-1, 0], rfl⟩, []⟩).addDescriptor 1
        ⟨SortedSet.singleton ⟨"log", []⟩, .single .integer 0, []⟩).addDescriptor 1
        ⟨∅, .single .pointer 0, []⟩).addDescriptor 2 zeroError }

theorem retract_loses_exactly_zero :
    zeroError.isInteger = true ∧
    (∃ s, (retract 1 zeroError).run zeroErrors = (.ok (), { zeroErrors with summary := s }) ∧
      Summary.Loses 1 zeroError.returns.codes zeroErrors.summary s ∧
      (s.descriptorsOf 1).toList = [⟨∅, .single .integer (-1), []⟩, ⟨∅, .single .pointer 0, []⟩] ∧
      (s.descriptorsOf 2).toList = [zeroError]) ∧
    ∃ s, (forM [(1, zeroError), (2, zeroError)] fun p => retract p.1 p.2).run zeroErrors =
        (.ok (), { zeroErrors with summary := s }) ∧
      (forM [(2, zeroError), (1, zeroError), (2, zeroError)] fun p => retract p.1 p.2).run
        zeroErrors = (.ok (), { zeroErrors with summary := s }) := by
  obtain ⟨⟨s, done, loses⟩, several⟩ :=
    retract_loses_exactly (d := zeroError) rfl 1 zeroErrors
  have left : s = zeroErrors.summary.retract 1 zeroError.returns.codes :=
    congrArg (fun result => result.2.summary) done.symm
  refine ⟨rfl, ⟨s, done, loses, ?_, ?_⟩, several _ _ fun p => ?_⟩
  · rw [left]
    decide +kernel
  · rw [left]
    decide +kernel
  · simp only [List.mem_cons, List.not_mem_nil, or_false]
    tauto

end Inference

end ErrorContracts
