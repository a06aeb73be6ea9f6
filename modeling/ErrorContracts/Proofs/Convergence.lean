import ErrorContracts.Proofs.Exactness
import ErrorContracts.Proofs.Locality

/-!
# Convergence without recursion

What is learned and which blocks have facts becomes constant, because it only grows and there is
finitely much of it.  From then on the changes that a routine makes in a round depend on the
descriptors of the functions that it reads.  Where these stand in front of it, its own changes become
constant after theirs, and the same changes made again and again change nothing from the third time
on.  So the rounds over routines none of which reads itself or a later one come to rest.
-/

namespace ErrorContracts

variable {σ : Type}

/-! ## The same changes again and again -/

namespace Summary

theorem without_empty (d : Descriptor) : without ∅ d = some d := by
  refine without_eq_some_iff.2 ?_
  split
  · rename_i integer
    refine ⟨rfl, rfl, integer, SortedSet.ext fun c => ?_⟩
    simp
  · rfl

/-- Taking codes away in two steps is taking all of them away. -/
theorem without_union (codes more : SortedSet Int) (d : Descriptor) :
    without (codes ∪ more) d = (without codes d).bind (without more) := by
  by_cases integer : d.isInteger = true
  · let left := d.returns.codes.filter fun c => c ∉ codes
    have both : left.filter (fun c => c ∉ more) =
        d.returns.codes.filter fun c => c ∉ codes ∪ more := by
      refine SortedSet.ext fun c => ?_
      simp [left, and_assoc]
    rw [without, without, if_pos integer, if_pos integer, ← both]
    by_cases nonempty : left.isEmpty = false
    · rw [Returns.ofSet?, Returns.ofSet?, dif_pos nonempty]
      rfl
    · have empty : left.isEmpty = true := by simpa using nonempty
      have gone : (left.filter fun c => c ∉ more).isEmpty = true := by
        refine SortedSet.isEmpty_iff.2 fun c hc => ?_
        exact SortedSet.isEmpty_iff.1 empty c (SortedSet.mem_filter.1 hc).1
      rw [Returns.ofSet?, Returns.ofSet?, dif_neg nonempty, dif_neg (by rw [gone]; decide)]
      rfl
  · rw [without, without, if_neg integer, if_neg integer]
    exact (if_neg integer).symm

theorem without_idem {codes : SortedSet Int} {d e : Descriptor} (left : without codes d = some e) :
    without codes e = some e := by
  have twice := without_union codes codes d
  have same : codes ∪ codes = codes := SortedSet.ext fun c => by simp
  rw [same, left] at twice
  exact twice.symm

end Summary

namespace Change

/-- The codes that some changes take away. -/
def withdrawn (changes : List Change) : SortedSet Int :=
  changes.foldl (fun codes c => match c with | .withdraw _ more => codes ∪ more | _ => codes) ∅

/-- What some changes make of descriptors: codes are taken away, and new descriptors come in. -/
theorem mem_foldl_onDescriptors {changes : List Change} {ds : SortedSet Descriptor} {d : Descriptor} :
    d ∈ changes.foldl onDescriptors ds ↔
      (∃ e ∈ ds, Summary.without (withdrawn changes) e = some d) ∨
        d ∈ changes.foldl onDescriptors ∅ := by
  induction changes using List.reverseRecOn generalizing d with
  | nil =>
      simp [withdrawn, Summary.without_empty]
  | append_singleton changes c ih =>
      have adding : ∀ e, (withdrawn (changes ++ [c]) = withdrawn changes) →
          (∀ ds, c.onDescriptors ds = ds.insert e) →
          (d ∈ (changes ++ [c]).foldl onDescriptors ds ↔
            (∃ e ∈ ds, Summary.without (withdrawn (changes ++ [c])) e = some d) ∨
              d ∈ (changes ++ [c]).foldl onDescriptors ∅) := by
        intro e same inserts
        simp only [List.foldl_append, List.foldl_cons, List.foldl_nil, inserts, SortedSet.mem_insert,
          ih, same]
        exact or_left_comm
      cases c with
      | note _ => simpa [withdrawn, onDescriptors] using ih
      | succeed _ _ => simpa [withdrawn, onDescriptors] using ih
      | report _ _ e => exact adding e (by simp [withdrawn]) fun _ => rfl
      | add e => exact adding e (by simp [withdrawn]) fun _ => rfl
      | withdraw b codes =>
          have more : withdrawn (changes ++ [.withdraw b codes]) = withdrawn changes ∪ codes := by
            simp [withdrawn]
          simp only [List.foldl_append, List.foldl_cons, List.foldl_nil, onDescriptors,
            SortedSet.mem_ofList, List.mem_filterMap, more, Summary.without_union,
            Option.bind_eq_some_iff]
          constructor
          · rintro ⟨e, he, left⟩
            rcases ih.1 he with ⟨first, hd, before⟩ | new
            · exact .inl ⟨first, hd, e, before, left⟩
            · exact .inr ⟨e, new, left⟩
          · rintro (⟨first, hd, e, before, left⟩ | ⟨e, new, left⟩)
            · exact ⟨e, ih.2 (.inl ⟨first, hd, before⟩), left⟩
            · exact ⟨e, ih.2 (.inr new), left⟩

/-- Changes that are made for the third time change nothing. -/
theorem foldl_onDescriptors_thrice (changes : List Change) (ds : SortedSet Descriptor) :
    changes.foldl onDescriptors (changes.foldl onDescriptors (changes.foldl onDescriptors ds)) =
      changes.foldl onDescriptors (changes.foldl onDescriptors ds) := by
  refine SortedSet.ext fun d => ?_
  have step : ∀ (ds : SortedSet Descriptor) (d : Descriptor), d ∈ changes.foldl onDescriptors ds ↔
      (∃ e ∈ ds, Summary.without (withdrawn changes) e = some d) ∨
        d ∈ changes.foldl onDescriptors ∅ := fun ds d => mem_foldl_onDescriptors
  constructor
  · intro third
    rcases (step _ d).1 third with ⟨e, second, left⟩ | new
    · rcases (step _ e).1 second with ⟨first, known, before⟩ | new
      · have same := Summary.without_idem before
        rw [left] at same
        cases same
        exact second
      · exact (step _ d).2 (.inl ⟨e, (step _ e).2 (.inr new), left⟩)
    · exact (step _ d).2 (.inr new)
  · intro second
    rcases (step _ d).1 second with ⟨e, first, left⟩ | new
    · exact (step _ d).2 (.inl ⟨d, second, Summary.without_idem left⟩)
    · exact (step _ d).2 (.inr new)

end Change

/-! ## What only grows -/

namespace Findings

/-- Blocks keep having facts, and success codes are kept. -/
structure Grows (s t : Findings) : Prop where
  facts : ∀ h, (s.summary.factOf? h).isSome = true → (t.summary.factOf? h).isSome = true
  successes : ∀ f c, c ∈ s.knowledge.successCodesOf f → c ∈ t.knowledge.successCodesOf f

variable {ctx : Context σ} {routines : List Routine} {s t u : Findings}

theorem Grows.refl (s : Findings) : s.Grows s := ⟨fun _ => id, fun _ _ => id⟩

theorem Grows.trans (first : s.Grows t) (second : t.Grows u) : s.Grows u :=
  ⟨fun h known => second.facts h (first.facts h known),
    fun f c known => second.successes f c (first.successes f c known)⟩

theorem grows_change (f : Handle) (s : Findings) (c : Change) : s.Grows (s.change f c) := by
  constructor
  · intro h known
    rw [factOf?_change]
    split
    · split
      · rfl
      · exact known
    · exact known
  · intro g code known
    rw [Knowledge.successCodesOf, successes_change]
    split
    · exact (Knowledge.Below.addSuccess s.knowledge f _).successCodes g code known
    · exact known

theorem grows_apply (f : Handle) (s : Findings) (changes : List Change) :
    s.Grows (s.apply f changes) := by
  induction changes generalizing s with
  | nil => exact .refl s
  | cons c changes ih => exact (grows_change f s c).trans (ih _)

theorem grows_sweep (phase : Phase) (s : Findings) (routines : List Routine) :
    s.Grows (s.sweep phase routines) :=
  sweep_induction (fun t => s.Grows t) (fun _ _ _ _ _ _ t grown => grown.trans (grows_apply _ t _))
    (.refl s)

theorem grows_learn : s.Grows (s.learn ctx routines) := by
  constructor
  · rw [learn_parts.1]
    exact fun _ => id
  · intro f c
    rw [Knowledge.successCodesOf, Knowledge.successCodesOf, learn_parts.2]
    exact id

theorem grows_round : s.Grows (s.round ctx routines) :=
  ((grows_sweep _ _ _).trans (grows_sweep _ _ _)).trans
    (grows_learn.trans ((grows_sweep _ _ _).trans (grows_sweep _ _ _)))

theorem SameView.of_grows {r : Routine} (up : s.Grows t) (down : t.Grows s)
    (descriptors : ∀ f, r.Reads ctx f → s.summary.descriptorsOf f = t.summary.descriptorsOf f) :
    s.SameView ctx r t where
  descriptors := descriptors
  classified b _ := Bool.eq_iff_iff.2 ⟨up.facts b.handle, down.facts b.handle⟩
  successes := SortedSet.ext fun c => ⟨up.successes r.handle c, down.successes r.handle c⟩

/-! ## One routine through a round -/

theorem descriptorsOf_apply (f g : Handle) (s : Findings) (changes : List Change) :
    (s.apply f changes).summary.descriptorsOf g =
      if g = f then changes.foldl Change.onDescriptors (s.summary.descriptorsOf f)
      else s.summary.descriptorsOf g := by
  induction changes generalizing s with
  | nil =>
      split
      · rename_i same
        rw [same]
        rfl
      · rfl
  | cons c changes ih =>
      refine (ih _).trans ?_
      rw [descriptorsOf_change, descriptorsOf_change, if_pos rfl]
      by_cases same : g = f
      · rw [if_pos same, if_pos same]
        rfl
      · rw [if_neg same, if_neg same, if_neg same]

theorem descriptorsOf_sweep {phase : Phase} {f : Handle} (absent : ∀ r ∈ routines, r.handle ≠ f) :
    (s.sweep phase routines).summary.descriptorsOf f = s.summary.descriptorsOf f := by
  refine sweep_induction (fun t => t.summary.descriptorsOf f = s.summary.descriptorsOf f) ?_ rfl
  intro r listed b _ deed _ t same
  rw [descriptorsOf_apply, if_neg (absent r listed).symm, same]

end Findings

/-- No routine reads itself or one that stands behind it. -/
structure Layered (ctx : Context σ) (routines : List Routine) : Prop extends Arranged ctx routines where
  own : ∀ r ∈ routines, ¬r.Reads ctx r.handle

namespace Findings

variable {ctx : Context σ} {before after routines : List Routine} {r : Routine} {s t : Findings}

/--
A routine makes the same changes in two sweeps that find the same facts and success codes, if the
functions in front of it end up with the same descriptors.
-/
theorem made_eq_of_settled {phase : Phase} (isLocal : phase.Local ctx)
    (layered : Layered ctx (before ++ r :: after))
    (up : (s.sweep phase (before ++ r :: after)).Grows t)
    (down : (t.sweep phase (before ++ r :: after)).Grows s)
    (foreign : ∀ f, (∀ x ∈ before ++ r :: after, x.handle ≠ f) →
      s.summary.descriptorsOf f = t.summary.descriptorsOf f)
    (settled : ∀ x ∈ before, (s.sweep phase (before ++ r :: after)).summary.descriptorsOf x.handle =
      (t.sweep phase (before ++ r :: after)).summary.descriptorsOf x.handle) :
    made phase r (s.sweep phase before) = made phase r (t.sweep phase before) := by
  have split : ∀ u : Findings, u.sweep phase (before ++ r :: after) =
      (u.sweep phase before).sweep phase (r :: after) := fun u => List.foldl_append
  have half : ∀ u : Findings, (u.sweep phase before).Grows (u.sweep phase (before ++ r :: after)) :=
    fun u => split u ▸ grows_sweep phase _ _
  have apart := (List.pairwise_append.1 layered.apart).2.2
  have order := (List.pairwise_cons.1 (List.pairwise_append.1 layered.order).2.1).1
  refine made_eq isLocal (.of_grows (((half s).trans up).trans (grows_sweep phase t before))
    (((half t).trans down).trans (grows_sweep phase s before)) fun f reads => ?_)
  by_cases earlier : ∃ x ∈ before, x.handle = f
  · obtain ⟨x, listed, rfl⟩ := earlier
    have untouched : ∀ y ∈ r :: after, y.handle ≠ x.handle :=
      fun y behind => (apart x listed y behind).handles.symm
    have same := settled x listed
    rwa [split, split, descriptorsOf_sweep untouched, descriptorsOf_sweep untouched] at same
  · have absent : ∀ x ∈ before, x.handle ≠ f := fun x listed same => earlier ⟨x, listed, same⟩
    rw [descriptorsOf_sweep absent, descriptorsOf_sweep absent]
    refine foreign f fun x listed same => ?_
    rcases List.mem_append.1 listed with front | behind
    · exact absent x front same
    · rcases List.mem_cons.1 behind with rfl | later
      · exact layered.own x listed (same ▸ reads)
      · exact order x later (same ▸ reads)

theorem descriptorsOf_sweep_self {phase : Phase} (layered : Layered ctx (before ++ r :: after)) :
    (s.sweep phase (before ++ r :: after)).summary.descriptorsOf r.handle =
      (made phase r (s.sweep phase before)).foldl Change.onDescriptors
        (s.summary.descriptorsOf r.handle) := by
  obtain ⟨-, rest, apart⟩ := List.pairwise_append.1 layered.apart
  have behind : ∀ x ∈ after, x.handle ≠ r.handle :=
    fun x listed => ((List.pairwise_cons.1 rest).1 x listed).handles.symm
  have front : ∀ x ∈ before, x.handle ≠ r.handle :=
    fun x listed => (apart x listed r (by simp)).handles
  have split : s.sweep phase (before ++ r :: after) =
      ((s.sweep phase before).visit phase r).sweep phase after := List.foldl_append
  rw [split, descriptorsOf_sweep behind, visit_eq_apply, descriptorsOf_apply, if_pos rfl,
    descriptorsOf_sweep front]

/-- The findings when the facts have been found and the names learned. -/
def learned (ctx : Context σ) (routines : List Routine) (s : Findings) : Findings :=
  (s.extract ctx routines).learn ctx routines

/-- The sweeps of a round, each with what it starts from. -/
def legs (ctx : Context σ) (routines : List Routine) (s : Findings) : List (Phase × Findings) :=
  let known := s.learned ctx routines
  let general := generalPhase ctx (known.names ctx) known.knowledge.successCodes
  [(successPhase ctx, s), (knownPhase ctx, s.sweep (successPhase ctx) routines), (general, known),
    (forwardPhase ctx, known.sweep general routines)]

/-- The descriptors of a function after each sweep of a round. -/
def course (ctx : Context σ) (routines : List Routine) (f : Handle) (s : Findings) :
    List (SortedSet Descriptor) :=
  (s.legs ctx routines).map fun (phase, m) => (m.sweep phase routines).summary.descriptorsOf f

/-- The changes that a routine behind `before` makes in each sweep of a round. -/
def turn (ctx : Context σ) (routines before : List Routine) (r : Routine) (s : Findings) :
    List (List Change) :=
  (s.legs ctx routines).map fun (phase, m) => made phase r (m.sweep phase before)

/-- Two findings from which a round meets the same facts, success codes and names. -/
structure Calm (ctx : Context σ) (routines : List Routine) (s t : Findings) : Prop where
  up : (s.round ctx routines).Grows t
  down : (t.round ctx routines).Grows s
  knowledge : (s.round ctx routines).knowledge = (t.round ctx routines).knowledge
  foreign : ∀ f, (∀ x ∈ routines, x.handle ≠ f) → s.summary.descriptorsOf f = t.summary.descriptorsOf f

theorem learned_eq (same : (s.round ctx routines).knowledge = (t.round ctx routines).knowledge) :
    (s.learned ctx routines).knowledge.reporters = (t.learned ctx routines).knowledge.reporters ∧
      (s.learned ctx routines).knowledge.successes = (t.learned ctx routines).knowledge.successes := by
  have reporters : ∀ u : Findings, (u.round ctx routines).knowledge.reporters =
      (u.learned ctx routines).knowledge.reporters := fun u =>
    (reporters_sweep _ _ _).trans (reporters_sweep _ _ _)
  have successes : ∀ u : Findings, (u.round ctx routines).knowledge.successes =
      (u.learned ctx routines).knowledge.successes := fun u => successes_conclude
  exact ⟨by rw [← reporters, ← reporters, same], by rw [← successes, ← successes, same]⟩

/-- A sweep of the round from `s`, by the rules of a phase and from the findings `m`. -/
structure Leg (ctx : Context σ) (routines : List Routine) (s : Findings) (phase : Phase)
    (m : Findings) : Prop where
  isLocal : phase.Local ctx
  start : s.Grows m
  finish : (m.sweep phase routines).Grows (s.round ctx routines)
  foreign : ∀ f, (∀ x ∈ routines, x.handle ≠ f) → m.summary.descriptorsOf f = s.summary.descriptorsOf f

theorem leg_of_mem {phase : Phase} {m : Findings} (listed : (phase, m) ∈ s.legs ctx routines) :
    Leg ctx routines s phase m := by
  have extracted : s.Grows (s.extract ctx routines) := (grows_sweep _ _ _).trans (grows_sweep _ _ _)
  have known : s.Grows (s.learned ctx routines) := extracted.trans grows_learn
  have concluded : (s.extract ctx routines).Grows (s.round ctx routines) :=
    grows_learn.trans ((grows_sweep _ _ _).trans (grows_sweep _ _ _))
  have foreign : ∀ f, (∀ x ∈ routines, x.handle ≠ f) →
      (s.learned ctx routines).summary.descriptorsOf f = s.summary.descriptorsOf f := by
    intro f absent
    rw [learned, learn_parts.1, extract, descriptorsOf_sweep absent, descriptorsOf_sweep absent]
  simp only [legs, List.mem_cons, Prod.mk.injEq, List.not_mem_nil, or_false] at listed
  obtain ⟨rfl, rfl⟩ | ⟨rfl, rfl⟩ | ⟨rfl, rfl⟩ | ⟨rfl, rfl⟩ := listed
  · exact ⟨local_successPhase, .refl _, (grows_sweep _ _ _).trans concluded, fun _ _ => rfl⟩
  · exact ⟨local_knownPhase, grows_sweep _ _ _, concluded, fun f => descriptorsOf_sweep⟩
  · exact ⟨local_generalPhase _ _, known, grows_sweep _ _ _, foreign⟩
  · exact ⟨local_forwardPhase, known.trans (grows_sweep _ _ _), .refl _,
      fun f absent => (descriptorsOf_sweep absent).trans (foreign f absent)⟩

theorem Leg.made_eq {phase : Phase} {m n : Findings} (leg : Leg ctx routines s phase m)
    (leg' : Leg ctx routines t phase n) (calm : Calm ctx routines s t)
    (split : routines = before ++ r :: after) (layered : Layered ctx routines)
    (settled : ∀ x ∈ before, (m.sweep phase routines).summary.descriptorsOf x.handle =
      (n.sweep phase routines).summary.descriptorsOf x.handle) :
    made phase r (m.sweep phase before) = made phase r (n.sweep phase before) := by
  have up := (leg.finish.trans calm.up).trans leg'.start
  have down := (leg'.finish.trans calm.down).trans leg.start
  have foreign : ∀ f, (∀ x ∈ routines, x.handle ≠ f) →
      m.summary.descriptorsOf f = n.summary.descriptorsOf f := fun f absent =>
    (leg.foreign f absent).trans ((calm.foreign f absent).trans (leg'.foreign f absent).symm)
  subst split
  exact made_eq_of_settled leg.isLocal layered up down foreign settled

/-- The routine makes the same changes on all of two series of sweeps. -/
theorem map_made_eq {series others : List (Phase × Findings)}
    (phases : series.map Prod.fst = others.map Prod.fst)
    (each : ∀ leg ∈ series, Leg ctx routines s leg.1 leg.2)
    (each' : ∀ leg ∈ others, Leg ctx routines t leg.1 leg.2) (calm : Calm ctx routines s t)
    (split : routines = before ++ r :: after) (layered : Layered ctx routines)
    (same : ∀ x ∈ before,
      series.map (fun (phase, m) => (m.sweep phase routines).summary.descriptorsOf x.handle) =
        others.map fun (phase, m) => (m.sweep phase routines).summary.descriptorsOf x.handle) :
    series.map (fun (phase, m) => made phase r (m.sweep phase before)) =
      others.map fun (phase, m) => made phase r (m.sweep phase before) := by
  induction series generalizing others with
  | nil =>
      obtain rfl : others = [] := by simpa using phases.symm
      rfl
  | cons leg series ih =>
      cases others with
      | nil => cases phases
      | cons other others =>
          obtain ⟨phase, m⟩ := leg
          obtain ⟨phase', n⟩ := other
          simp only [List.map_cons, List.cons.injEq] at phases same ⊢
          obtain ⟨rfl, phases⟩ := phases
          obtain ⟨first, each⟩ := List.forall_mem_cons.1 each
          obtain ⟨first', each'⟩ := List.forall_mem_cons.1 each'
          exact ⟨first.made_eq first' calm split layered fun x listed => (same x listed).1,
            ih phases each each' fun x listed => (same x listed).2⟩

/-- A routine makes the same changes in two rounds if those in front of it take the same course. -/
theorem turn_eq (calm : Calm ctx routines s t) (split : routines = before ++ r :: after)
    (layered : Layered ctx routines)
    (same : ∀ x ∈ before, course ctx routines x.handle s = course ctx routines x.handle t) :
    turn ctx routines before r s = turn ctx routines before r t := by
  obtain ⟨reporters, successes⟩ := learned_eq calm.knowledge
  refine map_made_eq ?_ (fun _ => leg_of_mem) (fun _ => leg_of_mem) calm split layered same
  simp only [legs, Findings.names, Knowledge.successCodes, reporters, successes, List.map_cons,
    List.map_nil]

/-- The descriptors after each of some series of changes. -/
def courseFrom : SortedSet Descriptor → List (List Change) → List (SortedSet Descriptor)
  | _, [] => []
  | ds, changes :: rest =>
      changes.foldl Change.onDescriptors ds ::
        courseFrom (changes.foldl Change.onDescriptors ds) rest

section Split

variable (layered : Layered ctx (before ++ r :: after))

include layered

/-- The course of a routine follows from where it starts and from the changes that it makes. -/
theorem course_eq :
    course ctx (before ++ r :: after) r.handle s =
      courseFrom (s.summary.descriptorsOf r.handle) (turn ctx (before ++ r :: after) before r s) := by
  have known : (s.learned ctx (before ++ r :: after)).summary = _ := learn_parts.1
  simp only [course, turn, legs, List.map_cons, List.map_nil, courseFrom,
    descriptorsOf_sweep_self layered, known, extract]

theorem descriptorsOf_round :
    (s.round ctx (before ++ r :: after)).summary.descriptorsOf r.handle =
      (turn ctx (before ++ r :: after) before r s).flatten.foldl Change.onDescriptors
        (s.summary.descriptorsOf r.handle) := by
  have known : (s.learned ctx (before ++ r :: after)).summary = _ := learn_parts.1
  simp only [turn, legs, List.map_cons, List.map_nil, List.flatten_cons, List.flatten_nil,
    List.append_nil, List.foldl_append, ← descriptorsOf_sweep_self layered]
  rw [← extract, ← known, ← descriptorsOf_sweep_self layered, ← descriptorsOf_sweep_self layered]
  rfl

end Split

/-! ## Rounds without end -/

theorem descriptorsOf_round_foreign {f : Handle} (absent : ∀ x ∈ routines, x.handle ≠ f) :
    (s.round ctx routines).summary.descriptorsOf f = s.summary.descriptorsOf f := by
  rw [round, conclude, descriptorsOf_sweep absent, descriptorsOf_sweep absent, learn_parts.1, extract,
    descriptorsOf_sweep absent, descriptorsOf_sweep absent]

/-- Facts are known of blocks of the routines only. -/
def Placed (routines : List Routine) (s : Findings) : Prop :=
  ∀ h, (s.summary.factOf? h).isSome = true → ∃ r ∈ routines, ∃ b ∈ r.blocks, b.handle = h

theorem Placed.apply {f : Handle} {changes : List Change} (placed : s.Placed routines)
    (marks : ∀ c ∈ changes, ∀ h fact, c.fact? = some (h, fact) →
      ∃ r ∈ routines, ∃ b ∈ r.blocks, b.handle = h) : (s.apply f changes).Placed routines := by
  induction changes generalizing s with
  | nil => exact placed
  | cons c changes ih =>
      obtain ⟨head, tail⟩ := List.forall_mem_cons.1 marks
      refine ih (fun h known => ?_) tail
      rw [factOf?_change] at known
      split at known
      · rename_i b fact marked
        split at known
        · rename_i here
          exact here ▸ head b fact marked
        · exact placed h known
      · exact placed h known

theorem Placed.sweep {phase : Phase} (isLocal : phase.Local ctx) (placed : s.Placed routines) :
    (s.sweep phase routines).Placed routines := by
  refine sweep_induction (fun t => t.Placed routines) ?_ placed
  intro r listed b inside deed done t placed
  exact placed.apply fun c change h fact marked =>
    ⟨r, listed, b, inside, (isLocal.marks deed done t c change h fact marked).symm⟩

theorem Placed.round (placed : s.Placed routines) : (s.round ctx routines).Placed routines := by
  have extracted : (s.extract ctx routines).Placed routines :=
    (placed.sweep local_successPhase).sweep local_knownPhase
  have learned : ((s.extract ctx routines).learn ctx routines).Placed routines := by
    rwa [Placed, learn_parts.1]
  exact (learned.sweep (local_generalPhase _ _)).sweep local_forwardPhase

section Endless

variable {u : Nat → Findings} (step : ∀ n, u (n + 1) = (u n).round ctx routines)

include step

theorem grows_of_le {m n : Nat} (le : m ≤ n) : (u m).Grows (u n) := by
  induction n, le using Nat.le_induction with
  | base => exact .refl _
  | succ n _ ih => exact ih.trans (step n ▸ grows_round)

/-- From some round on no block gets a fact for the first time. -/
theorem exists_facts_constant (placed : (u 0).Placed routines) :
    ∃ m, ∀ n ≥ m, ∀ h, ((u n).summary.factOf? h).isSome = true →
      ((u m).summary.factOf? h).isSome = true := by
  have blocks : {h | ∃ r ∈ routines, ∃ b ∈ r.blocks, b.handle = h}.Finite := by
    refine ((routines.flatMap fun r => r.blocks.map Block.handle).finite_toSet).subset ?_
    rintro h ⟨r, listed, b, inside, rfl⟩
    exact List.mem_flatMap.2 ⟨r, listed, List.mem_map_of_mem inside⟩
  have inside : ∀ n, (u n).Placed routines := by
    intro n
    induction n with
    | zero => exact placed
    | succ n ih => exact step n ▸ ih.round
  have grows : ∀ n ≥ 0, {h | ((u n).summary.factOf? h).isSome = true} ⊆
      {h | ((u (n + 1)).summary.factOf? h).isSome = true} :=
    fun n _ => step n ▸ grows_round.facts
  obtain ⟨m, -, constant⟩ := exists_constant blocks inside grows
  exact ⟨m, fun n late h known => (constant n late).le known⟩

/-- From some round on the routines at the front of the list take the same course in every round. -/
theorem exists_course_constant (layered : Layered ctx routines) {m : Nat}
    (calm : ∀ n ≥ m, Calm ctx routines (u n) (u (n + 1))) (before after : List Routine)
    (split : routines = before ++ after) :
    ∃ k ≥ m, ∀ n ≥ k, ∀ x ∈ before,
      course ctx routines x.handle (u n) = course ctx routines x.handle (u (n + 1)) := by
  induction before using List.reverseRecOn generalizing after with
  | nil => exact ⟨m, le_rfl, by simp⟩
  | append_singleton before r ih =>
      have split : routines = before ++ r :: after := by simpa using split
      obtain ⟨k, late, same⟩ := ih (r :: after) split
      -- `r` reads routines in front of it only, so from `k` on it makes the same changes in every
      -- round.  They may still take codes away that they have added, but not after the second time.
      have turns : ∀ n ≥ k, turn ctx routines before r (u k) = turn ctx routines before r (u n) := by
        intro n later
        induction n, later using Nat.le_induction with
        | base => rfl
        | succ n later ih =>
            exact ih.trans (turn_eq (calm n (late.trans later)) split layered (same n later))
      subst split
      have next : ∀ n ≥ k, (u (n + 1)).summary.descriptorsOf r.handle =
          (turn ctx (before ++ r :: after) before r (u k)).flatten.foldl Change.onDescriptors
            ((u n).summary.descriptorsOf r.handle) := by
        intro n later
        rw [step, descriptorsOf_round layered, turns n later]
      have rests : ∀ n ≥ k + 2,
          (u n).summary.descriptorsOf r.handle = (u (n + 1)).summary.descriptorsOf r.handle := by
        intro n later
        obtain ⟨j, rfl⟩ := Nat.exists_eq_add_of_le' later
        rw [next (j + (k + 2)) (by omega), ← Nat.add_assoc, next (j + k + 1) (by omega),
          next (j + k) (by omega), Change.foldl_onDescriptors_thrice]
      refine ⟨k + 2, by omega, fun n later x listed => ?_⟩
      rcases List.mem_append.1 listed with front | last
      · exact same n (by omega) x front
      · obtain rfl := List.mem_singleton.1 last
        rw [course_eq layered, course_eq layered, rests n later, ← turns n (by omega),
          ← turns (n + 1) (by omega)]

/-- From some round on every round ends with the descriptors that it started with. -/
theorem exists_descriptors_constant (layered : Layered ctx routines) {m : Nat}
    (calm : ∀ n ≥ m, Calm ctx routines (u n) (u (n + 1))) :
    ∃ k, ∀ n ≥ k, (u n).summary.SameDescriptors (u (n + 1)).summary := by
  obtain ⟨k, -, same⟩ := exists_course_constant step layered calm routines [] (by simp)
  refine ⟨k + 1, fun n late f => ?_⟩
  by_cases listed : ∃ x ∈ routines, x.handle = f
  · obtain ⟨x, listed, rfl⟩ := listed
    obtain ⟨n, rfl⟩ := Nat.exists_eq_add_of_le' late
    have ends : ((u (n + k)).round ctx routines).summary.descriptorsOf x.handle =
        ((u (n + k + 1)).round ctx routines).summary.descriptorsOf x.handle :=
      Option.some.inj (congrArg List.getLast? (same (n + k) (by omega) x listed))
    rwa [← step, ← step] at ends
  · have absent : ∀ x ∈ routines, x.handle ≠ f := fun x inside same => listed ⟨x, inside, same⟩
    rw [step, descriptorsOf_round_foreign absent]

end Endless

end Findings

namespace Run

variable {ctx : Context σ} {routines : List Routine} {start : Run σ}

/-- From some round on nothing more is learned. -/
theorem exists_knowledge_constant (served : start.Served ctx)
    (worded : start.Worded ctx routines) :
    ∃ m, ∀ n ≥ m, (start.after ctx routines n).knowledge = (start.after ctx routines m).knowledge := by
  let part (n : Nat) : Set Item :=
    {item | (start.after ctx routines n).Has item ∧ ∀ f d, item ≠ .descriptor f d}
  have bounded : ∀ n, part n ⊆ {item : Item | item.Worded ctx routines} := by
    intro n item has
    have reached := (rounds_ok routines served n).2
    exact (reached.worded worded).of_has has.1
  have below := fun n => (moves_after routines served n).below
  have grows : ∀ n ≥ 0, part n ⊆ part (n + 1) := by
    rintro n - item ⟨has, kind⟩
    refine ⟨?_, kind⟩
    cases item with
    | descriptor f d => exact absurd rfl (kind f d)
    | code c => exact (below n).codes c has
    | reporter name => exact (below n).reporters name has
    | successful f => exact (below n).successes f has
    | success f c => exact (below n).successCodes f c has
  obtain ⟨m, -, constant⟩ := exists_constant (Item.finite_worded ctx routines) bounded grows
  have back : ∀ n k, part n = part k →
      (start.after ctx routines n).knowledge.Below (start.after ctx routines k).knowledge := by
    intro n k same
    have has : ∀ item, (∀ f d, item ≠ .descriptor f d) → (start.after ctx routines n).Has item →
        (start.after ctx routines k).Has item := fun item kind known => (same.le ⟨known, kind⟩).1
    exact ⟨fun c => has (.code c) nofun, fun name => has (.reporter name) nofun,
      fun f => has (.successful f) nofun, fun f c => has (.success f c) nofun⟩
  exact ⟨m, fun n late => (back n m (constant n late)).antisymm (back m n (constant n late).symm)⟩

/-- The rounds over routines none of which reads itself or a later one come to rest. -/
theorem exists_alike_of_layered {oracle : σ} (exact : ctx.oracle.IsExact oracle)
    (read : ∀ r ∈ routines, Routine.ofFunction ctx.program r.handle = .ok r)
    (layered : Layered ctx routines) :
    ∃ n, ((initial oracle).after ctx routines n).Alike Eq
      ((initial oracle).after ctx routines (n + 1)) := by
  let u (n : Nat) : Findings := ((initial oracle).after ctx routines n).findings
  have step : ∀ n, u (n + 1) = (u n).round ctx routines :=
    findings_after_succ read (sound_initial exact)
  have worded : (initial oracle).Worded ctx routines := worded_initial oracle
  obtain ⟨k, knowledge⟩ := exists_knowledge_constant (served_initial exact.answers) worded
  obtain ⟨j, facts⟩ := Findings.exists_facts_constant step (fun h known => by cases known)
  have calm : ∀ n ≥ max j k, Findings.Calm ctx routines (u n) (u (n + 1)) := by
    intro n late
    have known : ∀ i ≥ n, (u i).knowledge = (u n).knowledge := fun i later =>
      (knowledge i (by omega)).trans (knowledge n (by omega)).symm
    refine ⟨step n ▸ .refl _, step (n + 1) ▸ ⟨fun h marked => ?_, fun f c success => ?_⟩, ?_,
      fun f absent => ?_⟩
    · exact (Findings.grows_of_le step (by omega)).facts h (facts (n + 2) (by omega) h marked)
    · rwa [known (n + 2) (by omega)] at success
    · rw [← step, ← step, known (n + 1) (by omega), known (n + 2) (by omega)]
    · rw [step, Findings.descriptorsOf_round_foreign absent]
  obtain ⟨n, constant⟩ := Findings.exists_descriptors_constant step layered calm
  refine exists_alike_of_sound read (complete_initial oracle) (sound_initial exact) worded (n := n)
    fun i late loses => ?_
  obtain ⟨f, d, had, lost⟩ := loses
  exact lost (constant i late f ▸ had)

end Run

end ErrorContracts
