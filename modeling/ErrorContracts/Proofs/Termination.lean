import ErrorContracts.Proofs.Settling
import ErrorContracts.Proofs.Vocabulary
import Mathlib.Data.Set.Card
import Mathlib.Data.Set.Finite.Lattice

/-!
# When inference ends

A run only ever learns, and from round to round it can lose nothing but descriptors that have come to
contradict a success code.  There are finitely many things to learn and to describe.  So inference
ends if and only if descriptors are lost in finitely many rounds only: once no round loses one, the
descriptors and what has been learned become constant, and then the facts do, since they are found
from these alone.

Descriptors can be lost in infinitely many rounds: a code that is withdrawn may be forwarded again by
a callee that has withdrawn it in the meantime.
-/

namespace ErrorContracts

variable {σ : Type}

/-! ## Learning -/

/-- Everything in `k` is in `l`. -/
structure Knowledge.Below (k l : Knowledge) : Prop where
  codes : ∀ c ∈ k.codes, c ∈ l.codes
  reporters : ∀ name ∈ k.reporters, name ∈ l.reporters
  successes : ∀ f, (k.successes.get? f).isSome = true → (l.successes.get? f).isSome = true
  successCodes : ∀ f, ∀ c ∈ k.successCodesOf f, c ∈ l.successCodesOf f

namespace Knowledge.Below

theorem refl (k : Knowledge) : k.Below k :=
  ⟨fun _ h => h, fun _ h => h, fun _ h => h, fun _ _ h => h⟩

theorem trans {k l m : Knowledge} (first : k.Below l) (second : l.Below m) : k.Below m where
  codes c hc := second.codes c (first.codes c hc)
  reporters name known := second.reporters name (first.reporters name known)
  successes f known := second.successes f (first.successes f known)
  successCodes f c hc := second.successCodes f c (first.successCodes f c hc)

theorem antisymm {k l : Knowledge} (up : k.Below l) (down : l.Below k) : k = l := by
  have codes : k.codes = l.codes := SortedSet.ext fun c => ⟨up.codes c, down.codes c⟩
  have reporters : k.reporters = l.reporters :=
    SortedSet.ext fun name => ⟨up.reporters name, down.reporters name⟩
  have successes : k.successes = l.successes := SortedMap.ext fun f => by
    have same : k.successCodesOf f = l.successCodesOf f :=
      SortedSet.ext fun c => ⟨up.successCodes f c, down.successCodes f c⟩
    unfold successCodesOf SortedMap.getD at same
    have known := up.successes f
    have known' := down.successes f
    cases first : k.successes.get? f <;> cases second : l.successes.get? f <;>
      simp_all
  cases k
  cases l
  simp_all

theorem addSuccess (k : Knowledge) (f : Handle) (c : Int) : k.Below (k.addSuccess f c) where
  codes _ h := h
  reporters _ h := h
  successes g known := by
    rw [Knowledge.addSuccess, SortedMap.get?_insert]
    split
    · rfl
    · exact known
  successCodes g d hd := by
    rw [successCodesOf_addSuccess]
    split
    · rename_i same
      exact SortedSet.mem_insert.2 (.inr (same ▸ hd))
    · exact hd

end Knowledge.Below

namespace Run

variable {ctx : Context σ} {routines : List Routine} {a b : Run σ}

theorem below_addError (a : Run σ) (f : Handle) (d : Descriptor) :
    a.knowledge.Below (a.addError f d).knowledge := by
  unfold addError
  split
  · exact ⟨fun c hc => SortedSet.mem_union.2 (.inl hc), fun _ h => h, fun _ h => h, fun _ _ h => h⟩
  · exact .refl _

/-- A move forgets nothing that has been learned. -/
theorem Move.below (move : Move ctx routines a b) : a.knowledge.Below b.knowledge := by
  cases move with
  | succeed routine block behind constant checked kept refuted => exact .addSuccess _ _ _
  | report routine block evidence described unfit =>
      exact below_addError { a.asked ctx _ with summary := a.summary.setFact _ _ } _ _
  | learn classified =>
      exact ⟨fun _ h => h, fun name known => SortedSet.mem_union.2 (.inl known), fun _ h => h,
        fun _ _ h => h⟩
  | generalize routine block unclassified constant noSuccess reporting calls =>
      exact below_addError _ _ _
  | forward routine block unclassified returned calls candidate known integer kind kept codes =>
      exact below_addError _ _ _
  | _ => exact .refl _

theorem Moves.below (moves : Moves ctx routines a b) : a.knowledge.Below b.knowledge := by
  induction moves with
  | refl => exact .refl _
  | tail _ move ih => exact ih.trans move.below

/-- Some descriptor of `a` is no descriptor of `b`. -/
def Loses (a b : Run σ) : Prop :=
  ∃ f, ∃ d ∈ a.summary.descriptorsOf f, d ∉ b.summary.descriptorsOf f

/-! ## One round after the other -/

theorem rounds_succ (ctx : Context σ) (routines : List Routine) (n : Nat) :
    Inference.rounds ctx routines (n + 1) =
      Inference.rounds ctx routines n >>= fun _ => Inference.round ctx routines := by
  induction n with
  | zero => simp [Inference.rounds]
  | succ n ih =>
      calc Inference.rounds ctx routines (n + 1 + 1)
        _ = Inference.round ctx routines >>= fun _ => Inference.rounds ctx routines (n + 1) := rfl
        _ = Inference.round ctx routines >>= fun _ =>
              Inference.rounds ctx routines n >>= fun _ => Inference.round ctx routines := by rw [ih]
        _ = Inference.rounds ctx routines (n + 1) >>= fun _ => Inference.round ctx routines :=
              (bind_assoc _ _ _).symm

section Invariant

/-- From the runs with an invariant each round succeeds and keeps it. -/
def Lasts (ctx : Context σ) (routines : List Routine) (inv : Run σ → Prop) : Prop :=
  ∀ a, inv a → ∃ next, (Inference.round ctx routines).run a = (.ok (), next) ∧
    Moves ctx routines a next ∧ inv next

variable {inv : Run σ → Prop} {start : Run σ} (lasts : Lasts ctx routines inv) (hs : inv start)

include lasts hs

theorem Lasts.rounds_ok (n : Nat) :
    (Inference.rounds ctx routines n).run start = (.ok (), start.after ctx routines n) ∧
      Moves ctx routines start (start.after ctx routines n) ∧ inv (start.after ctx routines n) := by
  induction n with
  | zero => exact ⟨rfl, .refl, hs⟩
  | succ n ih =>
      obtain ⟨ran, moves, inv_n⟩ := ih
      obtain ⟨next, done, more, inv_next⟩ := lasts _ inv_n
      have joined := Inference.run_bind_of_ok ran fun _ => Inference.round ctx routines
      rw [← rounds_succ, done] at joined
      have reached : start.after ctx routines (n + 1) = next := by rw [after, joined]
      rw [reached]
      exact ⟨joined, moves.trans more, inv_next⟩

theorem Lasts.round_ok (n : Nat) :
    (Inference.round ctx routines).run (start.after ctx routines n) =
      (.ok (), start.after ctx routines (n + 1)) := by
  have next := (lasts.rounds_ok hs (n + 1)).1
  rw [rounds_succ, Inference.run_bind_of_ok (lasts.rounds_ok hs n).1] at next
  exact next

/-- Where each round succeeds, no limit makes a series of rounds fail. -/
theorem Lasts.advance_ne_failed (limit rounds : Nat) (fault : StepFault) (final : Run σ) :
    advance ctx routines limit rounds start ≠ (.failed fault, final) := by
  induction limit generalizing start rounds with
  | zero =>
      intro ended
      cases ended
  | succ limit ih =>
      obtain ⟨next, done, -, inv_next⟩ := lasts start hs
      rw [advance, done]
      dsimp only
      split
      · intro ended
        cases ended
      · exact ih inv_next (rounds + 1)

end Invariant

section Total

variable (routines) {start : Run σ}

/-- With an oracle that answers no round from complete conditions fails. -/
theorem lasts_served : Lasts ctx routines (Served ctx) := by
  intro a served
  obtain ⟨_, next, done, moves, -⟩ := (Inference.leads_round a).succeeds served
  exact ⟨next, done, moves, moves.served served⟩

variable (served : start.Served ctx)

include served

theorem exists_round_ok :
    ∃ next, (Inference.round ctx routines).run start = (.ok (), next) ∧
      Moves ctx routines start next := by
  obtain ⟨next, done, moves, -⟩ := lasts_served routines start served
  exact ⟨next, done, moves⟩

theorem rounds_ok (n : Nat) :
    (Inference.rounds ctx routines n).run start = (.ok (), start.after ctx routines n) ∧
      Moves ctx routines start (start.after ctx routines n) := by
  obtain ⟨ran, moves, -⟩ := (lasts_served routines).rounds_ok served n
  exact ⟨ran, moves⟩

theorem round_ok (n : Nat) :
    (Inference.round ctx routines).run (start.after ctx routines n) =
      (.ok (), start.after ctx routines (n + 1)) :=
  (lasts_served routines).round_ok served n

theorem moves_after (n : Nat) :
    Moves ctx routines (start.after ctx routines n) (start.after ctx routines (n + 1)) := by
  have moves : Moves ctx routines (start.after ctx routines n)
      ((Inference.round ctx routines).run (start.after ctx routines n)).2 :=
    (Inference.leads_round _).moves
  rwa [round_ok routines served n] at moves

theorem recalls_after (n k : Nat) :
    (start.after ctx routines n).Recalls ctx.oracle (start.after ctx routines (n + k)) := by
  induction k with
  | zero => exact .refl _
  | succ k ih => exact ih.trans (moves_after routines served (n + k)).recalls

section Steady

variable (steady : ctx.oracle.Steady start.memory)

include steady

theorem steady_after (n : Nat) : ctx.oracle.Steady (start.after ctx routines n).memory := by
  obtain ⟨asked, reached⟩ := (rounds_ok routines served n).2.recalls.memory
  rw [reached]
  exact steady.after asked

/-- Rounds that lead back to a run of the same look do so again and again. -/
theorem alike_add {n period : Nat} (positive : 0 < period)
    (back : (start.after ctx routines n).Alike Eq (start.after ctx routines (n + period)))
    (k : Nat) :
    (start.after ctx routines (n + k)).Alike Eq (start.after ctx routines (n + period + k)) := by
  induction k with
  | zero => exact back
  | succ k ih =>
      have recalls := recalls_after routines served (n + k + 1) (period - 1)
      have place : n + k + 1 + (period - 1) = n + period + k := by omega
      rw [place] at recalls
      obtain ⟨next, done, alike⟩ := (Inference.repeatable_round ctx routines).repeats
        (steady_after routines served steady (n + k)) (round_ok routines served (n + k)) ih recalls
      rw [round_ok routines served (n + period + k)] at done
      cases done
      exact alike

/-- A run that has settled stays as it is. -/
theorem alike_of_settled {n : Nat}
    (settled : (start.after ctx routines n).Alike Eq (start.after ctx routines (n + 1))) (k : Nat) :
    (start.after ctx routines n).Alike Eq (start.after ctx routines (n + k)) := by
  induction k with
  | zero => exact .refl _
  | succ k ih =>
      have next := alike_add routines served steady Nat.one_pos settled k
      rw [Nat.add_right_comm] at next
      exact ih.trans next

/-- A run that comes back to what it was, but not at once, never settles. -/
theorem not_alike_of_recurs {n period : Nat} (positive : 0 < period)
    (back : (start.after ctx routines n).Alike Eq (start.after ctx routines (n + period)))
    (moved : ¬(start.after ctx routines n).Alike Eq (start.after ctx routines (n + 1))) (k : Nat) :
    ¬(start.after ctx routines k).Alike Eq (start.after ctx routines (k + 1)) := by
  intro settled
  have turns : ∀ m, (start.after ctx routines m).Alike Eq (start.after ctx routines (m + period)) →
      ∀ i, (start.after ctx routines m).Alike Eq (start.after ctx routines (m + i * period)) := by
    intro m again i
    induction i with
    | zero =>
        rw [Nat.zero_mul]
        exact .refl _
    | succ i ih =>
        have next := alike_add routines served steady positive again (i * period)
        have place : m + period + i * period = m + (i + 1) * period := by
          rw [Nat.add_one_mul]
          omega
        rw [place] at next
        exact ih.trans next
  have back' := alike_add routines served steady positive back 1
  rw [Nat.add_right_comm] at back'
  -- far enough behind the settled round both neighbours look like it
  have far : k ≤ k * period := Nat.le_mul_of_pos_right k positive
  have here := alike_of_settled routines served steady settled (n + k * period - k)
  have there := alike_of_settled routines served steady settled (n + 1 + k * period - k)
  rw [Nat.add_sub_cancel' (by omega)] at here there
  exact moved ((turns n back k).trans (here.symm.trans (there.trans (turns (n + 1) back' k).symm)))

end Steady

omit served in
theorem advance_succ {next : Run σ}
    (done : (Inference.round ctx routines).run start = (.ok (), next)) (limit rounds : Nat) :
    advance ctx routines (limit + 1) rounds start =
      if start.settled next then (.settled (rounds + 1), next)
      else advance ctx routines limit (rounds + 1) next := by
  rw [advance, done]

/-- Where one round leads to a run of the same look, the limit needs to be no larger. -/
theorem advance_settled {n : Nat}
    (settled : (start.after ctx routines n).Alike Eq (start.after ctx routines (n + 1)))
    (rounds : Nat) :
    ∃ total final, advance ctx routines (n + 1) rounds start = (.settled total, final) := by
  induction n generalizing start rounds with
  | zero =>
      obtain ⟨next, done, -⟩ := exists_round_ok routines served
      have same : start.settled next = true := by
        rw [after_succ done] at settled
        exact settled_iff.2 settled
      rw [advance_succ routines done, if_pos same]
      exact ⟨_, _, rfl⟩
  | succ n ih =>
      obtain ⟨next, done, moves⟩ := exists_round_ok routines served
      rw [advance_succ routines done]
      split
      · exact ⟨_, _, rfl⟩
      · rw [after_succ done, after_succ done] at settled
        exact ih (moves.served served) settled (rounds + 1)

/-- The rounds end with the first one that leads to a run of the same look. -/
theorem advance_first {n : Nat}
    (settled : (start.after ctx routines n).Alike Eq (start.after ctx routines (n + 1)))
    (moved : ∀ k < n, ¬(start.after ctx routines k).Alike Eq (start.after ctx routines (k + 1)))
    {limit : Nat} (enough : n < limit) (rounds : Nat) :
    advance ctx routines limit rounds start =
      (.settled (rounds + n + 1), start.after ctx routines (n + 1)) := by
  induction n generalizing start limit rounds with
  | zero =>
      obtain ⟨next, done, -⟩ := exists_round_ok routines served
      obtain ⟨limit, rfl⟩ := Nat.exists_eq_add_one_of_ne_zero (Nat.ne_zero_of_lt enough)
      rw [after_succ done] at settled
      have same : start.settled next = true := settled_iff.2 settled
      rw [advance_succ routines done, if_pos same, after_succ done]
      rfl
  | succ n ih =>
      obtain ⟨next, done, moves⟩ := exists_round_ok routines served
      obtain ⟨limit, rfl⟩ := Nat.exists_eq_add_one_of_ne_zero (Nat.ne_zero_of_lt enough)
      have unsettled : ¬start.settled next = true := by
        intro same
        refine moved 0 (Nat.zero_lt_succ n) ?_
        rw [after_succ done]
        exact settled_iff.1 same
      have later : ∀ k < n, ¬(next.after ctx routines k).Alike Eq
          (next.after ctx routines (k + 1)) := by
        intro k below
        rw [← after_succ done, ← after_succ done]
        exact moved (k + 1) (Nat.succ_lt_succ below)
      rw [after_succ done, after_succ done] at settled
      rw [advance_succ routines done, if_neg unsettled, after_succ done,
        ih (moves.served served) settled later (Nat.lt_of_succ_lt_succ enough),
        Nat.add_right_comm rounds 1 n]
      rfl

/-- Where no round does so, every limit is reached. -/
theorem advance_interrupted
    (moved : ∀ n, ¬(start.after ctx routines n).Alike Eq (start.after ctx routines (n + 1)))
    (limit rounds : Nat) :
    advance ctx routines limit rounds start =
      (.interrupted (rounds + limit), start.after ctx routines limit) := by
  induction limit generalizing start rounds with
  | zero => rfl
  | succ limit ih =>
      obtain ⟨next, done, moves⟩ := exists_round_ok routines served
      have unsettled : ¬start.settled next = true := by
        intro settled
        refine moved 0 ?_
        rw [after_succ done]
        exact settled_iff.1 settled
      have moved' : ∀ n, ¬(next.after ctx routines n).Alike Eq
          (next.after ctx routines (n + 1)) := by
        intro n
        rw [← after_succ done, ← after_succ done]
        exact moved (n + 1)
      rw [advance_succ routines done, if_neg unsettled, ih (moves.served served) moved',
        after_succ done, Nat.add_right_comm, Nat.add_assoc]

theorem exists_settled_iff :
    (∃ limit total final, advance ctx routines limit 0 start = (.settled total, final)) ↔
      ∃ n, (start.after ctx routines n).Alike Eq (start.after ctx routines (n + 1)) := by
  constructor
  · rintro ⟨limit, total, final, ended⟩
    obtain ⟨n, last, back⟩ := exists_last_round ended
    rw [round_ok routines served n] at last
    cases last
    exact ⟨n, back⟩
  · rintro ⟨n, settled⟩
    exact ⟨n + 1, advance_settled routines served settled 0⟩

end Total

/-! ## Nothing is lost for ever -/

/-- Facts depend on the descriptors and on what has been learned only. -/
theorem facts_eq_of_rounds {c : Run σ} (steady : ctx.oracle.Steady a.memory)
    (first : (Inference.round ctx routines).run a = (.ok (), b))
    (second : (Inference.round ctx routines).run b = (.ok (), c))
    (descriptors : a.summary.SameDescriptors b.summary) (knowledge : a.knowledge = b.knowledge) :
    c.summary.facts = b.summary.facts := by
  obtain ⟨m, extracted, moves, facts⟩ := Inference.exists_extract first
  obtain ⟨m', extracted', _, facts'⟩ := Inference.exists_extract second
  -- each fact is the same in both extractions, or neither of them has touched it
  let same : SortedMap Handle Fact → SortedMap Handle Fact → Prop := fun s t => ∀ h,
    s.get? h = t.get? h ∨ (s.get? h = a.summary.facts.get? h ∧ t.get? h = b.summary.facts.get? h)
  have insertion : ∀ {s t} (h : Handle) (fact : Fact), same s t →
      same (s.insert h fact) (t.insert h fact) := by
    intro s t h fact alike j
    rw [SortedMap.get?_insert, SortedMap.get?_insert]
    split
    · exact .inl rfl
    · exact alike j
  have alike : a.Alike same b := ⟨descriptors, fun _ => .inr ⟨rfl, rfl⟩, knowledge⟩
  obtain ⟨_, again, alike'⟩ :=
    (Inference.repeatable_extract ctx insertion routines).repeats steady extracted alike
      moves.recalls
  rw [extracted'] at again
  cases again
  rw [facts, facts']
  refine SortedMap.ext fun h => ?_
  rcases alike'.facts h with equal | ⟨-, untouched⟩
  · exact equal.symm
  · rw [untouched, facts]

end Run

/-- One thing that a run can hold: a descriptor, or something learned. -/
inductive Item where
  | descriptor (f : Handle) (d : Descriptor)
  | code (c : Int)
  | reporter (name : String)
  | successful (f : Handle)
  | success (f : Handle) (c : Int)

namespace Item

def Worded (ctx : Context σ) (routines : List Routine) : Item → Prop
  | descriptor f d => f ∈ routines.map Routine.handle ∧ d.Worded ctx routines
  | code c => c ∈ codeWords ctx routines
  | reporter name => name ∈ (actionWords ctx routines).map Action.name
  | successful f => f ∈ routines.map Routine.handle
  | success f c => f ∈ routines.map Routine.handle ∧ c ∈ codeWords ctx routines

theorem finite_worded (ctx : Context σ) (routines : List Routine) :
    {item : Item | item.Worded ctx routines}.Finite := by
  have handles := (routines.map Routine.handle).finite_toSet
  have codes := (codeWords ctx routines).finite_toSet
  have names := ((actionWords ctx routines).map Action.name).finite_toSet
  have described := ErrorContracts.finite_worded ctx routines
  refine Set.Finite.subset ((handles.image2 descriptor described).union ((codes.image code).union
    ((names.image reporter).union ((handles.image successful).union
      (handles.image2 success codes))))) ?_
  intro item worded
  cases item with
  | descriptor f d => exact .inl ⟨f, worded.1, d, worded.2, rfl⟩
  | code c => exact .inr (.inl ⟨c, worded, rfl⟩)
  | reporter name => exact .inr (.inr (.inl ⟨name, worded, rfl⟩))
  | successful f => exact .inr (.inr (.inr (.inl ⟨f, worded, rfl⟩)))
  | success f c => exact .inr (.inr (.inr (.inr ⟨f, worded.1, c, worded.2, rfl⟩)))

end Item

/-- Growing parts of a finite set become constant. -/
theorem exists_constant {α : Type} {whole : Set α} {part : Nat → Set α} (finite : whole.Finite)
    (inside : ∀ k, part k ⊆ whole) {n : Nat} (grows : ∀ k ≥ n, part k ⊆ part (k + 1)) :
    ∃ m ≥ n, ∀ k ≥ m, part k = part m := by
  -- take the place where as little as possible is missing
  obtain ⟨m, hm, least⟩ :=
    (measure fun k => (whole \ part k).ncard).wf.has_min {k | n ≤ k} ⟨n, Nat.le_refl n⟩
  refine ⟨m, hm, fun k hk => ?_⟩
  have chain : part m ⊆ part k := by
    induction k, hk using Nat.le_induction with
    | base => exact subset_rfl
    | succ k hk ih => exact ih.trans (grows k (le_trans hm hk))
  have missing : whole \ part k ⊆ whole \ part m := Set.sdiff_subset_sdiff_right chain
  have few : (whole \ part m).ncard ≤ (whole \ part k).ncard :=
    not_lt.1 (least k (le_trans hm hk))
  have same := Set.eq_of_subset_of_ncard_le missing few (finite.subset Set.sdiff_subset)
  refine subset_antisymm (fun x hx => ?_) chain
  by_contra absent
  have gone : x ∈ whole \ part k := same ▸ ⟨inside k hx, absent⟩
  exact gone.2 hx

namespace Run

variable {ctx : Context σ} {routines : List Routine} {a b : Run σ}

def Has (a : Run σ) : Item → Prop
  | .descriptor f d => d ∈ a.summary.descriptorsOf f
  | .code c => c ∈ a.knowledge.codes
  | .reporter name => name ∈ a.knowledge.reporters
  | .successful f => (a.knowledge.successes.get? f).isSome = true
  | .success f c => c ∈ a.knowledge.successCodesOf f

theorem Worded.of_has (worded : a.Worded ctx routines) {item : Item} (has : a.Has item) :
    item.Worded ctx routines := by
  cases item with
  | descriptor f d => exact worded.descriptors f d has
  | code c => exact worded.codes c has
  | reporter name => exact worded.reporters name has
  | successful f => exact worded.successes f has
  | success f c =>
      refine ⟨worded.successes f ?_, worded.successCodes f c has⟩
      cases known : a.knowledge.successes.get? f with
      | some codes => rfl
      | none => simp [Has, Knowledge.successCodesOf, SortedMap.getD, known] at has

/-- Moves that lose no descriptor lose nothing. -/
theorem Moves.has (moves : Moves ctx routines a b) (keeps : ¬a.Loses b) {item : Item}
    (has : a.Has item) : b.Has item := by
  have below := moves.below
  cases item with
  | descriptor f d =>
      by_contra lost
      exact keeps ⟨f, d, has, lost⟩
  | code c => exact below.codes c has
  | reporter name => exact below.reporters name has
  | successful f => exact below.successes f has
  | success f c => exact below.successCodes f c has

theorem same_of_has_iff (same : ∀ item, a.Has item ↔ b.Has item) :
    a.summary.SameDescriptors b.summary ∧ a.knowledge = b.knowledge := by
  refine ⟨fun f => SortedSet.ext fun d => same (.descriptor f d), Knowledge.Below.antisymm ?_ ?_⟩
  · exact ⟨fun c => (same (.code c)).1, fun name => (same (.reporter name)).1,
      fun f => (same (.successful f)).1, fun f c => (same (.success f c)).1⟩
  · exact ⟨fun c => (same (.code c)).2, fun name => (same (.reporter name)).2,
      fun f => (same (.successful f)).2, fun f c => (same (.success f c)).2⟩

/-- If no round from some round on loses a descriptor, a round changes nothing. -/
theorem exists_alike_of_keeps {start : Run σ} (served : start.Served ctx)
    (steady : ctx.oracle.Steady start.memory) (worded : start.Worded ctx routines) {n : Nat}
    (keeps : ∀ k ≥ n, ¬(start.after ctx routines k).Loses (start.after ctx routines (k + 1))) :
    ∃ k, (start.after ctx routines k).Alike Eq (start.after ctx routines (k + 1)) := by
  have moves := moves_after routines served
  have bounded : ∀ k, {item | (start.after ctx routines k).Has item} ⊆
      {item : Item | item.Worded ctx routines} := by
    intro k item has
    have reached := (rounds_ok routines served k).2
    exact (reached.worded worded).of_has has
  have grows : ∀ k ≥ n, {item | (start.after ctx routines k).Has item} ⊆
      {item | (start.after ctx routines (k + 1)).Has item} :=
    fun k hk item has => (moves k).has (keeps k hk) has
  obtain ⟨m, -, constant⟩ := exists_constant (Item.finite_worded ctx routines) bounded grows
  have same : ∀ k ≥ m, (start.after ctx routines m).summary.SameDescriptors
        (start.after ctx routines k).summary ∧
      (start.after ctx routines m).knowledge = (start.after ctx routines k).knowledge :=
    fun k hk => same_of_has_iff fun item => (Set.ext_iff.1 (constant k hk) item).symm
  obtain ⟨descriptors, knowledge⟩ := same (m + 1) (by omega)
  obtain ⟨descriptors', knowledge'⟩ := same (m + 2) (by omega)
  have facts := facts_eq_of_rounds (steady_after routines served steady m) (round_ok routines served m)
    (round_ok routines served (m + 1)) descriptors knowledge
  exact ⟨m + 1, fun f => (descriptors f).symm.trans (descriptors' f), facts.symm,
    knowledge.symm.trans knowledge'⟩

theorem exists_alike_iff {start : Run σ} (served : start.Served ctx)
    (steady : ctx.oracle.Steady start.memory) (worded : start.Worded ctx routines) :
    (∃ k, (start.after ctx routines k).Alike Eq (start.after ctx routines (k + 1))) ↔
      ∃ n, ∀ k ≥ n, ¬(start.after ctx routines k).Loses (start.after ctx routines (k + 1)) := by
  constructor
  · rintro ⟨n, settled⟩
    refine ⟨n, fun k hk => ?_⟩
    obtain ⟨more, rfl⟩ := Nat.exists_eq_add_of_le hk
    have here := alike_of_settled routines served steady settled more
    have there := alike_of_settled routines served steady settled (more + 1)
    rintro ⟨f, d, hd, lost⟩
    rw [Nat.add_assoc, ← there.descriptors f, here.descriptors f] at lost
    exact lost hd
  · rintro ⟨n, keeps⟩
    exact exists_alike_of_keeps served steady worded keeps

/-- The run that an inference starts from. -/
def initial (oracle : σ) : Run σ := { memory := oracle }

theorem complete_initial (oracle : σ) : (initial oracle).Complete := by
  intro place f known
  cases known

theorem served_initial {oracle : σ} (answers : ctx.oracle.Answers oracle) :
    (initial oracle).Served ctx :=
  ⟨complete_initial oracle, answers⟩

theorem worded_initial (oracle : σ) : (initial oracle).Worded ctx routines where
  descriptors f d hd := by cases hd
  codes c hc := by cases hc
  reporters name known := by cases known
  successes f known := by cases known
  successCodes f c hc := by cases hc

end Run

theorem infer_eq {ctx : Context σ} {functions : List Handle} {routines : List Routine}
    (read : routinesOf ctx.program functions = .ok routines) (limit : Nat) (oracle : σ) :
    infer ctx functions limit oracle =
      match Run.refine ctx (visitOrder ctx routines) limit (.initial oracle) with
      | (.settled _, run) => .ok run
      | (.interrupted rounds, _) => .error (.unsettled rounds)
      | (.failed fault, _) => .error (.failed fault) := by
  rw [infer, read]
  rfl

theorem exists_infer_ok_iff {ctx : Context σ} {functions : List Handle} {routines : List Routine}
    {oracle : σ} (read : routinesOf ctx.program functions = .ok routines) :
    (∃ limit run, infer ctx functions limit oracle = .ok run) ↔
      ∃ limit total final, Run.advance ctx (visitOrder ctx routines) limit 0 (.initial oracle) =
        (.settled total, final) := by
  constructor
  · rintro ⟨limit, run, returned⟩
    rw [infer_eq read] at returned
    split at returned
    · rename_i total final ended
      exact ⟨max 1 limit, total, final, Run.advance_of_refine ended⟩
    · cases returned
    · cases returned
  · rintro ⟨limit, total, final, ended⟩
    have positive : max 1 limit = limit := by
      cases limit with
      | zero => cases ended
      | succ limit => omega
    refine ⟨limit, final, ?_⟩
    rw [infer_eq read, Run.refine, positive, ended]

/-- What inference returns is the run after some rounds, the last of which has changed nothing. -/
theorem exists_after_of_infer {ctx : Context σ} {functions : List Handle} {routines : List Routine}
    {limit : Nat} {oracle : σ} {final : Run σ} (answers : ctx.oracle.Answers oracle)
    (read : routinesOf ctx.program functions = .ok routines)
    (ended : infer ctx functions limit oracle = .ok final) :
    ∃ n, final = (Run.initial oracle).after ctx (visitOrder ctx routines) (n + 1) ∧
      ((Run.initial oracle).after ctx (visitOrder ctx routines) n).Alike Eq final := by
  rw [infer_eq read] at ended
  split at ended
  · rename_i total run refined
    cases ended
    obtain ⟨n, last, back⟩ := Run.exists_last_round (Run.advance_of_refine refined)
    rw [Run.round_ok _ (Run.served_initial answers) n] at last
    cases last
    exact ⟨n, rfl, back⟩
  · cases ended
  · cases ended

/-- Inference returns the run after the first round that changes nothing. -/
theorem infer_eq_after {ctx : Context σ} {functions : List Handle} {routines : List Routine}
    {oracle : σ} {n : Nat} (answers : ctx.oracle.Answers oracle)
    (read : routinesOf ctx.program functions = .ok routines)
    (settled : ((Run.initial oracle).after ctx (visitOrder ctx routines) n).Alike Eq
      ((Run.initial oracle).after ctx (visitOrder ctx routines) (n + 1)))
    (moved : ∀ k < n, ¬((Run.initial oracle).after ctx (visitOrder ctx routines) k).Alike Eq
      ((Run.initial oracle).after ctx (visitOrder ctx routines) (k + 1)))
    {limit : Nat} (enough : n < limit) :
    infer ctx functions limit oracle =
      .ok ((Run.initial oracle).after ctx (visitOrder ctx routines) (n + 1)) := by
  have positive : max 1 limit = limit := by omega
  rw [infer_eq read, Run.refine, positive,
    Run.advance_first _ (Run.served_initial answers) settled moved enough]

/-- The same, with the rounds compared as inference compares them. -/
theorem infer_eq_of_settled {ctx : Context σ} {functions : List Handle} {routines : List Routine}
    {oracle : σ} {n : Nat} (answers : ctx.oracle.Answers oracle)
    (read : routinesOf ctx.program functions = .ok routines)
    (settled : ((Run.initial oracle).after ctx (visitOrder ctx routines) n).settled
      ((Run.initial oracle).after ctx (visitOrder ctx routines) (n + 1)) = true)
    (moved : ∀ k < n, ((Run.initial oracle).after ctx (visitOrder ctx routines) k).settled
      ((Run.initial oracle).after ctx (visitOrder ctx routines) (k + 1)) = false)
    {limit : Nat} (enough : n < limit) :
    infer ctx functions limit oracle =
      .ok ((Run.initial oracle).after ctx (visitOrder ctx routines) (n + 1)) := by
  refine infer_eq_after answers read (Run.settled_iff.1 settled) (fun k below alike => ?_) enough
  exact Bool.false_ne_true ((moved k below).symm.trans (Run.settled_iff.2 alike))

/--
Inference from the empty summary, over functions that can be read and with an oracle that answers and
stands by its verdicts, returns under some limit exactly if only finitely many of its rounds lose a
descriptor.
-/
theorem infer_returns_iff {ctx : Context σ} {functions : List Handle} {routines : List Routine}
    {oracle : σ} (answers : ctx.oracle.Answers oracle) (steady : ctx.oracle.Steady oracle)
    (read : routinesOf ctx.program functions = .ok routines) :
    (∃ limit run, infer ctx functions limit oracle = .ok run) ↔
      ∃ n, ∀ k ≥ n, ¬((Run.initial oracle).after ctx (visitOrder ctx routines) k).Loses
        ((Run.initial oracle).after ctx (visitOrder ctx routines) (k + 1)) := by
  have served := Run.served_initial answers
  rw [exists_infer_ok_iff read, Run.exists_settled_iff _ served,
    Run.exists_alike_iff served steady (Run.worded_initial oracle)]

theorem infer_returns_iff_checkedCall :
    ∃ n, ∀ k ≥ n,
      ¬((Run.initial (.fresh 0)).after checkedCall (visitOrder checkedCall checkedRoutines) k).Loses
        ((Run.initial (.fresh 0)).after checkedCall (visitOrder checkedCall checkedRoutines)
          (k + 1)) := by
  have answers : checkedCall.oracle.Answers (.fresh 0) := (Oracle.exact_answers 0).caching
  apply (infer_returns_iff answers (Oracle.caching_steady _ _) checkedCall_read).1
  exact ⟨5, _, eq_ok_of_isOk (Run.initial (.fresh 0)) (by cbv)⟩

/-! ## A swing without end -/

/--
The body of a function that returns 0 where its call of `checked` compares with 0, and else passes
on the result of `forwarded` where a call of the function 1 is negative.  Its blocks and
instructions stand at `base` and the fourteen handles behind.
-/
def relay (f checked : Handle) (test : Predicate) (forwarded base : Handle) : List Edit :=
  [.block f "entry", .block f "zero", .block f "rest", .block f "done", .block f "forward",
    .call (some base) checked [] "k" none,
    .compare (some base) test (.value (base + 5)) (.literal 0) "p",
    .branch (some base) (.value (base + 6)) (base + 1) (base + 2),
    .ret (some (base + 1)) (some (.literal 0)),
    .call (some (base + 2)) 1 [] "g" none,
    .compare (some (base + 2)) .slt (.value (base + 9)) (.literal 0) "q",
    .branch (some (base + 2)) (.value (base + 10)) (base + 4) (base + 3),
    .ret (some (base + 3)) (some (.literal 0)),
    .call (some (base + 4)) forwarded [] "s" none,
    .ret (some (base + 4)) (some (.value (base + 13)))]

/-- Three functions: the first forwards the second and the third the first; the second checks the
third. -/
def relays : Context (Recall Nat) where
  program := Module.build {}
    ([.external "check" .i32, .external "source" .i32, .constant 0 .i32,
      .function "a" .i32 [], .function "b" .i32 [], .function "c" .i32 []] ++
      relay 4 1 .slt 5 7 ++ relay 5 6 .eq 2 22 ++ relay 6 1 .slt 4 37)
  dependencies :=
    [("check", [.reports ⟨∅, .single .integer (-1)⟩]), ("source", [.reports ⟨∅, .single .integer 0⟩])]
  oracle := Oracle.exact.caching

def relayRoutines : List Routine := (routinesOf relays.program [4, 5, 6]).toOption.getD []

theorem relays_read : routinesOf relays.program [4, 5, 6] = .ok relayRoutines :=
  eq_ok_of_isOk [] (by decide +kernel)

/-- The run over the three functions after some rounds. -/
def relayed (n : Nat) : Run (Recall Nat) :=
  (Run.initial (.fresh 0)).after relays (visitOrder relays relayRoutines) n

set_option maxRecDepth 10000 in
theorem relays_swing :
    (relayed 3).settled (relayed 5) = true ∧ (relayed 3).settled (relayed 4) = false := by
  have swing : ((relayed 3).settled (relayed 5) && !(relayed 3).settled (relayed 4)) = true := by
    cbv
  simpa using swing

/-- The first and the third function lose and regain the code 0 in turn, whatever the limit. -/
theorem relays_never_settle :
    routinesOf relays.program [4, 5, 6] = .ok relayRoutines ∧ relays.oracle.Answers (.fresh 0) ∧
      ∀ limit, infer relays [4, 5, 6] limit (.fresh 0) = .error (.unsettled (max 1 limit)) := by
  have answers : relays.oracle.Answers (.fresh 0) := (Oracle.exact_answers 0).caching
  have served := Run.served_initial answers
  refine ⟨relays_read, answers, ?_⟩
  intro limit
  obtain ⟨back, moved⟩ := relays_swing
  have unsettled : ¬(relayed 3).Alike Eq (relayed 4) := by
    intro alike
    rw [Run.settled_iff.2 alike] at moved
    cases moved
  have never := Run.not_alike_of_recurs (visitOrder relays relayRoutines) served
    (Oracle.caching_steady _ _) Nat.two_pos (Run.settled_iff.1 back) unsettled
  rw [infer_eq relays_read, Run.refine, Run.advance_interrupted _ served never, Nat.zero_add]

end ErrorContracts
