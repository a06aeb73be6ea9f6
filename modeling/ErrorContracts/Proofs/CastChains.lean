import ErrorContracts.Program.Build
import ErrorContracts.Program.Casts
import Mathlib.Logic.Relation

/-!
# Chains of casts

A value stands for the end of the chain of casts and aliases that starts at it.  Such a chain may run
into a circle.  It is therefore followed up to a value that is met again, which is where the circle is
entered.  From there the chain leads round the circle and back to the same value.
-/

namespace ErrorContracts

/-! ## Following -/

/--
What is come to when `next` is followed and all that is passed is remembered: something that was seen
before, or something after which nothing comes.
-/
inductive Follows {α : Type} (next : α → Option α) : List α → α → α → Prop where
  | again {seen : List α} {a : α} (met : a ∈ seen) : Follows next seen a a
  | last {seen : List α} {a : α} (unmet : a ∉ seen) (ends : next a = none) : Follows next seen a a
  | onward {seen : List α} {a b c : α} (unmet : a ∉ seen) (step : next a = some b)
      (rest : Follows next (a :: seen) b c) : Follows next seen a c

section Follows

variable {α : Type} {next : α → Option α} {seen : List α} {a b c : α}

/-- Who comes to an end does not come round. -/
theorem not_cycle_of_reaches_end (reaches : Relation.ReflTransGen (fun a b => next a = some b) a b)
    (ends : next b = none) : ¬Relation.TransGen (fun a b => next a = some b) a a := by
  induction reaches using Relation.ReflTransGen.head_induction_on with
  | refl =>
      intro cycle
      obtain ⟨c, step, -⟩ := Relation.TransGen.head'_iff.1 cycle
      cases ends.symm.trans step
  | head step onward ih =>
      intro cycle
      obtain ⟨c, step', rest⟩ := Relation.TransGen.head'_iff.1 cycle
      obtain rfl := Option.some.inj (step.symm.trans step')
      exact ih (.tail' rest step)

theorem eq_of_reaches_of_end (reaches : Relation.ReflTransGen (fun a b => next a = some b) a b)
    (ends : next a = none) : a = b := by
  rcases Relation.ReflTransGen.cases_head_iff.1 reaches with same | ⟨c, step, -⟩
  · exact same
  · cases ends.symm.trans step

/-- The end of a chain is the end for all that lie on it. -/
theorem reaches_end_of_reaches (reaches : Relation.ReflTransGen (fun a b => next a = some b) a b)
    (reaches' : Relation.ReflTransGen (fun a b => next a = some b) a c) (ends : next b = none) :
    Relation.ReflTransGen (fun a b => next a = some b) c b := by
  have unique : Relator.RightUnique fun a b => next a = some b :=
    fun a b c step step' => Option.some.inj (step.symm.trans step')
  rcases Relation.ReflTransGen.total_of_right_unique unique reaches reaches' with beyond | onward
  · rw [eq_of_reaches_of_end beyond ends]
  · exact onward

namespace Follows

theorem unique (follows : Follows next seen a b) (follows' : Follows next seen a c) : b = c := by
  induction follows generalizing c with
  | again met =>
      cases follows' with
      | again _ => rfl
      | last _ _ => rfl
      | onward unmet _ _ => exact absurd met unmet
  | last unmet ends =>
      cases follows' with
      | again _ => rfl
      | last _ _ => rfl
      | onward _ step _ => cases ends.symm.trans step
  | onward unmet step _ ih =>
      cases follows' with
      | again met => exact absurd met unmet
      | last _ ends => cases ends.symm.trans step
      | onward _ step' rest' =>
          obtain rfl := Option.some.inj (step.symm.trans step')
          exact ih rest'

theorem reaches (follows : Follows next seen a b) :
    Relation.ReflTransGen (fun a b => next a = some b) a b := by
  induction follows with
  | again _ => exact .refl
  | last _ _ => exact .refl
  | onward _ step _ ih => exact .head step ih

/-- What is seen before lies before; so what is met again lies on a circle. -/
theorem ends_or_cycle (follows : Follows next seen a b)
    (before : ∀ c ∈ seen, Relation.TransGen (fun a b => next a = some b) c a) :
    next b = none ∨ Relation.TransGen (fun a b => next a = some b) b b := by
  induction follows with
  | again met => exact .inr (before _ met)
  | last _ ends => exact .inl ends
  | onward _ step _ ih =>
      refine ih fun c seen => ?_
      rcases List.mem_cons.1 seen with rfl | earlier
      · exact .single step
      · exact (before c earlier).tail step

/-- To remember less changes nothing, as long as the end is remembered. -/
theorem forget {seen' : List α} (follows : Follows next seen a b) (fewer : seen' ⊆ seen)
    (kept : b ∈ seen') : Follows next seen' a b := by
  induction follows generalizing seen' with
  | again _ => exact .again kept
  | last _ _ => exact .again kept
  | @onward seen a _ _ unmet step _ ih =>
      refine .onward (fun met => unmet (fewer met)) step ?_
      exact ih (List.cons_subset_cons a fewer) (List.mem_cons_of_mem a kept)

/-- From where the following ends it leads back to the same, with nothing remembered. -/
theorem settles [DecidableEq α] (follows : Follows next seen a b) (unmet : b ∉ seen) :
    Follows next [] b b := by
  induction follows with
  | again met => exact absurd met unmet
  | last _ ends => exact .last List.not_mem_nil ends
  | @onward seen a _ b _ step rest ih =>
      by_cases same : b = a
      · -- the circle is entered here, so only its start has to be remembered on the way round
        subst same
        refine .onward List.not_mem_nil step (rest.forget ?_ List.mem_cons_self)
        exact List.cons_subset_cons b (List.nil_subset seen)
      · exact ih (by simp [same, unmet])

/-- A trail through what is fresh does the same as remembering what is not. -/
theorem of_trail [DecidableEq α] {fresh : List α} (once : fresh.Nodup)
    (unseen : ∀ c, next c ≠ none → (c ∈ fresh ↔ c ∉ seen)) :
    Follows next seen a ((trail next fresh a).getLast?.getD a) := by
  fun_induction trail next fresh a generalizing seen with
  | case1 fresh a isFresh b step ih =>
      rw [List.getLast?_cons]
      refine .onward ((unseen a (by simp [step])).1 isFresh) step (ih (once.erase a) ?_)
      intro c more
      rw [once.mem_erase_iff, unseen c more, List.mem_cons, not_or]
  | case2 fresh a isFresh ended =>
      by_cases met : a ∈ seen
      · exact .again met
      · exact .last met ended
  | case3 fresh a notFresh =>
      by_cases met : a ∈ seen
      · exact .again met
      · refine .last met ?_
        cases step : next a with
        | none => rfl
        | some b => exact absurd ((unseen a (by simp [step])).2 met) notFresh

end Follows

end Follows

namespace Module

variable {m : Module} {through : CastKind → Bool} {a h v : Handle}

/-! ## Values behind casts -/

/-- Casts of the given kinds and aliases lead from one value to the other. -/
def Leads (m : Module) (through : CastKind → Bool) : Handle → Handle → Prop :=
  Relation.ReflTransGen fun a b => m.behind? through a = some b

/-- The value is a cast of one of the given kinds, or an alias. -/
def Covers (m : Module) (through : CastKind → Bool) (h : Handle) : Prop :=
  (∃ site kind operand, m.kind? h = some (.instruction site (.cast kind operand)) ∧
    through kind = true) ∨ ∃ target, m.kind? h = some (.aliasOf target)

/-- No circle lies on the chain from the value. -/
def Uncircled (m : Module) (through : CastKind → Bool) (v : Handle) : Prop :=
  ∀ c, m.Leads through v c →
    ¬Relation.TransGen (fun a b => m.behind? through a = some b) c c

theorem behind?_eq_none_iff : m.behind? through h = none ↔ ¬m.Covers through h := by
  unfold behind? Covers
  split
  · rename_i kind
    simp [kind]
  · rename_i kind
    simp [kind]
  · rename_i notCast notAlias
    refine iff_of_true rfl ?_
    rintro (⟨site, kind, operand, isCast, -⟩ | ⟨target, isAlias⟩)
    · exact notCast site kind operand isCast
    · exact notAlias target isAlias

theorem mem_keys_of_behind? (more : m.behind? through a ≠ none) : a ∈ m.values.keys := by
  rw [← SortedMap.contains_iff, SortedMap.contains]
  cases found : m.values.get? a with
  | some v => rfl
  | none => simp [behind?, kind?, value?, found] at more

theorem follows_strip (m : Module) (through : CastKind → Bool) (v : Handle) :
    Follows (m.behind? through) [] v (m.strip through v) :=
  .of_trail m.values.ordered.nodup fun c more => by simpa using mem_keys_of_behind? more

/-- A chain that comes to an end is followed to it. -/
theorem strip_eq_iff (ends : m.behind? through h = none) :
    m.strip through a = h ↔ m.Leads through a h := by
  have follows := m.follows_strip through a
  constructor
  · rintro rfl
    exact follows.reaches
  · intro leads
    have onward := reaches_end_of_reaches leads follows.reaches ends
    rcases follows.ends_or_cycle (by simp) with ends' | cycle
    · exact eq_of_reaches_of_end onward ends'
    · exact absurd cycle (not_cycle_of_reaches_end onward ends)

theorem follows_iff : Follows (m.behind? through) [] v h ↔ h = m.strip through v := by
  constructor
  · exact fun follows => follows.unique (m.follows_strip through v)
  · rintro rfl
    exact m.follows_strip through v

/-- What has been stripped stays as it is, also on a circle. -/
theorem strip_strip (m : Module) (through : CastKind → Bool) (v : Handle) :
    m.strip through (m.strip through v) = m.strip through v :=
  (follows_iff.1 ((m.follows_strip through v).settles List.not_mem_nil)).symm

/-- A chain has no circle exactly if it comes to an end. -/
theorem uncircled_iff :
    m.Uncircled through v ↔ ∃ h, m.Leads through v h ∧ m.behind? through h = none := by
  constructor
  · intro uncircled
    have follows := m.follows_strip through v
    refine ⟨_, follows.reaches, (follows.ends_or_cycle (by simp)).resolve_right ?_⟩
    exact uncircled _ follows.reaches
  · rintro ⟨h, leads, ends⟩ c before
    exact not_cycle_of_reaches_end (reaches_end_of_reaches leads before ends) ends

theorem Uncircled.strip_eq_iff (uncircled : m.Uncircled through v) :
    m.strip through v = h ↔ m.Leads through v h ∧ m.behind? through h = none := by
  obtain ⟨last, leads, ends⟩ := uncircled_iff.1 uncircled
  constructor
  · rw [(Module.strip_eq_iff ends).2 leads]
    rintro rfl
    exact ⟨leads, ends⟩
  · rintro ⟨leads, ends⟩
    exact (Module.strip_eq_iff ends).2 leads

/-- What looks through more kinds of casts goes further on the same chain. -/
theorem Leads.mono {through' : CastKind → Bool} (leads : m.Leads through v h)
    (more : ∀ kind, through kind = true → through' kind = true) : m.Leads through' v h := by
  refine Relation.ReflTransGen.mono (fun a b step => ?_) v h leads
  unfold behind? at step ⊢
  split at step
  · split at step
    · rename_i looked
      rw [if_pos (more _ looked)]
      exact step
    · cases step
  · exact step
  · cases step

theorem Uncircled.ignoreCasts_stripBitcasts (uncircled : m.Uncircled (fun _ => true) v) :
    m.ignoreCasts (m.stripBitcasts v) = m.ignoreCasts v := by
  obtain ⟨leads, ends⟩ := uncircled.strip_eq_iff.1 rfl
  have before : m.Leads (fun _ => true) v (m.stripBitcasts v) :=
    Leads.mono (m.follows_strip _ v).reaches fun _ _ => rfl
  exact (Module.strip_eq_iff ends).2 (reaches_end_of_reaches leads before ends)

/--
Whatever casts and aliases there are, the loops that look through them end, and to look once more
changes nothing.  If the chain from a value has no circle, they come to its first value that is no
cast of the kinds in question and no alias, and bitcasts may be stripped before the other casts.
-/
theorem strip_ends_chains (m : Module) (v : Handle) :
    (∀ h, Follows (m.behind? fun _ => true) [] v h ↔ h = m.ignoreCasts v) ∧
      (∀ h, Follows (m.behind? fun kind => kind = .bitcast) [] v h ↔ h = m.stripBitcasts v) ∧
      m.ignoreCasts (m.ignoreCasts v) = m.ignoreCasts v ∧
      m.stripBitcasts (m.stripBitcasts v) = m.stripBitcasts v ∧
      (m.Uncircled (fun kind => kind = .bitcast) v → ∀ h, m.stripBitcasts v = h ↔
        m.Leads (fun kind => kind = .bitcast) v h ∧ ¬m.Covers (fun kind => kind = .bitcast) h) ∧
      (m.Uncircled (fun _ => true) v →
        (∀ h, m.ignoreCasts v = h ↔
          m.Leads (fun _ => true) v h ∧ ¬m.Covers (fun _ => true) h) ∧
        m.ignoreCasts (m.stripBitcasts v) = m.ignoreCasts v) := by
  simp only [← behind?_eq_none_iff]
  exact ⟨fun _ => follows_iff, fun _ => follows_iff, m.strip_strip _ v, m.strip_strip _ v,
    fun uncircled _ => uncircled.strip_eq_iff,
    fun uncircled => ⟨fun _ => uncircled.strip_eq_iff, uncircled.ignoreCasts_stripBitcasts⟩⟩

end Module

/-! ## Chains of both kinds -/

/-- An alias of a bitcast of an extended result, and an alias of one of two casts in a circle. -/
def veiled : Module :=
  Module.build {}
    [.external "g" .i32,
      .function "f" .i32 [],
      .block 2 "entry",
      .call (some 3) 1 [] "t" none,
      .cast (some 3) .sext (.value 4) (.int 64) "wide",
      .cast (some 3) .bitcast (.value 5) .ptr "p",
      .addAlias "a" 6,
      .cast (some 3) .bitcast (.value 4) .i32 "c",
      .cast (some 3) .zext (.value 8) .i32 "d",
      .setCast 8 9,
      .addAlias "b" 8]

/-- The result is found behind the extension, and the circle is entered at the first of its casts. -/
theorem strip_ends_chains_veiled :
    veiled.stripBitcasts 7 = 5 ∧ veiled.ignoreCasts (veiled.stripBitcasts 7) = 4 ∧
      Follows (veiled.behind? fun _ => true) [] 10 8 ∧
      veiled.ignoreCasts (veiled.ignoreCasts 10) = 8 := by
  obtain ⟨-, -, -, -, bitcasts, casts⟩ := Module.strip_ends_chains veiled 7
  obtain ⟨follows, -, settled, -, -, -⟩ := Module.strip_ends_chains veiled 10
  have toWide : veiled.Leads (fun kind => kind = .bitcast) 7 5 :=
    .head (b := 6) (by decide +kernel) (.single (by decide +kernel))
  have toResult : veiled.Leads (fun _ => true) 7 4 :=
    (toWide.mono fun _ _ => rfl).tail (by decide +kernel)
  have wide : veiled.behind? (fun kind => kind = .bitcast) 5 = none := by decide +kernel
  have result : veiled.behind? (fun _ => true) 4 = none := by decide +kernel
  obtain ⟨first, commute⟩ := casts (Module.uncircled_iff.2 ⟨4, toResult, result⟩)
  have circle : veiled.ignoreCasts 10 = 8 := by decide +kernel
  refine ⟨(bitcasts (Module.uncircled_iff.2 ⟨5, toWide, wide⟩) 5).2
    ⟨toWide, Module.behind?_eq_none_iff.1 wide⟩, commute.trans ((first 4).2
    ⟨toResult, Module.behind?_eq_none_iff.1 result⟩), (follows 8).2 circle.symm, ?_⟩
  rw [settled, circle]

end ErrorContracts
