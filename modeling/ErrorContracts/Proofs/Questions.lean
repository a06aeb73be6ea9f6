import ErrorContracts.Oracle.Exact
import ErrorContracts.PathCondition
import ErrorContracts.Proofs.Verdicts

/-!
# Questions are about comparisons

Path conditions are put together from comparisons of the tracked result with integers.  Whatever is so
put together is complete: no part is absent and every operator is known.  An oracle that answers every
complete formula therefore answers every question of a run.
-/

namespace ErrorContracts

namespace Formula

/-- A property that conditions put together from others inherit from these. -/
structure Inherited (p : Formula → Prop) : Prop where
  meet : ∀ {f? g? : Option Formula}, (∀ f ∈ f?, p f) → (∀ g ∈ g?, p g) → ∀ h ∈ meet? f? g?, p h
  join : ∀ {fs : List Formula}, (∀ f ∈ fs, p f) → ∀ h ∈ join? fs, p h

/-- A property of the constants that `and` and `or` pass on from their operands. -/
structure Composed (p : Formula → Prop) : Prop where
  bool : ∀ b, p (.bool b)
  and : ∀ {f g : Formula}, p f → p g → p (.and f g)
  or : ∀ {f g : Formula}, p f → p g → p (.or f g)

namespace Composed

variable {p : Formula → Prop} {fs : List Formula} (composed : Composed p)

include composed

theorem conjoinFrom {f : Formula} (hf : p f) (hfs : ∀ g ∈ fs, p g) : p (conjoinFrom f fs) := by
  induction fs generalizing f with
  | nil => exact hf
  | cons g gs ih =>
      obtain ⟨hg, hgs⟩ := List.forall_mem_cons.1 hfs
      rw [Formula.conjoinFrom]
      split
      · exact composed.bool false
      split
      · exact ih hf hgs
      split
      · exact ih hg hgs
      · exact ih (composed.and hf hg) hgs

theorem conjoin (hfs : ∀ g ∈ fs, p g) : p (conjoin fs) :=
  composed.conjoinFrom (composed.bool true) hfs

theorem disjoinFrom {f : Formula} (hf : p f) (hfs : ∀ g ∈ fs, p g) : p (disjoinFrom f fs) := by
  induction fs generalizing f with
  | nil => exact hf
  | cons g gs ih =>
      obtain ⟨hg, hgs⟩ := List.forall_mem_cons.1 hfs
      rw [Formula.disjoinFrom]
      split
      · exact composed.bool true
      split
      · exact ih hf hgs
      split
      · exact ih hg hgs
      · exact ih (composed.or hf hg) hgs

theorem disjoin (hfs : ∀ g ∈ fs, p g) : p (disjoin fs) :=
  composed.disjoinFrom (composed.bool false) hfs

theorem inherited : Inherited p where
  meet := by
    intro f? g? hf hg h both
    cases f? with
    | none => exact hg h (by simpa [meet?] using both)
    | some f =>
        cases g? with
        | none => exact hf h (by simpa [meet?] using both)
        | some g =>
            cases both
            exact composed.conjoin (by simpa using ⟨hf f rfl, hg g rfl⟩)
  join := by
    intro fs hfs h joined
    cases fs with
    | nil => cases joined
    | cons f fs =>
        cases joined
        exact composed.disjoin hfs

end Composed

theorem composed_complete : Composed Complete where
  bool _ := trivial
  and hf hg := ⟨hf, hg⟩
  or hf hg := ⟨hf, hg⟩

theorem complete_conjoin {fs : List Formula} (hfs : ∀ g ∈ fs, g.Complete) :
    (conjoin fs).Complete :=
  composed_complete.conjoin hfs

theorem complete_anyOf (codes : SortedSet Int) : (anyOf codes result).Complete := by
  refine composed_complete.disjoin fun g hg => ?_
  obtain ⟨c, -, rfl⟩ := List.mem_map.1 hg
  exact ⟨trivial, trivial⟩

/-- Put together by `and`, `or` and `not` from comparisons of the tracked result with integers. -/
inductive Comparative : Formula → Prop where
  | compare (op : Relation) (n : Int) : Comparative (.relation op .result (.int n))
  | converse (op : Relation) (n : Int) : Comparative (.relation op (.int n) .result)
  | and {f g : Formula} (hf : f.Comparative) (hg : g.Comparative) : Comparative (.and f g)
  | or {f g : Formula} (hf : f.Comparative) (hg : g.Comparative) : Comparative (.or f g)
  | not {f : Formula} (hf : f.Comparative) : Comparative (.not f)

namespace Comparative

theorem complete {f : Formula} (hf : f.Comparative) : f.Complete := by
  induction hf with
  | compare op n => exact ⟨trivial, trivial⟩
  | converse op n => exact ⟨trivial, trivial⟩
  | and _ _ ihf ihg => exact ⟨ihf, ihg⟩
  | or _ _ ihf ihg => exact ⟨ihf, ihg⟩
  | not _ ih => exact ih

theorem ne_bool {f : Formula} (hf : f.Comparative) (b : Bool) : f ≠ .bool b := by
  rintro rfl
  cases hf

-- no constant is among the parts, so the folds neither drop nor absorb any of them
theorem conjoin_pair {f g : Formula} (hf : f.Comparative) (hg : g.Comparative) :
    (conjoin [f, g]).Comparative := by
  rw [conjoin, conjoinFrom, if_neg (hf.ne_bool false), if_neg (hf.ne_bool true), if_pos rfl,
    conjoinFrom, if_neg (hg.ne_bool false), if_neg (hg.ne_bool true), if_neg (hf.ne_bool true)]
  exact .and hf hg

theorem disjoinFrom {f : Formula} {fs : List Formula} (hf : f.Comparative)
    (hfs : ∀ g ∈ fs, g.Comparative) : (disjoinFrom f fs).Comparative := by
  induction fs generalizing f with
  | nil => exact hf
  | cons g gs ih =>
      obtain ⟨hg, hgs⟩ := List.forall_mem_cons.1 hfs
      rw [Formula.disjoinFrom, if_neg (hg.ne_bool true), if_neg (hg.ne_bool false),
        if_neg (hf.ne_bool false)]
      exact ih (.or hf hg) hgs

theorem disjoin {fs : List Formula} (nonempty : fs ≠ []) (hfs : ∀ g ∈ fs, g.Comparative) :
    (disjoin fs).Comparative := by
  cases fs with
  | nil => exact absurd rfl nonempty
  | cons f fs =>
      obtain ⟨hf, others⟩ := List.forall_mem_cons.1 hfs
      rw [Formula.disjoin, Formula.disjoinFrom, if_neg (hf.ne_bool true), if_neg (hf.ne_bool false),
        if_pos rfl]
      exact hf.disjoinFrom others

theorem anyOf {codes : SortedSet Int} (some_code : codes.isEmpty = false) :
    (anyOf codes result).Comparative := by
  apply disjoin
  · intro none
    rw [SortedSet.isEmpty, List.map_eq_nil_iff.1 none] at some_code
    cases some_code
  · intro g among
    obtain ⟨c, -, rfl⟩ := List.mem_map.1 among
    exact .compare .eq c

theorem meet? {f? g? : Option Formula} (hf : ∀ f ∈ f?, f.Comparative)
    (hg : ∀ g ∈ g?, g.Comparative) : ∀ h ∈ meet? f? g?, h.Comparative := by
  cases f? with
  | none => simpa [Formula.meet?] using hg
  | some f =>
      cases g? with
      | none => simpa [Formula.meet?] using hf
      | some g =>
          intro h both
          cases both
          exact (hf f rfl).conjoin_pair (hg g rfl)

theorem join? {fs : List Formula} (hfs : ∀ f ∈ fs, f.Comparative) :
    ∀ h ∈ join? fs, h.Comparative := by
  intro h joined
  cases fs with
  | nil => cases joined
  | cons f fs =>
      cases joined
      exact disjoin (List.cons_ne_nil f fs) hfs

end Comparative

end Formula

theorem Module.comparative_inducedFact? {m : Module} {c : Comparison} {outcome : Bool} :
    ∀ f ∈ m.inducedFact? c outcome, f.Comparative := by
  intro f induced
  obtain ⟨g, related, rfl⟩ := Option.map_eq_some_iff.1 induced
  have comparative : g.Comparative := by
    unfold relationOf? at related
    split at related
    · cases related
      exact .converse _ _
    · obtain ⟨n, -, rfl⟩ := Option.map_eq_some_iff.1 related
      exact .compare _ _
  split
  · exact comparative
  · exact .not comparative

theorem Formula.Comparative.inherited : Inherited Comparative where
  meet := Comparative.meet?
  join := Comparative.join?

/-- All contributions that a search keeps have a property. -/
def ConditionSearch.Keeps (p : Formula → Prop) (s : ConditionSearch) : Prop :=
  ∀ key fact?, Bindings.find? key s.finished = some fact? → ∀ f ∈ fact?, p f

namespace ConditionSearch.Keeps

variable {p : Formula → Prop}

theorem empty : Keeps p {} := by
  intro key fact? found
  cases found

theorem assign {s : ConditionSearch} (keeps : s.Keeps p) (key : Handle × Handle)
    {fact? : Option Formula} (fine : ∀ f ∈ fact?, p f) :
    Keeps p { s with finished := Bindings.assign key fact? s.finished } := by
  intro other found? found
  rw [Bindings.find?_assign] at found
  split at found
  · cases found
    exact fine
  · exact keeps other found? found

end ConditionSearch.Keeps

namespace Routine

section Inherited

variable {m : Module} {r : Routine} {target : Handle} {p : Formula → Prop} (allowed : Block → Prop)
  (inherited : Formula.Inherited p)
  (own : ∀ d, allowed d → ∀ c, (m.comparison? d.terminator).filter (m.involves target) = some c →
    ∀ outcome, ∀ f ∈ m.inducedFact? c outcome, p f)
  (upward : ∀ d, allowed d → ∀ e ∈ r.directControllers d.handle, allowed e)

include inherited own upward

/-- A search inherits what the comparisons of all blocks have that it may come to. -/
theorem conditionThrough_inherits {fresh : List Handle} {b : Handle} {untried : List Block}
    {facts : List Formula} {s : ConditionSearch} (start : ∀ d ∈ untried, allowed d)
    (fine : ∀ f ∈ facts, p f) (keeps : s.Keeps p) :
    (∀ f ∈ (conditionThrough m r target fresh b untried facts s).1, p f) ∧
      (conditionThrough m r target fresh b untried facts s).2.Keeps p := by
  have append : ∀ {facts : List Formula} {fact? : Option Formula}, (∀ f ∈ facts, p f) →
      (∀ f ∈ fact?, p f) → ∀ f ∈ facts ++ fact?.toList, p f := by
    intro facts fact? old new f member
    exact (List.mem_append.1 member).elim (old f) fun added => new f (Option.mem_toList.1 added)
  fun_induction conditionThrough m r target fresh b untried facts s with
  | case1 fresh b facts s => exact ⟨inherited.join fine, keeps⟩
  | case2 fresh b facts s dep untried fact? found ih =>
      exact ih (List.forall_mem_cons.1 start).2 (append fine (keeps _ _ found)) keeps
  | case3 fresh b facts s dep untried unfinished expanded ih =>
      exact ih (List.forall_mem_cons.1 start).2 fine keeps
  | case4 fresh b facts s dep untried unfinished unexpanded inside inner s' searched c compared own'
      fact? ihInner ih =>
      obtain ⟨head, tail⟩ := List.forall_mem_cons.1 start
      obtain ⟨fineInner, keeps'⟩ := ihInner (upward dep head) (by simp) keeps
      rw [searched] at fineInner keeps'
      have fineFact : ∀ f ∈ fact?, p f := inherited.meet (own dep head c compared _) fineInner
      exact ih tail (append fine fineFact) (keeps'.assign _ fineFact)
  | case5 fresh b facts s dep untried unfinished unexpanded inside inner s' searched other
      ihInner ih =>
      obtain ⟨head, tail⟩ := List.forall_mem_cons.1 start
      obtain ⟨fineInner, keeps'⟩ := ihInner (upward dep head) (by simp) keeps
      rw [searched] at fineInner keeps'
      exact ih tail (append fine fineInner) keeps'
  | case6 fresh b facts s dep untried unfinished unexpanded outside ih =>
      exact ih (List.forall_mem_cons.1 start).2 fine keeps

end Inherited

theorem comparative_pathCondition? {m : Module} {r : Routine} {b target : Handle} {f : Formula}
    (known : pathCondition? m r b target = some f) : f.Comparative := by
  refine (conditionThrough_inherits (fun _ => True) Formula.Comparative.inherited ?_ ?_ ?_ ?_
    .empty).1 f known
  · exact fun _ _ _ _ _ => Module.comparative_inducedFact?
  · exact fun _ _ _ _ => trivial
  · exact fun _ _ => trivial
  · exact fun f member => by cases member

theorem complete_pathCondition? {m : Module} {r : Routine} {b target : Handle} {f : Formula}
    (known : pathCondition? m r b target = some f) : f.Complete :=
  (comparative_pathCondition? known).complete

end Routine

namespace Oracle

variable {σ : Type} {oracle : Oracle σ} {s : σ}

/-- From a state on the oracle gives a verdict on every complete formula. -/
def Answers (oracle : Oracle σ) (s : σ) : Prop :=
  oracle.Replies s fun f answer => f.Complete → ∃ verdict, answer = .ok verdict

/-- From a state on the oracle gives a verdict on every combination of comparisons. -/
def AnswersComparisons (oracle : Oracle σ) (s : σ) : Prop :=
  oracle.Replies s fun f answer => f.Comparative → ∃ verdict, answer = .ok verdict

theorem Answers.comparisons (answers : oracle.Answers s) : oracle.AnswersComparisons s :=
  fun asked f comparative => answers asked f comparative.complete

theorem exact_answers (n : Nat) : exact.Answers n := by
  intro asked f complete
  simp only [exact, Formula.verdict, Formula.obstacle_eq_none_iff.2 complete]
  exact ⟨_, rfl⟩

end Oracle

end ErrorContracts
