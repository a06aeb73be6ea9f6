import ErrorContracts.Proofs.Agreement
import ErrorContracts.Proofs.ParentTrees
import ErrorContracts.Proofs.Postorder
import Mathlib.Algebra.GroupWithZero.Nat
import Mathlib.Algebra.Order.BigOperators.Group.List
import Mathlib.Algebra.Order.Group.Nat

/-!
# Dominators are found

The iteration that builds the tree of immediate dominators ends with the tree: on every graph, a node
is above another in it exactly if it dominates the other.

A sweep visits the nodes in reverse postorder.  Before each visit the tree so far has all dominators
of a node above the node, and no visit can move a node away from the root: what is above all
predecessors of a node is above its parent.  This last fact needs a look at the part of the tree that
the sweep has not come to yet, where a parent may be out of date only by nodes already visited.  So a
sweep that brings no node closer to the root changes nothing, and then every parent is above all
predecessors of its node, which makes it a dominator.
-/

namespace ErrorContracts

/-- Repeating a step ends with one that does not lower the measure. -/
theorem exists_descend {α : Type} (measure : α → Nat) {step : α → α} {Inv : α → Prop}
    (keeps : ∀ a, Inv a → Inv (step a)) {a : α} (start : Inv a) :
    ∃ b, Inv b ∧ ¬measure (step b) < measure b ∧ descend measure step a = step b := by
  fun_induction descend measure step a with
  | case1 a _ ih => exact ih (keeps a start)
  | case2 a ended => exact ⟨a, start, ended, rfl⟩

namespace Graph

section Dominance

variable {ν : Type} [DecidableEq ν] {g : Graph ν} {a b c n q : ν} {passed : List ν}

/-! ## Dominance along edges -/

theorem Path.snoc (path : g.Path a b passed) (edge : c ∈ g.succs b) :
    g.Path a c (passed ++ [c]) := by
  induction path with
  | here b => exact .step edge (.here c)
  | step first _ ih => exact .step first (ih edge)

/-- A path is cut in two at a node that it passes. -/
theorem Path.split {before after : List ν} (path : g.Path a c (before ++ n :: after)) :
    g.Path a n (before ++ [n]) ∧ g.Path n c (n :: after) := by
  induction before generalizing a with
  | nil =>
      cases path with
      | here => exact ⟨.here _, .here _⟩
      | step edge rest => exact ⟨.here _, .step edge rest⟩
  | cons k before ih =>
      generalize whole : k :: before ++ n :: after = passed at path
      cases path with
      | here => simp at whole
      | step edge rest =>
          obtain ⟨rfl, rfl⟩ := List.cons.inj whole
          obtain ⟨first, second⟩ := ih rest
          exact ⟨.step edge first, second⟩

/-- Induction on a path from its end. -/
theorem Path.induction_snoc {motive : ν → List ν → Prop} (here : motive a [a])
    (snoc : ∀ b c passed, g.Path a b passed → c ∈ g.succs b → motive b passed →
      motive c (passed ++ [c]))
    (path : g.Path a c passed) : motive c passed := by
  have extended : ∀ b c rest, g.Path b c rest → ∀ before, g.Path a b before → motive b before →
      motive c (before ++ rest.tail) := by
    intro b c rest path
    induction path with
    | here b => simp
    | @step b s c rest edge path ih =>
        intro before reached holds
        have starts : rest = s :: rest.tail := by cases path <;> rfl
        have more := ih (before ++ [s]) (reached.snoc edge) (snoc b s before reached edge holds)
        rw [List.append_assoc, List.singleton_append, ← starts] at more
        exact more
  have whole := extended a c passed path [a] (.here a) here
  have starts : passed = a :: passed.tail := by cases path <;> rfl
  rw [List.singleton_append, ← starts] at whole
  exact whole

namespace Dominates

theorem refl (reached : g.Reaches g.entry n) : g.Dominates n n :=
  ⟨reached, fun _ path => path.end_mem⟩

theorem eq_entry (dominates : g.Dominates a g.entry) : a = g.entry :=
  List.mem_singleton.1 (dominates.2 _ (.here g.entry))

/-- What dominates a node dominates its predecessors or is the node. -/
theorem pred (dominates : g.Dominates a n) (other : a ≠ n) (edge : n ∈ g.succs q)
    (reached : g.Reaches g.entry q) : g.Dominates a q := by
  refine ⟨reached, fun passed path => ?_⟩
  rcases List.mem_append.1 (dominates.2 _ (path.snoc edge)) with inside | last
  · exact inside
  · exact absurd (List.mem_singleton.1 last) other

end Dominates

/-- The predecessors of a node are those that list it as a successor. -/
def Coherent (g : Graph ν) : Prop := ∀ a n, a ∈ g.preds n ↔ n ∈ g.succs a

/-- A graph that lists every node once is coherent. -/
theorem coherent_of_nodup (nodup : g.nodes.Nodup) : g.Coherent := by
  intro a n
  rw [mem_preds, succs]
  constructor
  · rintro ⟨targets, listed, target⟩
    rw [Bindings.find?_of_mem nodup listed]
    exact target
  · intro target
    cases found : Bindings.find? a g.adjacency with
    | none =>
        rw [found] at target
        cases target
    | some targets =>
        rw [found] at target
        exact ⟨targets, Bindings.mem_of_find? found, target⟩

end Dominance

variable {ν : Type} [Ord ν] [DecidableEq ν]

/-! ## One visit -/

/-- The state of the tree when the node at position `i` is visited next. -/
structure Sweeping (g : Graph ν) (i : Nat) (parents : ParentMap ν) : Prop where
  rooted : parents.Rooted g.reversePostorder g.entry
  /-- The dominators of a node dominate its parent. -/
  sound : ∀ a n p, parents.get? n = some p → a ≠ n → g.Dominates a n → g.Dominates a p
  /-- The nodes visited and all in front of a node with a parent have parents. -/
  filled : ∀ n ∈ g.reversePostorder, (g.reversePostorder.idxOf n < i ∨
    ∃ k, parents.contains k = true ∧
      g.reversePostorder.idxOf n < g.reversePostorder.idxOf k) → parents.contains n = true
  /-- What is above the parent of a node is above its earlier predecessors, but for nodes that have
  been visited since the node was. -/
  behind : ∀ n p, parents.get? n = some p → n ≠ g.entry → ∀ q ∈ g.preds n,
    g.reversePostorder.idxOf q < g.reversePostorder.idxOf n → ∀ a, parents.Above a p →
      (g.reversePostorder.idxOf n < i ∨ i ≤ g.reversePostorder.idxOf a) → parents.Above a q
  /-- What is above all predecessors of a node is above its parent. -/
  highest : ∀ n p, parents.get? n = some p → n ≠ g.entry → ∀ a,
    (∀ q ∈ g.preds n, parents.contains q = true → parents.Above a q) → parents.Above a p

/-- The node `m` is the meet of those predecessors of `n` that have a parent. -/
structure Adopts (g : Graph ν) (parents : ParentMap ν) (n m : ν) : Prop where
  placed : parents.contains m = true
  lower : g.reversePostorder.idxOf m < g.reversePostorder.idxOf n
  below : ∀ q ∈ g.preds n, parents.contains q = true → parents.Above m q
  nearest : ∀ a, (∀ q ∈ g.preds n, parents.contains q = true → parents.Above a q) →
    parents.Above a m

namespace Sweeping

variable {g : Graph ν} {i : Nat} {parents : ParentMap ν} (sweeping : g.Sweeping i parents)
  {a m n q : ν}

include sweeping

theorem reached (placed : parents.contains n = true) : g.Reaches g.entry n :=
  mem_reversePostorder.1 (sweeping.rooted.listed n placed)

/-- All dominators of a node are above it. -/
theorem above_of_dominates (placed : parents.contains n = true) (dominates : g.Dominates a n) :
    parents.Above a n := by
  induction position : g.reversePostorder.idxOf n using Nat.strong_induction_on generalizing n with
  | _ _ ih =>
      subst position
      by_cases same : a = n
      · rw [same]
        exact .refl parents n
      · obtain ⟨p, found⟩ := ParentMap.exists_get? placed
        have inner : n ≠ g.entry := by
          rintro rfl
          exact same dominates.eq_entry
        have above := ih _ (sweeping.rooted.lower n p found inner)
          (sweeping.rooted.placed n p found) (sweeping.sound a n p found same dominates) rfl
        exact .of_parent found above

/-- A dominator of a node dominates what lies between the two. -/
theorem dominates_of_between (dominates : g.Dominates a q) (lower : parents.Above m q)
    (upper : parents.Above a m) : g.Dominates a m := by
  induction lower using Relation.ReflTransGen.head_induction_on with
  | refl => exact dominates
  | @head q p found rest ih =>
      by_cases same : a = q
      · have between : parents.Above m q := .of_parent found rest
        rw [sweeping.rooted.antisymm (same ▸ between) upper]
        exact .refl (same ▸ dominates.1)
      · exact ih (sweeping.sound a q p found same dominates)

/-- After a sweep the next one can begin. -/
theorem restart (done : g.reversePostorder.length ≤ i) : g.Sweeping 1 parents where
  rooted := sweeping.rooted
  sound := sweeping.sound
  filled n listed _ :=
    sweeping.filled n listed (.inl ((List.idxOf_lt_length_iff.2 listed).trans_le done))
  behind n p found inner q pred earlier a above _ := by
    have listed := sweeping.rooted.listed n (ParentMap.contains_of_get? found)
    exact sweeping.behind n p found inner q pred earlier a above
      (.inl ((List.idxOf_lt_length_iff.2 listed).trans_le done))
  highest := sweeping.highest

variable (coherent : g.Coherent) (listed : n ∈ g.reversePostorder) (inner : n ≠ g.entry)

include coherent listed inner

/-- A node that is visited, or has a parent, has an earlier predecessor with a parent. -/
theorem exists_placed_pred (due : g.reversePostorder.idxOf n ≤ i ∨ parents.contains n = true) :
    ∃ q ∈ g.preds n, parents.contains q = true ∧
      g.reversePostorder.idxOf q < g.reversePostorder.idxOf n := by
  obtain ⟨q, member, edge, earlier⟩ := exists_earlier_pred listed inner
  refine ⟨q, (coherent q n).2 edge, sweeping.filled q member ?_, earlier⟩
  rcases due with due | placed
  · exact .inl (earlier.trans_le due)
  · exact .inr ⟨n, placed, earlier⟩

variable [Std.TransOrd ν] [Std.LawfulEqOrd ν]

/-- A visit gives the node the meet of its predecessors as parent. -/
theorem exists_adopts (due : g.reversePostorder.idxOf n ≤ i) :
    ∃ m, g.adopt g.reversePostorder.idxOf parents n = SortedMap.insert parents n m ∧
      g.Adopts parents n m := by
  obtain ⟨q, pred, placed, earlier⟩ :=
    sweeping.exists_placed_pred coherent listed inner (.inl due)
  have members : ∀ q, q ∈ (g.preds n).filter (fun p => parents.contains p) ↔
      q ∈ g.preds n ∧ parents.contains q = true := fun q => List.mem_filter
  unfold adopt
  cases found : (g.preds n).filter fun p => parents.contains p with
  | nil =>
      have none := (members q).2 ⟨pred, placed⟩
      rw [found] at none
      cases none
  | cons p rest =>
      rw [found] at members
      have first := ((members p).1 List.mem_cons_self).2
      have others : ∀ q ∈ rest, parents.contains q = true :=
        fun q hq => ((members q).1 (List.mem_cons_of_mem p hq)).2
      obtain ⟨below, nearest⟩ := sweeping.rooted.foldl_meet first others
      refine ⟨_, rfl, ?_⟩
      constructor
      · exact sweeping.rooted.contains_of_above (below p List.mem_cons_self) first
      · have above := below q ((members q).2 ⟨pred, placed⟩)
        exact (sweeping.rooted.idxOf_le above).trans_lt earlier
      · exact fun q pred placed => below q ((members q).2 ⟨pred, placed⟩)
      · intro a above
        apply nearest
        intro q hq
        obtain ⟨pred, placed⟩ := (members q).1 hq
        exact above q pred placed

end Sweeping

namespace Adopts

variable {g : Graph ν} {i : Nat} {parents : ParentMap ν} {m n : ν}

/-- The dominators of the node dominate its new parent. -/
theorem dominates (adopts : g.Adopts parents n m) (sweeping : g.Sweeping i parents)
    (coherent : g.Coherent) (listed : n ∈ g.reversePostorder) (inner : n ≠ g.entry)
    (due : g.reversePostorder.idxOf n = i) {a : ν} (other : a ≠ n) (dominates : g.Dominates a n) :
    g.Dominates a m := by
  have each : ∀ q ∈ g.preds n, parents.contains q = true → g.Dominates a q :=
    fun q pred placed => dominates.pred other ((coherent q n).1 pred) (sweeping.reached placed)
  have above := adopts.nearest a fun q pred placed =>
    sweeping.above_of_dominates placed (each q pred placed)
  obtain ⟨q, pred, placed, -⟩ := sweeping.exists_placed_pred coherent listed inner (.inl due.le)
  exact sweeping.dominates_of_between (each q pred placed) (adopts.below q pred placed) above

variable [Std.TransOrd ν] [Std.LawfulEqOrd ν]

theorem agreeOff (parents : ParentMap ν) (n m : ν) :
    ParentMap.AgreeOff n parents (SortedMap.insert parents n m) := by
  intro k other
  rw [SortedMap.get?_insert, if_neg other]

/-- A parent in the new tree is the new one or an old one. -/
theorem get?_insert_cases {k p : ν} (found : (SortedMap.insert parents n m).get? k = some p) :
    k = n ∧ p = m ∨ k ≠ n ∧ parents.get? k = some p := by
  rw [SortedMap.get?_insert] at found
  split at found
  · rename_i same
    cases found
    exact .inl ⟨same, rfl⟩
  · rename_i other
    exact .inr ⟨other, found⟩

variable (adopts : g.Adopts parents n m) (sweeping : g.Sweeping i parents)
  (listed : n ∈ g.reversePostorder) (inner : n ≠ g.entry)
  (due : g.reversePostorder.idxOf n = i)

include adopts sweeping listed inner

theorem rooted : ParentMap.Rooted (SortedMap.insert parents n m) g.reversePostorder g.entry := by
  constructor
  · exact sweeping.rooted.first
  · rw [SortedMap.get?_insert, if_neg inner.symm]
    exact sweeping.rooted.own
  · intro k placed
    rcases SortedMap.contains_insert.1 placed with rfl | old
    · exact listed
    · exact sweeping.rooted.listed k old
  · intro k p found
    rcases get?_insert_cases found with ⟨-, rfl⟩ | ⟨-, found⟩
    · exact SortedMap.contains_insert.2 (.inr adopts.placed)
    · exact SortedMap.contains_insert.2 (.inr (sweeping.rooted.placed k p found))
  · intro k p found other
    rcases get?_insert_cases found with ⟨rfl, rfl⟩ | ⟨-, found⟩
    · exact adopts.lower
    · exact sweeping.rooted.lower k p found other

/-- The nodes that come before the visited one have kept what is above them. -/
theorem above_iff_of_lt {a k : ν}
    (early : g.reversePostorder.idxOf k < g.reversePostorder.idxOf n) :
    ParentMap.Above (SortedMap.insert parents n m) a k ↔ parents.Above a k :=
  ⟨(agreeOff parents n m).symm.above_of_lt (adopts.rooted sweeping listed inner) early,
    (agreeOff parents n m).above_of_lt sweeping.rooted early⟩

/-- The nodes that do not come before the visited one are above the same nodes as before. -/
theorem above_iff_of_le {a k : ν}
    (late : g.reversePostorder.idxOf n ≤ g.reversePostorder.idxOf a) :
    ParentMap.Above (SortedMap.insert parents n m) a k ↔ parents.Above a k :=
  ⟨(agreeOff parents n m).symm.above_of_le (adopts.rooted sweeping listed inner) late,
    (agreeOff parents n m).above_of_le sweeping.rooted late⟩

/-- Nothing new has come above a node that had a parent before. -/
theorem above_of_above {a k : ν} (placed : parents.contains k = true)
    (above : ParentMap.Above (SortedMap.insert parents n m) a k) : parents.Above a k := by
  cases found : parents.get? n with
  | some p =>
      refine (agreeOff parents n m).symm.above_of_raised (fun p' found' => ?_) above
      rw [SortedMap.get?_insert, if_pos rfl] at found'
      cases found'
      exact .of_parent found (sweeping.highest n p found inner m adopts.below)
  | none =>
      -- a node that gets its first parent comes behind all nodes that have one
      refine (adopts.above_iff_of_lt sweeping listed inner ?_).1 above
      have missing : ¬parents.contains n = true := by simp [SortedMap.contains, found]
      refine lt_of_le_of_ne (not_lt.1 fun later => ?_) fun same => ?_
      · exact missing (sweeping.filled n listed (.inr ⟨k, placed, later⟩))
      · exact missing (sweeping.rooted.eq_of_idxOf_eq placed same ▸ placed)

include due

theorem filled (k : ν) (member : k ∈ g.reversePostorder)
    (due' : g.reversePostorder.idxOf k < i + 1 ∨
      ∃ l, (SortedMap.insert parents n m).contains l = true ∧
        g.reversePostorder.idxOf k < g.reversePostorder.idxOf l) :
    (SortedMap.insert parents n m).contains k = true := by
  rw [SortedMap.contains_insert]
  by_cases same : k = n
  · exact .inl same
  · refine .inr (sweeping.filled k member ?_)
    rcases due' with visited | ⟨l, placed, earlier⟩
    · refine .inl (lt_of_le_of_ne (Nat.lt_succ_iff.1 visited) fun equal => same ?_)
      exact (List.idxOf_inj member).1 (equal.trans due.symm)
    · rcases SortedMap.contains_insert.1 placed with rfl | placed
      · exact .inl (due ▸ earlier)
      · exact .inr ⟨l, placed, earlier⟩

theorem behind (k p : ν) (found : (SortedMap.insert parents n m).get? k = some p)
    (other : k ≠ g.entry) (q : ν) (pred : q ∈ g.preds k)
    (earlier : g.reversePostorder.idxOf q < g.reversePostorder.idxOf k) (a : ν)
    (above : ParentMap.Above (SortedMap.insert parents n m) a p)
    (late : g.reversePostorder.idxOf k < i + 1 ∨ i + 1 ≤ g.reversePostorder.idxOf a) :
    ParentMap.Above (SortedMap.insert parents n m) a q := by
  have early {a k : ν} (h : g.reversePostorder.idxOf k < g.reversePostorder.idxOf n) :
      ParentMap.Above (SortedMap.insert parents n m) a k ↔ parents.Above a k :=
    adopts.above_iff_of_lt sweeping listed inner h
  rcases get?_insert_cases found with ⟨rfl, rfl⟩ | ⟨different, found⟩
  · have member : q ∈ g.reversePostorder :=
      List.idxOf_lt_length_iff.1 (earlier.trans (List.idxOf_lt_length_iff.2 listed))
    have placed := sweeping.filled q member (.inl (due ▸ earlier))
    have met := adopts.below q pred placed
    exact (early earlier).2 (((early adopts.lower).1 above).trans met)
  · rcases late with visited | late
    · have before : g.reversePostorder.idxOf k < i := by
        refine lt_of_le_of_ne (Nat.lt_succ_iff.1 visited) fun equal => different ?_
        exact sweeping.rooted.eq_of_idxOf_eq (ParentMap.contains_of_get? found)
          (equal.trans due.symm)
      have lower := sweeping.rooted.lower k p found other
      have above := (early (lower.trans (due ▸ before))).1 above
      have old := sweeping.behind k p found other q pred earlier a above (.inl before)
      exact (early (earlier.trans (due ▸ before))).2 old
    · have notBefore : g.reversePostorder.idxOf n ≤ g.reversePostorder.idxOf a := by omega
      have same {k : ν} : ParentMap.Above (SortedMap.insert parents n m) a k ↔ parents.Above a k :=
        adopts.above_iff_of_le sweeping listed inner notBefore
      exact same.2 (sweeping.behind k p found other q pred earlier a (same.1 above)
        (.inr (by omega)))

theorem highest (coherent : g.Coherent) (k p : ν)
    (found : (SortedMap.insert parents n m).get? k = some p) (other : k ≠ g.entry) (a : ν)
    (above : ∀ q ∈ g.preds k, (SortedMap.insert parents n m).contains q = true →
      ParentMap.Above (SortedMap.insert parents n m) a q) :
    ParentMap.Above (SortedMap.insert parents n m) a p := by
  have before : ∀ q ∈ g.preds k, parents.contains q = true → parents.Above a q :=
    fun q pred placed => adopts.above_of_above sweeping listed inner placed
      (above q pred (SortedMap.contains_insert.2 (.inr placed)))
  have rooted := adopts.rooted sweeping listed inner
  rcases get?_insert_cases found with ⟨rfl, rfl⟩ | ⟨-, found⟩
  · exact (adopts.above_iff_of_lt sweeping listed inner adopts.lower).2 (adopts.nearest a before)
  · have old := sweeping.highest k p found other a before
    by_cases late : g.reversePostorder.idxOf n ≤ g.reversePostorder.idxOf a
    · exact (adopts.above_iff_of_le sweeping listed inner late).2 old
    · by_cases through : parents.Above n p
      · -- the way up passes the visited node, and so does the one from an earlier predecessor
        have placed := ParentMap.contains_of_get? found
        obtain ⟨q, pred, placed, earlier⟩ := sweeping.exists_placed_pred coherent
          (sweeping.rooted.listed k placed) other (.inr placed)
        have through' := sweeping.behind k p found other q pred earlier n through (.inr due.ge)
        have upper := above q pred (SortedMap.contains_insert.2 (.inr placed))
        have same {k : ν} : ParentMap.Above (SortedMap.insert parents n m) n k ↔
            parents.Above n k := adopts.above_iff_of_le sweeping listed inner le_rfl
        have top := rooted.above_of_idxOf_le upper (same.2 through') (not_le.1 late).le
        exact top.trans (same.2 through)
      · exact (agreeOff parents n m).above_of_apart through old

/-- A visit leads to the state before the next one. -/
theorem sweeping_insert (coherent : g.Coherent) :
    g.Sweeping (i + 1) (SortedMap.insert parents n m) where
  rooted := adopts.rooted sweeping listed inner
  sound a k p found other dominates := by
    rcases get?_insert_cases found with ⟨rfl, rfl⟩ | ⟨-, found⟩
    · exact adopts.dominates sweeping coherent listed inner due other dominates
    · exact sweeping.sound a k p found other dominates
  filled := adopts.filled sweeping listed inner due
  behind := adopts.behind sweeping listed inner due
  highest := adopts.highest sweeping listed inner due coherent

end Adopts

/-! ## One sweep -/

section Sweeps

variable [Std.TransOrd ν] [Std.LawfulEqOrd ν] {g : Graph ν} {i : Nat} {parents : ParentMap ν}
  {m n : ν}

/-- How far a node is from the root, measured by its parent. -/
def distance (order : List ν) (parents : ParentMap ν) (n : ν) : Nat :=
  ((parents.get? n).map order.idxOf).getD order.length

omit [Std.TransOrd ν] [Std.LawfulEqOrd ν] in
theorem remoteness_eq (order : List ν) (parents : ParentMap ν) :
    remoteness order parents = (order.map (distance order parents)).sum := by
  rw [remoteness, List.sum_eq_foldr, List.foldr_map]
  rfl

omit [Std.TransOrd ν] [Std.LawfulEqOrd ν] in
/-- A visit brings the node closer to the root or leaves its parent. -/
theorem Adopts.closer (adopts : g.Adopts parents n m) (sweeping : g.Sweeping i parents)
    (inner : n ≠ g.entry) :
    g.reversePostorder.idxOf m < distance g.reversePostorder parents n ∨
      parents.get? n = some m := by
  rw [distance]
  cases found : parents.get? n with
  | none => exact .inl (List.idxOf_lt_length_iff.2 (sweeping.rooted.listed m adopts.placed))
  | some p =>
      have above := sweeping.highest n p found inner m adopts.below
      rcases sweeping.rooted.eq_or_idxOf_lt above with rfl | earlier
      · exact .inr rfl
      · exact .inl earlier

/-- A visit brings no node away from the root, and changes nothing if it brings none closer. -/
theorem Adopts.remoteness (adopts : g.Adopts parents n m) (sweeping : g.Sweeping i parents)
    (listed : n ∈ g.reversePostorder) (inner : n ≠ g.entry) :
    remoteness g.reversePostorder (SortedMap.insert parents n m) <
        remoteness g.reversePostorder parents ∨
      SortedMap.insert parents n m = parents := by
  have others : ∀ k, k ≠ n → distance g.reversePostorder (SortedMap.insert parents n m) k =
      distance g.reversePostorder parents k := by
    intro k other
    rw [distance, SortedMap.get?_insert, if_neg other, distance]
  have own : distance g.reversePostorder (SortedMap.insert parents n m) n =
      g.reversePostorder.idxOf m := by
    rw [distance, SortedMap.get?_insert, if_pos rfl]
    rfl
  rcases adopts.closer sweeping inner with closer | same
  · left
    rw [remoteness_eq, remoteness_eq]
    apply List.sum_lt_sum
    · intro k _
      by_cases same : k = n
      · rw [same, own]
        exact closer.le
      · exact (others k same).le
    · exact ⟨n, listed, own ▸ closer⟩
  · right
    refine SortedMap.ext fun k => ?_
    rw [SortedMap.get?_insert]
    split
    · rename_i equal
      rw [equal, same]
    · rfl

/-- The parent of the node is above all its predecessors. -/
def Fixed (g : Graph ν) (parents : ParentMap ν) (n : ν) : Prop :=
  ∃ p, parents.get? n = some p ∧ ∀ q ∈ g.preds n, parents.contains q = true → parents.Above p q

/-- The visit of the node at position `i`. -/
theorem Sweeping.exists_visit (sweeping : g.Sweeping i parents) (coherent : g.Coherent)
    (started : 0 < i) {todo : List ν} (rest : g.reversePostorder.drop i = n :: todo) :
    n ∈ g.reversePostorder ∧ n ≠ g.entry ∧ g.reversePostorder.drop (i + 1) = todo ∧
      ∃ m, g.adopt g.reversePostorder.idxOf parents n = SortedMap.insert parents n m ∧
        g.Adopts parents n m ∧ g.Sweeping (i + 1) (SortedMap.insert parents n m) := by
  have here : g.reversePostorder[i]? = some n := by
    rw [← List.head?_drop, rest]
    rfl
  have listed : n ∈ g.reversePostorder := List.mem_of_getElem? here
  obtain ⟨bound, at_i⟩ := List.getElem?_eq_some_iff.1 here
  have due : g.reversePostorder.idxOf n = i := by
    rw [← at_i]
    exact g.nodup_reversePostorder.idxOf_getElem i bound
  have inner : n ≠ g.entry := by
    rintro rfl
    rw [g.idxOf_entry] at due
    omega
  have rest' : g.reversePostorder.drop (i + 1) = todo := by
    rw [← List.tail_drop, rest]
    rfl
  obtain ⟨m, visited, adopts⟩ := sweeping.exists_adopts coherent listed inner due.le
  exact ⟨listed, inner, rest', m, visited, adopts,
    adopts.sweeping_insert sweeping listed inner due coherent⟩

/--
The visits from position `i` on lead to the end of a sweep.  They bring some node closer to the root,
or change nothing because no parent needs a change.
-/
theorem Sweeping.foldl_adopt (sweeping : g.Sweeping i parents) (coherent : g.Coherent)
    (started : 0 < i) {todo : List ν} (rest : g.reversePostorder.drop i = todo) :
    g.Sweeping (i + todo.length) (todo.foldl (g.adopt g.reversePostorder.idxOf) parents) ∧
      (remoteness g.reversePostorder (todo.foldl (g.adopt g.reversePostorder.idxOf) parents) <
          remoteness g.reversePostorder parents ∨
        todo.foldl (g.adopt g.reversePostorder.idxOf) parents = parents ∧
          ∀ n ∈ todo, g.Fixed parents n) := by
  induction todo generalizing i parents with
  | nil => exact ⟨sweeping, .inr ⟨rfl, by simp⟩⟩
  | cons n todo ih =>
      obtain ⟨listed, inner, rest', m, visited, adopts, next⟩ :=
        sweeping.exists_visit coherent started rest
      obtain ⟨ends, closer⟩ := ih next (Nat.succ_pos i) rest'
      rw [List.foldl_cons, visited, List.length_cons]
      refine ⟨by rwa [Nat.add_assoc, Nat.add_comm 1] at ends, ?_⟩
      rcases adopts.remoteness sweeping listed inner with first | same
      · left
        rcases closer with later | ⟨unchanged, -⟩
        · exact later.trans first
        · rwa [unchanged]
      · rw [same] at closer ⊢
        rcases closer with later | ⟨unchanged, fixed⟩
        · exact .inl later
        · refine .inr ⟨unchanged, List.forall_mem_cons.2 ⟨⟨m, ?_, adopts.below⟩, fixed⟩⟩
          rw [← same, SortedMap.get?_insert, if_pos rfl]

/-! ## The tree of dominators -/

theorem get?_alone {root n p : ν}
    (found : SortedMap.get? ((∅ : ParentMap ν).insert root root) n = some p) :
    n = root ∧ p = root := by
  rw [SortedMap.get?_insert] at found
  split at found
  · rename_i same
    cases found
    exact ⟨same, rfl⟩
  · cases found

theorem contains_alone {root n : ν} :
    SortedMap.contains ((∅ : ParentMap ν).insert root root) n = true ↔ n = root := by
  constructor
  · intro placed
    obtain ⟨p, found⟩ := ParentMap.exists_get? placed
    exact (get?_alone found).1
  · rintro rfl
    exact ParentMap.contains_of_get? (p := n) (by rw [SortedMap.get?_insert, if_pos rfl])

/-- The entry alone is a tree. -/
theorem rooted_alone (g : Graph ν) :
    ParentMap.Rooted ((∅ : ParentMap ν).insert g.entry g.entry) g.reversePostorder g.entry where
  first := g.idxOf_entry
  own := by rw [SortedMap.get?_insert, if_pos rfl]
  listed n placed := by
    rw [contains_alone.1 placed]
    exact mem_reversePostorder.2 (.refl g _)
  placed n p found := contains_alone.2 (get?_alone found).2
  lower n p found inner := absurd (get?_alone found).1 inner

/-- The first sweep begins with the entry alone. -/
theorem sweeping_entry (g : Graph ν) :
    g.Sweeping 1 ((∅ : ParentMap ν).insert g.entry g.entry) := by
  constructor
  · exact g.rooted_alone
  · intro a n p found other dominates
    rw [(get?_alone found).1] at other dominates
    exact absurd dominates.eq_entry other
  · intro n listed due
    have zero : g.reversePostorder.idxOf n = g.reversePostorder.idxOf g.entry := by
      rw [g.idxOf_entry]
      rcases due with first | ⟨k, placed, earlier⟩
      · omega
      · rw [contains_alone.1 placed, g.idxOf_entry] at earlier
        omega
    exact contains_alone.2 ((List.idxOf_inj listed).1 zero)
  · intro n p found inner
    exact absurd (get?_alone found).1 inner
  · intro n p found inner
    exact absurd (get?_alone found).1 inner

omit [Ord ν] [Std.TransOrd ν] [Std.LawfulEqOrd ν] in
theorem filter_reversePostorder (g : Graph ν) :
    (g.reversePostorder.filter fun n => n ≠ g.entry) = g.reversePostorder.drop 1 := by
  have first := g.idxOf_entry
  have nodup := g.nodup_reversePostorder
  have entered : g.entry ∈ g.reversePostorder := mem_reversePostorder.2 (.refl g _)
  cases listed : g.reversePostorder with
  | nil =>
      rw [listed] at entered
      cases entered
  | cons n rest =>
      rw [listed] at first nodup
      have same : n = g.entry := by
        by_contra other
        rw [List.idxOf_cons_ne _ other] at first
        cases first
      rw [List.filter_cons_of_neg (by simpa using same), List.drop_one, List.tail_cons,
        List.filter_eq_self]
      intro k later
      rw [decide_eq_true_eq]
      rintro rfl
      exact (List.nodup_cons.1 nodup).1 (same ▸ later)

theorem sweep_eq (g : Graph ν) (parents : ParentMap ν) : g.sweep g.reversePostorder parents =
    (g.reversePostorder.drop 1).foldl (g.adopt g.reversePostorder.idxOf) parents := by
  rw [sweep, filter_reversePostorder]

/-- A sweep leads to where the next one can begin. -/
theorem Sweeping.sweep (coherent : g.Coherent) (sweeping : g.Sweeping 1 parents) :
    g.Sweeping 1 (g.sweep g.reversePostorder parents) := by
  rw [sweep_eq]
  apply (sweeping.foldl_adopt coherent Nat.one_pos rfl).1.restart
  rw [List.length_drop]
  omega

/-- The tree of dominators is the end of a sweep that has changed nothing. -/
theorem dominators_settled (coherent : g.Coherent) :
    g.Sweeping 1 g.dominators ∧
      ∀ n ∈ g.reversePostorder, n ≠ g.entry → g.Fixed g.dominators n := by
  obtain ⟨parents, sweeping, ended, result⟩ := exists_descend (remoteness g.reversePostorder)
    (fun _ sweeping => sweeping.sweep coherent) g.sweeping_entry
  rw [sweep_eq] at ended result
  rcases (sweeping.foldl_adopt coherent Nat.one_pos rfl).2 with closer | ⟨unchanged, fixed⟩
  · exact absurd closer ended
  · have same : g.dominators = parents := result.trans unchanged
    rw [same]
    refine ⟨sweeping, fun n listed inner => fixed n ?_⟩
    rw [← filter_reversePostorder, List.mem_filter]
    exact ⟨listed, by simpa using inner⟩

/-- Above a node that can be reached stand its dominators. -/
theorem above_dominators_iff (coherent : g.Coherent) (reached : g.Reaches g.entry n) {a : ν} :
    g.dominators.Above a n ↔ g.Dominates a n := by
  obtain ⟨sweeping, fixed⟩ := dominators_settled coherent
  have placed : ∀ k, g.Reaches g.entry k → g.dominators.contains k = true := by
    intro k reached
    by_cases first : k = g.entry
    · rw [first]
      exact ParentMap.contains_of_get? sweeping.rooted.own
    · obtain ⟨p, found, -⟩ := fixed k (mem_reversePostorder.2 reached) first
      exact ParentMap.contains_of_get? found
  constructor
  · intro above
    refine ⟨reached, fun passed path => ?_⟩
    revert a
    refine path.induction_snoc (motive := fun c passed => ∀ {a}, g.dominators.Above a c → a ∈ passed)
      ?_ ?_
    · intro a above
      exact List.mem_singleton.2 (sweeping.rooted.eq_root_of_above above)
    · intro b c passed path edge ih a above
      by_cases last : a = c
      · exact List.mem_append.2 (.inr (List.mem_singleton.2 last))
      · -- the parent of the node is above the one that the path comes from
        have inner : c ≠ g.entry := by
          rintro rfl
          exact last (sweeping.rooted.eq_root_of_above above)
        have here : g.Reaches g.entry b := ⟨passed, path⟩
        have next := here.trans (.step edge (.refl g c))
        obtain ⟨p, found, below⟩ := fixed c (mem_reversePostorder.2 next) inner
        have upper := below b ((coherent b c).2 edge) (placed b here)
        exact List.mem_append.2 (.inl (ih ((above.parent last found).trans upper)))
  · exact sweeping.above_of_dominates (placed n reached)

/-- The tree of dominators tells dominance, and nothing of nodes that cannot be reached. -/
theorem isAbove_dominators (coherent : g.Coherent) {a b : ν} :
    g.dominators.isAbove a b = true ↔ a = b ∨ g.Dominates a b := by
  obtain ⟨sweeping, -⟩ := dominators_settled coherent
  rw [sweeping.rooted.isAbove_iff]
  by_cases reached : g.Reaches g.entry b
  · rw [above_dominators_iff coherent reached]
    constructor
    · exact .inr
    · rintro (rfl | dominates)
      · exact .refl reached
      · exact dominates
  · constructor
    · intro above
      rcases Relation.ReflTransGen.cases_head above with same | ⟨p, found, -⟩
      · exact .inl same.symm
      · exact absurd (sweeping.reached (ParentMap.contains_of_get? found)) reached
    · rintro (rfl | dominates)
      · exact .refl _ a
      · exact absurd dominates.1 reached

end Sweeps

end Graph

end ErrorContracts
