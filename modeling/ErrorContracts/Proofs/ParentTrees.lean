import ErrorContracts.Flow.Dominators
import Mathlib.Data.List.Basic
import Mathlib.Data.Nat.Basic
import Mathlib.Logic.Relation
import Mathlib.Order.Basic

/-!
# Trees of parents

A map from nodes to parents is a tree if parents come earlier in some order of the nodes than their
children do.  Then the nodes above a node form a chain, the list of ancestors is complete, and moving
up the later of two nodes finds their nearest common ancestor.
-/

namespace ErrorContracts.ParentMap

open Relation (ReflTransGen)

variable {ν : Type} [Ord ν] [DecidableEq ν]

/-- `a` is `n` or one of its ancestors. -/
def Above (parents : ParentMap ν) (a n : ν) : Prop :=
  ReflTransGen (fun n p => parents.get? n = some p) n a

/-- The map is a tree with the given root, and parents come first in the order. -/
structure Rooted (parents : ParentMap ν) (order : List ν) (root : ν) : Prop where
  first : order.idxOf root = 0
  own : parents.get? root = some root
  listed : ∀ n, parents.contains n = true → n ∈ order
  placed : ∀ n p, parents.get? n = some p → parents.contains p = true
  lower : ∀ n p, parents.get? n = some p → n ≠ root → order.idxOf p < order.idxOf n

theorem contains_of_get? {parents : ParentMap ν} {n p : ν} (found : parents.get? n = some p) :
    parents.contains n = true := by
  rw [SortedMap.contains, found]
  rfl

theorem exists_get? {parents : ParentMap ν} {n : ν} (placed : parents.contains n = true) :
    ∃ p, parents.get? n = some p :=
  Option.isSome_iff_exists.1 placed

namespace Above

variable {parents : ParentMap ν} {a b n p : ν}

theorem refl (parents : ParentMap ν) (n : ν) : parents.Above n n := ReflTransGen.refl

theorem trans (upper : parents.Above a b) (lower : parents.Above b n) : parents.Above a n :=
  ReflTransGen.trans lower upper

theorem of_parent (found : parents.get? n = some p) (above : parents.Above a p) :
    parents.Above a n :=
  ReflTransGen.head found above

/-- What is above a node and not the node is above its parent. -/
theorem parent (above : parents.Above a n) (other : a ≠ n) (found : parents.get? n = some p) :
    parents.Above a p := by
  rcases ReflTransGen.cases_head above with same | ⟨q, edge, rest⟩
  · exact absurd same.symm other
  · rw [found] at edge
    cases edge
    exact rest

/-- Nothing else is above a node that has no parent but itself. -/
theorem eq_of_top (top : ∀ p, parents.get? n = some p → p = n) (above : parents.Above a n) :
    a = n := by
  induction above with
  | refl => rfl
  | tail _ edge ih =>
      rw [ih] at edge
      exact top _ edge

/-- The nodes above a node form a chain. -/
theorem total (first : parents.Above a n) (second : parents.Above b n) :
    parents.Above a b ∨ parents.Above b a := by
  refine ReflTransGen.total_of_right_unique ?_ second first
  intro n p q hp hq
  exact Option.some.inj (hp.symm.trans hq)

end Above

namespace Rooted

variable {parents : ParentMap ν} {order : List ν} {root a b n p : ν}
  (rooted : parents.Rooted order root)

include rooted

theorem eq_of_idxOf_eq (placed : parents.contains a = true) (same : order.idxOf a = order.idxOf b) :
    a = b :=
  (List.idxOf_inj (rooted.listed a placed)).1 same

theorem eq_or_idxOf_lt (above : parents.Above a n) : a = n ∨ order.idxOf a < order.idxOf n := by
  induction above using ReflTransGen.head_induction_on with
  | refl => exact .inl rfl
  | @head n p edge _ ih =>
      by_cases top : n = root
      · rw [top, rooted.own] at edge
        cases edge
        rw [top]
        exact ih
      · have lower := rooted.lower n p edge top
        rcases ih with rfl | earlier
        · exact .inr lower
        · exact .inr (earlier.trans lower)

theorem idxOf_le (above : parents.Above a n) : order.idxOf a ≤ order.idxOf n := by
  rcases rooted.eq_or_idxOf_lt above with rfl | earlier
  · exact le_rfl
  · exact earlier.le

theorem contains_of_above (above : parents.Above a n) (placed : parents.contains n = true) :
    parents.contains a = true := by
  induction above with
  | refl => exact placed
  | tail _ edge ih => exact rooted.placed _ _ edge

theorem antisymm (upper : parents.Above a b) (lower : parents.Above b a) : a = b := by
  rcases rooted.eq_or_idxOf_lt upper with same | earlier
  · exact same
  · exact absurd (rooted.idxOf_le lower) (not_le_of_gt earlier)

/-- Of two nodes above a node, the earlier is above the later. -/
theorem above_of_idxOf_le (first : parents.Above a n) (second : parents.Above b n)
    (earlier : order.idxOf a ≤ order.idxOf b) : parents.Above a b := by
  rcases first.total second with above | below
  · exact above
  · rcases rooted.eq_or_idxOf_lt below with rfl | later
    · exact .refl parents b
    · exact absurd earlier (not_le_of_gt later)

theorem eq_root_of_above (above : parents.Above a root) : a = root := by
  rcases rooted.eq_or_idxOf_lt above with same | earlier
  · exact same
  · rw [rooted.first] at earlier
    cases earlier

/-! ## Ancestors -/

theorem idxOf_lt_of_ne (found : parents.get? n = some p) (other : p ≠ n) :
    order.idxOf p < order.idxOf n := by
  apply rooted.lower n p found
  rintro rfl
  rw [rooted.own] at found
  exact other (Option.some.inj found).symm

/-- The proper ancestors of a node are its parent and the proper ancestors of that. -/
theorem ne_and_above_iff (found : parents.get? n = some p) (other : p ≠ n) :
    a ≠ n ∧ parents.Above a n ↔ a = p ∨ a ≠ p ∧ parents.Above a p := by
  constructor
  · rintro ⟨different, above⟩
    by_cases same : a = p
    · exact .inl same
    · exact .inr ⟨same, above.parent different found⟩
  · rintro (rfl | ⟨-, above⟩)
    · exact ⟨other, .of_parent found (.refl parents a)⟩
    · refine ⟨?_, .of_parent found above⟩
      rintro rfl
      exact absurd (rooted.idxOf_le above) (not_le_of_gt (rooted.idxOf_lt_of_ne found other))

theorem mem_trail_iff {fresh : List ν}
    (complete : ∀ k, parents.contains k = true → order.idxOf k ≤ order.idxOf n → k ∈ fresh) :
    a ∈ trail (fun n => (parents.get? n).filter fun parent => parent ≠ n) fresh n ↔
      a ≠ n ∧ parents.Above a n := by
  induction length : order.idxOf n using Nat.strong_induction_on generalizing n fresh with
  | _ _ ih =>
      subst length
      cases found : (parents.get? n).filter fun parent => decide (parent ≠ n) with
      | none =>
          have top : ∀ p, parents.get? n = some p → p = n := by
            simpa [Option.filter_eq_none_iff] using found
          have none : ¬(a ≠ n ∧ parents.Above a n) := by
            rintro ⟨other, above⟩
            exact other (above.eq_of_top top)
          rw [trail, found]
          split <;> simp [none]
      | some p =>
          obtain ⟨found', other⟩ : parents.get? n = some p ∧ p ≠ n := by
            simpa [Option.filter_eq_some_iff] using found
          have lower := rooted.idxOf_lt_of_ne found' other
          have isFresh : n ∈ fresh := complete n (contains_of_get? found') le_rfl
          have complete' : ∀ k, parents.contains k = true → order.idxOf k ≤ order.idxOf p →
              k ∈ fresh.erase n := by
            intro k placed early
            refine (List.mem_erase_of_ne ?_).2 (complete k placed (early.trans lower.le))
            rintro rfl
            exact absurd early (not_le_of_gt lower)
          rw [trail, dif_pos isFresh, found, rooted.ne_and_above_iff found' other, List.mem_cons,
            ih _ lower complete' rfl]

theorem mem_ancestors_iff : a ∈ parents.ancestors n ↔ a ≠ n ∧ parents.Above a n :=
  rooted.mem_trail_iff fun _ placed _ => SortedMap.contains_iff.1 placed

/-- On the way up the nodes come earlier and earlier. -/
theorem pairwise_ancestors (n : ν) :
    (n :: parents.ancestors n).Pairwise fun k l => order.idxOf l < order.idxOf k := by
  unfold ancestors
  generalize parents.keys = fresh
  fun_induction trail (fun n => (parents.get? n).filter fun parent => parent ≠ n) fresh n with
  | case1 fresh n _ p found ih =>
      obtain ⟨found, own⟩ := Option.filter_eq_some_iff.1 found
      have other : n ≠ root := by
        rintro rfl
        rw [rooted.own] at found
        cases found
        simp at own
      have lower := rooted.lower n p found other
      refine List.pairwise_cons.2 ⟨fun k later => ?_, ih⟩
      rcases List.mem_cons.1 later with rfl | above
      · exact lower
      · exact ((List.pairwise_cons.1 ih).1 k above).trans lower
  | case2 => exact List.pairwise_singleton _ _
  | case3 => exact List.pairwise_singleton _ _

theorem isAbove_iff : parents.isAbove a n = true ↔ parents.Above a n := by
  rw [isAbove, Bool.or_eq_true, decide_eq_true_eq, decide_eq_true_eq, rooted.mem_ancestors_iff]
  constructor
  · rintro (rfl | ⟨-, above⟩)
    · exact .refl parents a
    · exact above
  · intro above
    by_cases same : a = n
    · exact .inl same
    · exact .inr ⟨same, above⟩

/-! ## Nearest common ancestors -/

/-- The later of two nodes has a parent that comes before it. -/
theorem get?_of_later (placed : parents.contains n = true) (later : order.idxOf b < order.idxOf n) :
    parents.get? n = some (parents.getD n n) ∧ order.idxOf (parents.getD n n) < order.idxOf n := by
  obtain ⟨p, found⟩ := exists_get? placed
  have other : n ≠ root := by
    rintro rfl
    rw [rooted.first] at later
    cases later
  rw [SortedMap.getD, found]
  exact ⟨rfl, rooted.lower n p found other⟩

theorem later_of_not_later (placed : parents.contains a = true) (other : a ≠ b)
    (notLater : ¬order.idxOf b < order.idxOf a) : order.idxOf a < order.idxOf b := by
  refine lt_of_le_of_ne (not_lt.1 notLater) fun same => other ?_
  exact rooted.eq_of_idxOf_eq placed same

/-- The meet of two nodes is above both, and below all nodes that are. -/
theorem meet (left : parents.contains a = true) (right : parents.contains b = true) :
    parents.Above (parents.meet order.idxOf a b) a ∧
      parents.Above (parents.meet order.idxOf a b) b ∧
      ∀ c, parents.Above c a → parents.Above c b →
        parents.Above c (parents.meet order.idxOf a b) := by
  fun_induction parents.meet order.idxOf a b with
  | case1 a => exact ⟨.refl parents a, .refl parents a, fun c above _ => above⟩
  | case2 a b other later up lower ih =>
      obtain ⟨found, -⟩ := rooted.get?_of_later left later
      obtain ⟨first, second, nearest⟩ := ih (rooted.placed a _ found) right
      refine ⟨.of_parent found first, second, fun c above above' => ?_⟩
      -- a common ancestor comes no later than `b`, so it is not `a`
      have different : c ≠ a := by
        rintro rfl
        exact absurd (rooted.idxOf_le above') (not_le_of_gt later)
      exact nearest c (above.parent different found) above'
  | case3 a b other later up stuck =>
      exact absurd (rooted.get?_of_later left later).2 stuck
  | case4 a b other notLater up lower ih =>
      have later := rooted.later_of_not_later left other notLater
      obtain ⟨found, -⟩ := rooted.get?_of_later right later
      obtain ⟨first, second, nearest⟩ := ih left (rooted.placed b _ found)
      refine ⟨first, .of_parent found second, fun c above above' => ?_⟩
      have different : c ≠ b := by
        rintro rfl
        exact absurd (rooted.idxOf_le above) (not_le_of_gt later)
      exact nearest c above (above'.parent different found)
  | case5 a b other notLater up stuck =>
      exact absurd (rooted.get?_of_later right (rooted.later_of_not_later left other notLater)).2 stuck

/-- The same for the meet of a list of nodes. -/
theorem foldl_meet {rest : List ν} (left : parents.contains p = true)
    (others : ∀ q ∈ rest, parents.contains q = true) :
    (∀ q ∈ p :: rest, parents.Above
        (rest.foldl (fun found q => parents.meet order.idxOf q found) p) q) ∧
      ∀ c, (∀ q ∈ p :: rest, parents.Above c q) →
        parents.Above c (rest.foldl (fun found q => parents.meet order.idxOf q found) p) := by
  induction rest generalizing p with
  | nil =>
      constructor
      · intro q hq
        rw [List.mem_singleton.1 hq]
        exact .refl parents p
      · exact fun c above => above p List.mem_cons_self
  | cons r rest ih =>
      obtain ⟨right, others⟩ := List.forall_mem_cons.1 others
      obtain ⟨upper, upper', nearest⟩ := rooted.meet right left
      obtain ⟨below, nearest'⟩ := ih (rooted.contains_of_above upper right) others
      obtain ⟨met, below⟩ := List.forall_mem_cons.1 below
      constructor
      · intro q hq
        rcases List.mem_cons.1 hq with rfl | hq
        · exact met.trans upper'
        · rcases List.mem_cons.1 hq with rfl | hq
          · exact met.trans upper
          · exact below q hq
      · intro c above
        obtain ⟨first, above⟩ := List.forall_mem_cons.1 above
        obtain ⟨second, above⟩ := List.forall_mem_cons.1 above
        exact nearest' c (List.forall_mem_cons.2 ⟨nearest c second first, above⟩)

end Rooted

/-! ## A change of one parent -/

/-- The two maps differ at most in what the parent of `n` is. -/
def AgreeOff (n : ν) (parents others : ParentMap ν) : Prop :=
  ∀ k, k ≠ n → parents.get? k = others.get? k

section

variable {parents others : ParentMap ν} {order : List ν} {root a n k : ν}

theorem AgreeOff.symm (agree : AgreeOff n parents others) : AgreeOff n others parents :=
  fun k other => (agree k other).symm

/-- The way up to a node that comes no earlier than `n` does not depend on the parent of `n`. -/
theorem AgreeOff.above_of_le (agree : AgreeOff n parents others)
    (rooted : parents.Rooted order root) (late : order.idxOf n ≤ order.idxOf a)
    (above : parents.Above a k) : others.Above a k := by
  induction above using ReflTransGen.head_induction_on with
  | refl => exact .refl others a
  | @head k p edge rest ih =>
      by_cases same : k = n
      · subst same
        have above : parents.Above a k := .of_parent edge rest
        rcases rooted.eq_or_idxOf_lt above with rfl | earlier
        · exact .refl others a
        · exact absurd late (not_le_of_gt earlier)
      · exact .of_parent (agree k same ▸ edge) ih

/-- Nor does the way up from a node that comes before `n`. -/
theorem AgreeOff.above_of_lt (agree : AgreeOff n parents others)
    (rooted : parents.Rooted order root) (early : order.idxOf k < order.idxOf n)
    (above : parents.Above a k) : others.Above a k := by
  induction above using ReflTransGen.head_induction_on with
  | refl => exact .refl others a
  | @head k p edge rest ih =>
      have different : k ≠ n := by
        rintro rfl
        exact lt_irrefl _ early
      have step : parents.Above p k := .of_parent edge (.refl parents p)
      exact .of_parent (agree k different ▸ edge) (ih ((rooted.idxOf_le step).trans_lt early))

/-- Nor does the way up from a node that `n` is not above. -/
theorem AgreeOff.above_of_apart (agree : AgreeOff n parents others) (apart : ¬parents.Above n k)
    (above : parents.Above a k) : others.Above a k := by
  induction above using ReflTransGen.head_induction_on with
  | refl => exact .refl others a
  | @head k p edge rest ih =>
      have different : k ≠ n := by
        rintro rfl
        exact apart (.refl parents k)
      exact .of_parent (agree k different ▸ edge) (ih fun above => apart (.of_parent edge above))

/-- If the new parent of `n` was above `n` before, nothing new has come above any node. -/
theorem AgreeOff.above_of_raised (agree : AgreeOff n others parents)
    (raised : ∀ p, others.get? n = some p → parents.Above p n) (above : others.Above a k) :
    parents.Above a k := by
  induction above using ReflTransGen.head_induction_on with
  | refl => exact .refl parents a
  | @head k p edge _ ih =>
      by_cases same : k = n
      · exact ih.trans (same ▸ raised p (same ▸ edge))
      · exact .of_parent (agree k same ▸ edge) ih

end

end ErrorContracts.ParentMap
