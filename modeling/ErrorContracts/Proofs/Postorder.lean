import ErrorContracts.Flow.Graph
import Mathlib.Data.List.Chain
import Mathlib.Data.List.Nodup
import Mathlib.Logic.Relation

/-!
# Reverse postorder

A depth-first walk from the entry of a graph finishes exactly the nodes that can be reached, each of
them once.  A node other than the entry is finished before the node that the walk has come from, so
in reverse postorder the entry stands first and every other node has a predecessor in front of it.
-/

namespace ErrorContracts

section Walks

variable {α : Type}

/--
The state of a depth-first walk from `root` through the elements `all`: the frames are a chain of
successors up from the root, all that has been tried or finished is no longer fresh, and a finished
element comes from one that is finished later or still has a frame.
-/
structure Walk (next : α → List α) (root : α) (all fresh : List α) (frames : List (α × List α))
    (finished : List α) : Prop where
  distinct : fresh.Nodup
  once : (frames.map Prod.fst ++ finished).Nodup
  struck : ∀ x ∈ frames.map Prod.fst ++ finished, x ∉ fresh
  covered : ∀ x ∈ all, x ∉ fresh → x ∈ frames.map Prod.fst ++ finished
  reached : ∀ x ∈ frames.map Prod.fst ++ finished,
    Relation.ReflTransGen (fun a b => b ∈ next a) root x
  linked : (frames.map Prod.fst).IsChain fun b a => b ∈ next a
  bottom : (frames.map Prod.fst).getLast? = some root ∨ frames = [] ∧ root ∈ finished
  pending : ∀ frame ∈ frames, ∀ y ∈ frame.2, y ∈ next frame.1
  tried : ∀ frame ∈ frames, ∀ y ∈ next frame.1, y ∈ frame.2 ∨ y ∉ fresh
  closed : ∀ x ∈ finished, ∀ y ∈ next x, y ∉ fresh
  behind : ∀ x ∈ finished, x = root ∨
    ∃ p, x ∈ next p ∧ (p ∈ frames.map Prod.fst ∨ [p, x].Sublist finished)

namespace Walk

variable {next : α → List α} {root a b : α} {all fresh finished untried : List α}
  {rest frames : List (α × List α)}

/-- The frame on top is left when all its successors have been tried. -/
theorem leave (walk : Walk next root all fresh ((a, []) :: rest) finished) :
    Walk next root all fresh rest (a :: finished) := by
  have moved : ∀ x, x ∈ rest.map Prod.fst ++ a :: finished ↔
      x ∈ ((a, []) :: rest).map Prod.fst ++ finished := by
    intro x
    simp [or_left_comm]
  constructor
  · exact walk.distinct
  · have once := walk.once
    rw [List.map_cons, List.cons_append] at once
    exact (List.perm_middle.nodup_iff).2 once
  · exact fun x hx => walk.struck x ((moved x).1 hx)
  · exact fun x hx old => (moved x).2 (walk.covered x hx old)
  · exact fun x hx => walk.reached x ((moved x).1 hx)
  · exact walk.linked.tail
  · have bottom := walk.bottom
    cases rest with
    | nil =>
        have same : a = root := by simpa using bottom
        exact .inr ⟨rfl, by simp [same]⟩
    | cons frame rest => exact .inl (by simpa using bottom)
  · exact fun frame hf => walk.pending frame (List.mem_cons_of_mem _ hf)
  · exact fun frame hf => walk.tried frame (List.mem_cons_of_mem _ hf)
  · intro x hx y hy
    rcases List.mem_cons.1 hx with rfl | hx
    · simpa using walk.tried (x, []) List.mem_cons_self y hy
    · exact walk.closed x hx y hy
  · intro x hx
    rcases List.mem_cons.1 hx with rfl | inside
    · -- the element that is left comes from the frame below, if there is one
      cases rest with
      | nil =>
          have bottom := walk.bottom
          exact .inl (by simpa using bottom)
      | cons frame rest =>
          have linked := walk.linked
          simp only [List.map_cons, List.isChain_cons_cons] at linked
          exact .inr ⟨frame.1, linked.1, .inl (by simp)⟩
    · rcases walk.behind x inside with same | ⟨p, edge, onFrame | earlier⟩
      · exact .inl same
      · right
        rcases List.mem_cons.1 onFrame with rfl | onFrame
        · exact ⟨_, edge, .inr ((List.singleton_sublist.2 inside).cons_cons _)⟩
        · exact ⟨p, edge, .inl onFrame⟩
      · exact .inr ⟨p, edge, .inr (earlier.cons a)⟩

/-- A successor that has been met before is passed over. -/
theorem skip (walk : Walk next root all fresh ((a, b :: untried) :: rest) finished)
    (old : b ∉ fresh) : Walk next root all fresh ((a, untried) :: rest) finished where
  distinct := walk.distinct
  once := walk.once
  struck := walk.struck
  covered := walk.covered
  reached := walk.reached
  linked := walk.linked
  bottom := by
    have bottom := walk.bottom
    exact .inl (by simpa using bottom)
  pending frame hf := by
    rcases List.mem_cons.1 hf with rfl | hf
    · exact fun y hy => walk.pending _ List.mem_cons_self y (List.mem_cons_of_mem b hy)
    · exact walk.pending frame (List.mem_cons_of_mem _ hf)
  tried frame hf y hy := by
    rcases List.mem_cons.1 hf with rfl | hf
    · rcases walk.tried _ List.mem_cons_self y hy with left | stale
      · rcases List.mem_cons.1 left with rfl | left
        · exact .inr old
        · exact .inl left
      · exact .inr stale
    · exact walk.tried frame (List.mem_cons_of_mem _ hf) y hy
  closed := walk.closed
  behind := walk.behind

variable [DecidableEq α]

/-- A successor that is fresh gets a frame of its own. -/
theorem enter (walk : Walk next root all fresh ((a, b :: untried) :: rest) finished)
    (isFresh : b ∈ fresh) :
    Walk next root all (fresh.erase b) ((b, next b) :: (a, untried) :: rest) finished := by
  have edge : b ∈ next a := walk.pending _ List.mem_cons_self b List.mem_cons_self
  have stale : ∀ x, x ∉ fresh.erase b ↔ x = b ∨ x ∉ fresh := by
    intro x
    rw [walk.distinct.mem_erase_iff]
    tauto
  have new : b ∉ a :: rest.map Prod.fst ++ finished := fun old => walk.struck b old isFresh
  constructor
  · exact walk.distinct.erase b
  · exact List.nodup_cons.2 ⟨new, walk.once⟩
  · intro x hx
    rcases List.mem_cons.1 hx with rfl | hx
    · exact (stale x).2 (.inl rfl)
    · exact (stale x).2 (.inr (walk.struck x hx))
  · intro x hx old
    rcases (stale x).1 old with rfl | old
    · exact List.mem_cons_self
    · exact List.mem_cons_of_mem b (walk.covered x hx old)
  · intro x hx
    rcases List.mem_cons.1 hx with rfl | hx
    · exact (walk.reached a List.mem_cons_self).tail edge
    · exact walk.reached x hx
  · exact .cons_cons edge walk.linked
  · have bottom := walk.bottom
    exact .inl (by simpa using bottom)
  · intro frame hf
    rcases List.mem_cons.1 hf with rfl | hf
    · exact fun y hy => hy
    · rcases List.mem_cons.1 hf with rfl | hf
      · exact fun y hy => walk.pending _ List.mem_cons_self y (List.mem_cons_of_mem b hy)
      · exact walk.pending frame (List.mem_cons_of_mem _ hf)
  · intro frame hf y hy
    rw [stale]
    rcases List.mem_cons.1 hf with rfl | hf
    · exact .inl hy
    · rcases List.mem_cons.1 hf with rfl | hf
      · rcases walk.tried _ List.mem_cons_self y hy with left | old
        · rcases List.mem_cons.1 left with same | left
          · exact .inr (.inl same)
          · exact .inl left
        · exact .inr (.inr old)
      · exact (walk.tried frame (List.mem_cons_of_mem _ hf) y hy).imp_right .inr
  · intro x hx y hy
    exact (stale y).2 (.inr (walk.closed x hx y hy))
  · intro x hx
    refine (walk.behind x hx).imp_right ?_
    rintro ⟨p, edge, onFrame | earlier⟩
    · exact ⟨p, edge, .inl (List.mem_cons_of_mem b onFrame)⟩
    · exact ⟨p, edge, .inr earlier⟩

/-- The walk goes on until no frame is left. -/
theorem finishing (walk : Walk next root all fresh frames finished) :
    ∃ fresh', Walk next root all fresh' [] (finishing next fresh frames finished) := by
  fun_induction ErrorContracts.finishing next fresh frames finished with
  | case1 fresh finished => exact ⟨fresh, walk⟩
  | case2 fresh finished a rest ih => exact ih walk.leave
  | case3 fresh finished a b untried rest isFresh ih => exact ih (walk.enter isFresh)
  | case4 fresh finished a b untried rest old ih => exact ih (walk.skip old)

end Walk

end Walks

theorem nodup_eraseDups {α : Type} [DecidableEq α] (l : List α) : l.eraseDups.Nodup := by
  induction length : l.length using Nat.strong_induction_on generalizing l with
  | _ n ih =>
      cases l with
      | nil => simp
      | cons a l =>
          rw [List.eraseDups_cons]
          refine List.nodup_cons.2 ⟨by simp, ih _ ?_ _ rfl⟩
          have shorter := List.length_filter_le (fun b => !b == a) l
          simp only [List.length_cons] at length
          omega

theorem idxOf_lt_of_sublist {α : Type} [DecidableEq α] {l : List α} {a b : α} (nodup : l.Nodup)
    (sublist : [a, b].Sublist l) : l.idxOf a < l.idxOf b := by
  induction l with
  | nil => cases sublist
  | cons c l ih =>
      obtain ⟨new, nodup⟩ := List.nodup_cons.1 nodup
      have later : ∀ x ∈ l, c ≠ x := by
        rintro x hx rfl
        exact new hx
      cases sublist with
      | cons _ sublist =>
          have members := sublist.subset
          rw [List.idxOf_cons_ne _ (later a (members (by simp))),
            List.idxOf_cons_ne _ (later b (members (by simp)))]
          exact Nat.succ_lt_succ (ih nodup sublist)
      | cons_cons _ sublist =>
          rw [List.idxOf_cons_self, List.idxOf_cons_ne _ (later b (sublist.subset (by simp)))]
          exact Nat.succ_pos _

namespace Graph

variable {ν : Type} [DecidableEq ν] {g : Graph ν}

theorem reaches_iff {a b : ν} :
    g.Reaches a b ↔ Relation.ReflTransGen (fun a b => b ∈ g.succs a) a b := by
  constructor
  · rintro ⟨passed, path⟩
    induction path with
    | here => exact .refl
    | step edge _ ih => exact .head edge ih
  · intro way
    induction way using Relation.ReflTransGen.head_induction_on with
    | refl => exact .refl g b
    | head edge _ ih => exact .step edge ih

theorem mem_vertices_of_mem_succs {a b : ν} (edge : b ∈ g.succs a) : b ∈ g.vertices := by
  unfold succs at edge
  cases found : Bindings.find? a g.adjacency with
  | none =>
      rw [found] at edge
      cases edge
  | some targets =>
      rw [found] at edge
      rw [vertices, List.mem_eraseDups]
      refine List.mem_cons_of_mem _ (List.mem_flatMap.2 ⟨_, Bindings.mem_of_find? found, ?_⟩)
      exact List.mem_cons_of_mem a edge

/-- The walk behind the reverse postorder has come to its end. -/
theorem walk_reversePostorder (g : Graph ν) :
    ∃ fresh, Walk g.succs g.entry g.vertices fresh [] g.reversePostorder := by
  have distinct : g.vertices.Nodup := nodup_eraseDups _
  apply Walk.finishing
  constructor
  · exact distinct.erase g.entry
  · simp
  · intro x hx
    have same : x = g.entry := by simpa using hx
    rw [same]
    exact distinct.not_mem_erase
  · intro x hx old
    by_contra other
    exact old ((distinct.mem_erase_iff).2 ⟨by simpa using other, hx⟩)
  · intro x hx
    have same : x = g.entry := by simpa using hx
    rw [same]
  · simp
  · simp
  · simp
  · intro frame hf y hy
    rw [List.mem_singleton.1 hf] at hy ⊢
    exact .inl hy
  · intro x hx
    cases hx
  · intro x hx
    cases hx

theorem nodup_reversePostorder (g : Graph ν) : g.reversePostorder.Nodup := by
  obtain ⟨fresh, walk⟩ := g.walk_reversePostorder
  exact walk.once

/-- The nodes in reverse postorder are those that can be reached. -/
theorem mem_reversePostorder {n : ν} : n ∈ g.reversePostorder ↔ g.Reaches g.entry n := by
  obtain ⟨fresh, walk⟩ := g.walk_reversePostorder
  rw [reaches_iff]
  constructor
  · exact walk.reached n
  · intro way
    induction way with
    | refl => simpa using walk.bottom
    | tail _ edge ih =>
        exact walk.covered _ (mem_vertices_of_mem_succs edge) (walk.closed _ ih _ edge)

/-- A node other than the entry has a predecessor in front of it. -/
theorem exists_earlier_pred {n : ν} (listed : n ∈ g.reversePostorder) (inner : n ≠ g.entry) :
    ∃ p ∈ g.reversePostorder, n ∈ g.succs p ∧
      g.reversePostorder.idxOf p < g.reversePostorder.idxOf n := by
  obtain ⟨fresh, walk⟩ := g.walk_reversePostorder
  rcases walk.behind n listed with same | ⟨p, edge, onFrame | earlier⟩
  · exact absurd same inner
  · cases onFrame
  · exact ⟨p, earlier.subset (by simp), edge, idxOf_lt_of_sublist g.nodup_reversePostorder earlier⟩

/-- The entry stands first. -/
theorem idxOf_entry (g : Graph ν) : g.reversePostorder.idxOf g.entry = 0 := by
  have entered : g.entry ∈ g.reversePostorder := mem_reversePostorder.2 (.refl g _)
  cases listed : g.reversePostorder with
  | nil =>
      rw [listed] at entered
      cases entered
  | cons n rest =>
      by_cases same : n = g.entry
      · rw [same, List.idxOf_cons_self]
      · obtain ⟨p, -, -, earlier⟩ := exists_earlier_pred (by simp [listed]) same
        rw [listed, List.idxOf_cons_self] at earlier
        cases earlier

end Graph

end ErrorContracts
