/-!
# Finite sets in ascending order

A finite set is kept as the list of its elements in strictly ascending order.  A set then has one
representation, so two sets with the same elements are equal, and reading a set out in order costs
nothing.
-/

namespace ErrorContracts

open Std (TransOrd LawfulEqOrd)

/-- Strictly ascending in the order of the element type. -/
def Ascending {α : Type} [Ord α] (elements : List α) : Prop :=
  elements.Pairwise fun a b => compare a b = .lt

namespace Ascending

variable {α : Type} [Ord α]

theorem nil : Ascending ([] : List α) := List.Pairwise.nil

theorem cons_iff {a : α} {l : List α} :
    Ascending (a :: l) ↔ (∀ b ∈ l, compare a b = .lt) ∧ Ascending l :=
  List.pairwise_cons

theorem tail {a : α} {l : List α} (h : Ascending (a :: l)) : Ascending l :=
  (cons_iff.1 h).2

theorem nodup [TransOrd α] {l : List α} (h : Ascending l) : l.Nodup := by
  apply List.Pairwise.imp ?_ h
  rintro a b below rfl
  simp [Std.ReflCmp.compare_self] at below

theorem filter {l : List α} (h : Ascending l) (p : α → Bool) : Ascending (l.filter p) :=
  List.Pairwise.filter p h

/-- Puts an element at its place; one that is already present leaves the list as it is. -/
def place (a : α) : List α → List α
  | [] => [a]
  | b :: l =>
      match compare a b with
      | .lt => a :: b :: l
      | .eq => b :: l
      | .gt => b :: place a l

theorem mem_place [LawfulEqOrd α] {a c : α} {l : List α} :
    c ∈ place a l ↔ c = a ∨ c ∈ l := by
  induction l with
  | nil => simp [place]
  | cons b l ih =>
      rw [place]
      split
      · simp
      · rename_i h
        have same : a = b := Std.compare_eq_iff_eq.1 h
        subst same
        simp
      · simp only [List.mem_cons, ih]
        grind

theorem place_ascending [TransOrd α] [LawfulEqOrd α] {a : α} {l : List α}
    (h : Ascending l) : Ascending (place a l) := by
  induction l with
  | nil => exact cons_iff.2 ⟨by simp, nil⟩
  | cons b l ih =>
      obtain ⟨below, rest⟩ := cons_iff.1 h
      rw [place]
      split
      · rename_i lower
        refine cons_iff.2 ⟨?_, h⟩
        intro c hc
        rcases List.mem_cons.1 hc with rfl | hc
        · exact lower
        · exact Std.TransCmp.lt_trans lower (below c hc)
      · exact h
      · rename_i upper
        refine cons_iff.2 ⟨?_, ih rest⟩
        intro c hc
        rcases mem_place.1 hc with rfl | hc
        · exact Std.OrientedCmp.gt_iff_lt.1 upper
        · exact below c hc

/-- An ascending list is determined by its elements. -/
theorem eq_of_mem_iff [TransOrd α] [LawfulEqOrd α] {l k : List α}
    (hl : Ascending l) (hk : Ascending k) (h : ∀ a, a ∈ l ↔ a ∈ k) : l = k := by
  induction l generalizing k with
  | nil =>
      cases k with
      | nil => rfl
      | cons b k => exact absurd ((h b).2 (by simp)) (by simp)
  | cons a l ih =>
      cases k with
      | nil => exact absurd ((h a).1 (by simp)) (by simp)
      | cons b k =>
          obtain ⟨below, lrest⟩ := cons_iff.1 hl
          obtain ⟨above, krest⟩ := cons_iff.1 hk
          have irrefl : ∀ c : α, compare c c ≠ .lt := fun c hc => by
            simp [Std.ReflCmp.compare_self] at hc
          have heads : a = b := by
            rcases List.mem_cons.1 ((h a).1 (by simp)) with same | ha
            · exact same
            rcases List.mem_cons.1 ((h b).2 (by simp)) with same | hb
            · exact same.symm
            exact absurd (Std.TransCmp.lt_trans (below b hb) (above a ha)) (irrefl a)
          subst heads
          congr 1
          refine ih lrest krest fun c => ?_
          constructor
          · intro hc
            rcases List.mem_cons.1 ((h c).1 (by simp [hc])) with same | hc'
            · exact absurd (same ▸ below c hc) (irrefl a)
            · exact hc'
          · intro hc
            rcases List.mem_cons.1 ((h c).2 (by simp [hc])) with same | hc'
            · exact absurd (same ▸ above c hc) (irrefl a)
            · exact hc'

end Ascending

/-- A finite set, held as its elements in ascending order. -/
structure SortedSet (α : Type) [Ord α] where
  toList : List α
  ascending : Ascending toList

namespace SortedSet

variable {α : Type} [Ord α]

instance [DecidableEq α] : DecidableEq (SortedSet α) := fun s t =>
  decidable_of_iff (s.toList = t.toList) (by cases s; cases t; simp)

instance : Membership α (SortedSet α) := ⟨fun s a => a ∈ s.toList⟩

theorem mem_def {s : SortedSet α} {a : α} : a ∈ s ↔ a ∈ s.toList := Iff.rfl

instance [DecidableEq α] (a : α) (s : SortedSet α) : Decidable (a ∈ s) :=
  inferInstanceAs (Decidable (a ∈ s.toList))

@[ext]
theorem ext [TransOrd α] [LawfulEqOrd α] {s t : SortedSet α} (h : ∀ a, a ∈ s ↔ a ∈ t) : s = t := by
  cases s
  cases t
  congr
  exact Ascending.eq_of_mem_iff ‹_› ‹_› h

/-- The set without elements. -/
def empty : SortedSet α := ⟨[], .nil⟩

instance : EmptyCollection (SortedSet α) := ⟨empty⟩

instance : Inhabited (SortedSet α) := ⟨empty⟩

@[simp]
theorem not_mem_empty (a : α) : a ∉ (∅ : SortedSet α) := by
  simp [mem_def, EmptyCollection.emptyCollection, empty]

def isEmpty (s : SortedSet α) : Bool := s.toList.isEmpty

theorem isEmpty_iff {s : SortedSet α} : s.isEmpty = true ↔ ∀ a, a ∉ s := by
  simp [isEmpty, mem_def, List.eq_nil_iff_forall_not_mem]

/-- The elements that satisfy a test. -/
def filter (s : SortedSet α) (p : α → Bool) : SortedSet α :=
  ⟨s.toList.filter p, s.ascending.filter p⟩

@[simp]
theorem mem_filter {s : SortedSet α} {p : α → Bool} {a : α} :
    a ∈ s.filter p ↔ a ∈ s ∧ p a = true := by
  simp [mem_def, filter]

/-- No element is in both sets. -/
def disjoint [DecidableEq α] (s t : SortedSet α) : Bool :=
  s.toList.all fun a => a ∉ t

theorem disjoint_iff [DecidableEq α] {s t : SortedSet α} :
    s.disjoint t = true ↔ ∀ a ∈ s, a ∉ t := by
  simp [disjoint, mem_def]

variable [TransOrd α] [LawfulEqOrd α]

def insert (s : SortedSet α) (a : α) : SortedSet α :=
  ⟨Ascending.place a s.toList, Ascending.place_ascending s.ascending⟩

@[simp]
theorem mem_insert {s : SortedSet α} {a b : α} : b ∈ s.insert a ↔ b = a ∨ b ∈ s :=
  Ascending.mem_place

def singleton (a : α) : SortedSet α := (∅ : SortedSet α).insert a

@[simp]
theorem mem_singleton {a b : α} : b ∈ singleton a ↔ b = a := by
  simp [singleton]

/-- Adds every element of a list. -/
def insertAll (s : SortedSet α) (l : List α) : SortedSet α := l.foldl insert s

@[simp]
theorem mem_insertAll {s : SortedSet α} {l : List α} {b : α} :
    b ∈ s.insertAll l ↔ b ∈ s ∨ b ∈ l := by
  induction l generalizing s with
  | nil => simp [insertAll]
  | cons a l ih =>
      have step : s.insertAll (a :: l) = (s.insert a).insertAll l := rfl
      rw [step, ih, mem_insert]
      grind

/-- The elements of a list, in ascending order and without repetition. -/
def ofList (l : List α) : SortedSet α := (∅ : SortedSet α).insertAll l

@[simp]
theorem mem_ofList {l : List α} {b : α} : b ∈ ofList l ↔ b ∈ l := by
  simp [ofList]

def union (s t : SortedSet α) : SortedSet α := s.insertAll t.toList

instance : Union (SortedSet α) := ⟨union⟩

@[simp]
theorem mem_union {s t : SortedSet α} {b : α} : b ∈ s ∪ t ↔ b ∈ s ∨ b ∈ t :=
  mem_insertAll

end SortedSet

end ErrorContracts
