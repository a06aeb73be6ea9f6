import ErrorContracts.Collection.Bindings
import ErrorContracts.Collection.SortedSet

/-!
# Finite maps in ascending key order

A finite map is kept as its bindings in strictly ascending order of their keys.  Two maps with the
same bindings are equal, and the bindings come out in key order.
-/

namespace ErrorContracts

open Std (TransOrd LawfulEqOrd)

namespace Bindings

variable {κ ν : Type} [Ord κ]

/-- The keys ascend strictly. -/
def Ordered (bindings : List (κ × ν)) : Prop := Ascending (bindings.map Prod.fst)

/-- Binds a key at its place, in front of an older binding of the same key. -/
def place (k : κ) (v : ν) : List (κ × ν) → List (κ × ν)
  | [] => [(k, v)]
  | (k', v') :: l =>
      match compare k k' with
      | .lt => (k, v) :: (k', v') :: l
      | .eq => (k, v) :: l
      | .gt => (k', v') :: place k v l

theorem keys_place [LawfulEqOrd κ] (k : κ) (v : ν) (l : List (κ × ν)) :
    (place k v l).map Prod.fst = Ascending.place k (l.map Prod.fst) := by
  induction l with
  | nil => rfl
  | cons b l ih =>
      obtain ⟨k', v'⟩ := b
      simp only [place, List.map_cons, Ascending.place]
      cases h : compare k k' with
      | lt => simp
      | eq => simp [Std.compare_eq_iff_eq.1 h]
      | gt => simp [ih]

theorem find?_place [DecidableEq κ] [LawfulEqOrd κ] (k j : κ) (v : ν) (l : List (κ × ν)) :
    find? j (place k v l) = if j = k then some v else find? j l := by
  induction l with
  | nil => rfl
  | cons b l ih =>
      obtain ⟨k', v'⟩ := b
      simp only [place]
      cases h : compare k k' with
      | lt => rfl
      | eq =>
          have same := Std.compare_eq_iff_eq.1 h
          subst same
          grind [find?]
      | gt =>
          have other : k ≠ k' := fun same => by
            simp [same, Std.ReflCmp.compare_self] at h
          grind [find?]

end Bindings

/-- A finite map, held as its bindings in ascending order of their keys. -/
structure SortedMap (κ ν : Type) [Ord κ] where
  toList : List (κ × ν)
  ordered : Bindings.Ordered toList

namespace SortedMap

variable {κ ν : Type} [Ord κ]

instance [DecidableEq κ] [DecidableEq ν] : DecidableEq (SortedMap κ ν) := fun s t =>
  decidable_of_iff (s.toList = t.toList) (by cases s; cases t; simp)

def empty : SortedMap κ ν := ⟨[], .nil⟩

instance : EmptyCollection (SortedMap κ ν) := ⟨empty⟩

instance : Inhabited (SortedMap κ ν) := ⟨empty⟩

def keys (m : SortedMap κ ν) : List κ := m.toList.map Prod.fst

def size (m : SortedMap κ ν) : Nat := m.toList.length

/-- The value bound to a key. -/
def get? [DecidableEq κ] (m : SortedMap κ ν) (k : κ) : Option ν := Bindings.find? k m.toList

def getD [DecidableEq κ] (m : SortedMap κ ν) (k : κ) (fallback : ν) : ν :=
  (m.get? k).getD fallback

def contains [DecidableEq κ] (m : SortedMap κ ν) (k : κ) : Bool := (m.get? k).isSome

@[simp]
theorem get?_empty [DecidableEq κ] (k : κ) : (∅ : SortedMap κ ν).get? k = none := rfl

theorem contains_iff [DecidableEq κ] {m : SortedMap κ ν} {k : κ} :
    m.contains k = true ↔ k ∈ m.keys :=
  Bindings.find?_isSome_iff

variable [TransOrd κ] [LawfulEqOrd κ]

/-- Binds a key, replacing an older binding. -/
def insert (m : SortedMap κ ν) (k : κ) (v : ν) : SortedMap κ ν :=
  ⟨Bindings.place k v m.toList, by
    unfold Bindings.Ordered
    rw [Bindings.keys_place]
    exact Ascending.place_ascending m.ordered⟩

theorem get?_insert [DecidableEq κ] (m : SortedMap κ ν) (k j : κ) (v : ν) :
    (m.insert k v).get? j = if j = k then some v else m.get? j :=
  Bindings.find?_place k j v m.toList

theorem contains_insert [DecidableEq κ] {m : SortedMap κ ν} {k j : κ} {v : ν} :
    (m.insert k v).contains j = true ↔ j = k ∨ m.contains j = true := by
  rw [contains, get?_insert]
  split
  · rename_i same
    simp [same]
  · rename_i other
    simp [other, contains]

theorem getD_insert [DecidableEq κ] (m : SortedMap κ ν) (k j : κ) (v fallback : ν) :
    (m.insert k v).getD j fallback = if j = k then v else m.getD j fallback := by
  unfold getD
  rw [get?_insert]
  split <;> rfl

end SortedMap

end ErrorContracts
