/-!
# Association lists

A list of bindings is read from its front.  Assigning to a key keeps the place at which the key was
first bound, so the list remembers in which order its keys came.
-/

namespace ErrorContracts.Bindings

variable {κ ν : Type}

/-- The value of the first binding of a key. -/
def find? [DecidableEq κ] (k : κ) : List (κ × ν) → Option ν
  | [] => none
  | (k', v) :: l => if k = k' then some v else find? k l

theorem find?_isSome_iff [DecidableEq κ] {k : κ} {l : List (κ × ν)} :
    (find? k l).isSome = true ↔ k ∈ l.map Prod.fst := by
  induction l with
  | nil => simp [find?]
  | cons b l ih => grind [find?]

theorem mem_of_find? [DecidableEq κ] {k : κ} {v : ν} {l : List (κ × ν)}
    (found : find? k l = some v) : (k, v) ∈ l := by
  induction l with
  | nil => cases found
  | cons b l ih => grind [find?]

/-- A key that is bound once has the value it is bound to. -/
theorem find?_of_mem [DecidableEq κ] {k : κ} {v : ν} {l : List (κ × ν)}
    (once : (l.map Prod.fst).Nodup) (bound : (k, v) ∈ l) : find? k l = some v := by
  induction l with
  | nil => cases bound
  | cons b l ih =>
      obtain ⟨first, rest⟩ := List.nodup_cons.1 once
      rw [find?]
      rcases List.mem_cons.1 bound with rfl | later
      · exact if_pos rfl
      · have other : k ≠ b.1 := by
          rintro rfl
          exact first (List.mem_map.2 ⟨(b.1, v), later, rfl⟩)
        rw [if_neg other]
        exact ih rest later

theorem find?_append [DecidableEq κ] (k : κ) (l m : List (κ × ν)) :
    find? k (l ++ m) = (find? k l).or (find? k m) := by
  induction l with
  | nil => rfl
  | cons b l ih =>
      rw [List.cons_append, find?, find?, ih]
      split <;> rfl

/-- Rebinds a key at its place, or binds it at the end. -/
def assign [DecidableEq κ] (k : κ) (v : ν) : List (κ × ν) → List (κ × ν)
  | [] => [(k, v)]
  | (k', v') :: l => if k = k' then (k, v) :: l else (k', v') :: assign k v l

theorem find?_assign [DecidableEq κ] (k j : κ) (v : ν) (l : List (κ × ν)) :
    find? j (assign k v l) = if j = k then some v else find? j l := by
  induction l with
  | nil => rfl
  | cons b l ih => grind [find?, assign]

theorem keys_assign [DecidableEq κ] (k : κ) (v : ν) (l : List (κ × ν)) :
    (assign k v l).map Prod.fst =
      if k ∈ l.map Prod.fst then l.map Prod.fst else l.map Prod.fst ++ [k] := by
  induction l with
  | nil => rfl
  | cons b l ih => grind [assign]

/-- The bindings of a list; the last value of a key counts, at the place of its first. -/
def ofList [DecidableEq κ] (l : List (κ × ν)) : List (κ × ν) :=
  l.foldl (fun found (k, v) => assign k v found) []

theorem find?_foldl_assign [DecidableEq κ] (j : κ) (l found : List (κ × ν)) :
    find? j (l.foldl (fun found (k, v) => assign k v found) found) =
      (find? j l.reverse).or (find? j found) := by
  induction l generalizing found with
  | nil => rfl
  | cons b l ih =>
      rw [List.foldl_cons, ih, find?_assign, List.reverse_cons, find?_append, Option.or_assoc]
      congr 1
      by_cases h : j = b.1 <;> simp [find?, h]

theorem find?_ofList [DecidableEq κ] (j : κ) (l : List (κ × ν)) :
    find? j (ofList l) = find? j l.reverse := by
  rw [ofList, find?_foldl_assign]
  exact Option.or_none

end ErrorContracts.Bindings
