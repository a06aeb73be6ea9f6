import ErrorContracts.Collection.SortedSet

/-!
# Error codes

What a function returns on an error: at least one code, and all codes either integers or constants of
pointer type.  Two such sets merge into their union; where the kinds differ the integer codes win.
-/

namespace ErrorContracts

inductive ReturnKind where
  | integer
  | pointer
  deriving DecidableEq

/-- Why no codes or contract can be made. -/
inductive ContractFault where
  | noCodes (kind : ReturnKind)
  | nothingToUnify
  deriving DecidableEq

def ContractFault.message : ContractFault → String
  | noCodes .integer => "IntegerCodes needs at least one code"
  | noCodes .pointer => "PointerCodes needs at least one code"
  | nothingToUnify => "cannot unify an empty descriptor list"

structure Returns where
  kind : ReturnKind
  codes : SortedSet Int
  nonempty : codes.isEmpty = false
  deriving DecidableEq

namespace Returns

def isInteger (r : Returns) : Bool := r.kind = .integer

theorem exists_code (r : Returns) : ∃ c, c ∈ r.codes := by
  cases listed : r.codes.toList with
  | nil =>
      have nonempty := r.nonempty
      simp [SortedSet.isEmpty, listed] at nonempty
  | cons c rest => exact ⟨c, by simp [SortedSet.mem_def, listed]⟩

def ofSet (kind : ReturnKind) (codes : SortedSet Int) : Except ContractFault Returns :=
  if h : codes.isEmpty = false then .ok ⟨kind, codes, h⟩ else .error (.noCodes kind)

def ofCodes (kind : ReturnKind) (codes : List Int) : Except ContractFault Returns :=
  ofSet kind (SortedSet.ofList codes)

/-- A single code. -/
def single (kind : ReturnKind) (code : Int) : Returns :=
  ⟨kind, SortedSet.singleton code, rfl⟩

/-- The sort key: integer codes first, then the codes in ascending order. -/
def key (r : Returns) : Nat × List Int :=
  (if r.isInteger then 0 else 1, r.codes.toList)

theorem key_injective {r s : Returns} (h : r.key = s.key) : r = s := by
  cases r with
  | mk kind codes nonempty =>
    cases s with
    | mk kind' codes' nonempty' =>
      simp only [key, isInteger, Prod.mk.injEq] at h
      have codesEq : codes = codes' := SortedSet.ext fun a => by
        rw [SortedSet.mem_def, SortedSet.mem_def, h.2]
      subst codesEq
      have kindEq : kind = kind' := by
        cases kind <;> cases kind' <;> simp_all
      subst kindEq
      rfl

theorem isEmpty_union {s t : SortedSet Int} (h : s.isEmpty = false) :
    (s ∪ t).isEmpty = false := by
  cases empty : (s ∪ t).isEmpty with
  | false => rfl
  | true =>
      have none : s.isEmpty = true :=
        SortedSet.isEmpty_iff.2 fun a ha =>
          SortedSet.isEmpty_iff.1 empty a (SortedSet.mem_union.2 (.inl ha))
      rw [h] at none
      exact none.symm

/-- The union of the codes if the kinds agree, and else the integer codes. -/
def merge (r s : Returns) : Returns :=
  match r.kind, s.kind with
  | .integer, .pointer => r
  | .pointer, .integer => s
  | kind, _ => ⟨kind, r.codes ∪ s.codes, isEmpty_union r.nonempty⟩

theorem codes_merge_of_kind_eq {r s : Returns} (h : r.kind = s.kind) :
    (r.merge s).codes = r.codes ∪ s.codes := by
  obtain ⟨kind, codes, nonempty⟩ := r
  obtain ⟨kind', codes', nonempty'⟩ := s
  cases h
  cases kind <;> rfl

end Returns

end ErrorContracts
