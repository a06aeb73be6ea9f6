import ErrorContracts.Collection.SortedSet
import ErrorContracts.Contract.Action
import ErrorContracts.Contract.Returns
import ErrorContracts.Program.Value

/-!
# Descriptors

A descriptor is one observed way of a function to report an error: the actions on the error path, the
codes returned, and the instructions that justify it.  Descriptors are ordered by their codes, then
by their actions and then by their witnesses.
-/

namespace ErrorContracts

/-- An instruction that justifies a descriptor, with the reason. -/
structure Witness where
  instruction : Handle
  tag : String
  deriving DecidableEq

namespace Witness

def key (w : Witness) : Nat × String := (w.instruction, w.tag)

theorem key_injective {v w : Witness} (h : v.key = w.key) : v = w := by
  cases v
  cases w
  simpa [key] using h

def render (w : Witness) : String := s!"{w.tag} @ %{w.instruction}"

end Witness

structure Descriptor where
  actions : SortedSet Action
  returns : Returns
  witnesses : List Witness
  deriving DecidableEq

namespace Descriptor

attribute [local instance] lexOrd

def key (d : Descriptor) :
    (Nat × List Int) × (List Action × List (Nat × String)) :=
  (d.returns.key, d.actions.toList, d.witnesses.map Witness.key)

theorem key_injective {d e : Descriptor} (h : d.key = e.key) : d = e := by
  cases d with
  | mk actions returns witnesses =>
    cases e with
    | mk actions' returns' witnesses' =>
      simp only [key, Prod.mk.injEq] at h
      obtain ⟨hr, ha, hw⟩ := h
      have actionsEq : actions = actions' := SortedSet.ext fun a => by
        rw [SortedSet.mem_def, SortedSet.mem_def, ha]
      have witnessesEq : witnesses = witnesses' :=
        (List.map_inj_right fun _ _ => Witness.key_injective).1 hw
      rw [actionsEq, witnessesEq, Returns.key_injective hr]

instance : Ord Descriptor := orderBy key

instance : Std.TransOrd Descriptor := orderBy_trans key

instance : Std.LawfulEqOrd Descriptor := orderBy_lawful key key_injective

/-- Descriptors in ascending order, repetitions kept. -/
def sort (ds : List Descriptor) : List Descriptor :=
  ds.mergeSort fun d e => (compare d e).isLE

def isInteger (d : Descriptor) : Bool := d.returns.isInteger

end Descriptor

end ErrorContracts
