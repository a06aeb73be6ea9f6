/-!
# Order by a key

A type is ordered by a key; the order separates its elements if the key does.
-/

namespace ErrorContracts

open Std (TransOrd LawfulEqOrd)

variable {α β : Type} [Ord β]

/-- The order of a type by a key. -/
@[reducible]
def orderBy (key : α → β) : Ord α := ⟨fun a b => compare (key a) (key b)⟩

theorem orderBy_trans [TransOrd β] (key : α → β) : @TransOrd α (orderBy key) :=
  letI := orderBy key
  { eq_swap := fun {a b} => Std.OrientedOrd.eq_swap (a := key a) (b := key b)
    isLE_trans := fun {a b c} => Std.TransOrd.isLE_trans (a := key a) (b := key b) (c := key c) }

theorem orderBy_lawful [LawfulEqOrd β] (key : α → β)
    (injective : ∀ {a b}, key a = key b → a = b) : @LawfulEqOrd α (orderBy key) :=
  letI := orderBy key
  { compare_self := fun {a} => Std.ReflOrd.compare_self (a := key a)
    eq_of_compare := fun h => injective (Std.compare_eq_iff_eq.1 h) }

end ErrorContracts
