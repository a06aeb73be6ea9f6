import ErrorContracts.Collection.Bindings
import ErrorContracts.Contract.Clause

/-!
# Dependencies

Clauses known before the analysis, by function name.
-/

namespace ErrorContracts

abbrev Dependencies := List (String × List Clause)

namespace Dependencies

def lookup? (known : Dependencies) (name : String) : Option (List Clause) :=
  Bindings.find? name known

/-- Adds a clause behind those known for a name. -/
def add (known : Dependencies) (name : String) (clause : Clause) : Dependencies :=
  Bindings.assign name ((known.lookup? name).getD [] ++ [clause]) known

theorem lookup?_add (known : Dependencies) (name other : String) (clause : Clause) :
    (known.add name clause).lookup? other =
      if other = name then some ((known.lookup? name).getD [] ++ [clause])
      else known.lookup? other :=
  Bindings.find?_assign name other _ known

def describe (known : Dependencies) : String :=
  let names := (SortedSet.ofList (known.map Prod.fst)).toList.map Text.quoted
  let listed := String.intercalate ", " names
  s!"DependencySummary([{listed}])"

end Dependencies

end ErrorContracts
