import ErrorContracts.Collection.Bindings
import ErrorContracts.Program.Casts

/-!
# Indirect calls

Which functions a call through a value may reach, as known before the analysis: the candidates of
each value in the order in which they were added.
-/

namespace ErrorContracts

abbrev IndirectCalls := List (Handle × List Handle)

namespace IndirectCalls

/-- Adds a candidate that is not listed yet. -/
def add (calls : IndirectCalls) (v callee : Handle) : IndirectCalls :=
  let known := (Bindings.find? v calls).getD []
  Bindings.assign v (if callee ∈ known then known else known ++ [callee]) calls

theorem find?_add (calls : IndirectCalls) (v callee other : Handle) :
    Bindings.find? other (calls.add v callee) =
      if other = v then
        let known := (Bindings.find? v calls).getD []
        some (if callee ∈ known then known else known ++ [callee])
      else Bindings.find? other calls :=
  Bindings.find?_assign v other _ calls

/-- The last entry of each value; one without candidates says nothing of its value. -/
def ofList (entries : List (Handle × List Handle)) : IndirectCalls :=
  (Bindings.ofList entries).foldl
    (fun calls (v, callees) => callees.foldl (fun calls callee => calls.add v callee) calls) []

/-- The candidates of a value, or else those of the value behind its bitcasts. -/
def candidates (calls : IndirectCalls) (m : Module) (v : Handle) : List Handle :=
  match Bindings.find? v calls with
  | some callees => callees
  | none => (Bindings.find? (m.stripBitcasts v) calls).getD []

end IndirectCalls

/-- The functions that a call through `callee` may reach. -/
def callTargets (m : Module) (calls : IndirectCalls) (callee : Handle) : List Handle :=
  match m.calledFunction? callee with
  | some f => [f]
  | none => calls.candidates m callee

end ErrorContracts
