import ErrorContracts.Contract.Descriptor

/-!
# Contracts and clauses

The error contract of a function says which actions report an error and which codes signal it.  It is
one of the clauses that may be known of a function.
-/

namespace ErrorContracts

/-- How a function reports errors. -/
structure Contract where
  actions : SortedSet Action
  returns : Returns
  deriving DecidableEq

inductive Clause where
  | reports (contract : Contract)
  | noReturn
  | allocator (finalizer : Option String)
  | finalizer
  deriving DecidableEq

namespace Clause

/-- The first contract among the clauses of a function. -/
def contract? : List Clause → Option Contract
  | [] => none
  | reports contract :: _ => some contract
  | _ :: rest => contract? rest

end Clause

namespace Contract

/-- The codes of all descriptors of the kind that wins. -/
def unifyReturns : List Descriptor → Except ContractFault Returns
  | [] => .error .nothingToUnify
  | d :: ds => .ok (ds.foldl (fun r e => r.merge e.returns) d.returns)

/-- The only action of a descriptor that has one. -/
def soleAction? (d : Descriptor) : Option Action :=
  match d.actions.toList with
  | [a] => some a
  | _ => none

/--
The actions that some descriptors agree on.  Where they differ, the least of the actions that stand
alone in a descriptor is taken: several actions together tend to hold cleanup as well.
-/
def unifyActions : List Descriptor → SortedSet Action
  | [] => ∅
  | d :: ds =>
      if ds.all fun e => e.actions = d.actions then d.actions
      else
        match (SortedSet.ofList ((d :: ds).filterMap soleAction?)).toList with
        | a :: _ => SortedSet.singleton a
        | [] => ∅

/-- The contract of a function with the given descriptors, and what justifies it, if it has any. -/
def ofDescriptors (ds : SortedSet Descriptor) :
    Except ContractFault (Option (Contract × List Witness)) := do
  if ds.isEmpty then return none
  let returns ← unifyReturns ds.toList
  let chosen := ds.toList.filter fun d => d.isInteger = returns.isInteger
  return some (⟨unifyActions chosen, returns⟩, chosen.flatMap Descriptor.witnesses)

end Contract

end ErrorContracts
