import ErrorContracts.Collection.Trail
import ErrorContracts.Program.Module

/-!
# Looking through casts

Casts and aliases pass a value on.  Chains of them may run in a circle; then the chain is followed
until it comes back to a value met before.
-/

namespace ErrorContracts.Module

/-- The value behind an alias, or behind a cast of a kind that is looked through. -/
def behind? (m : Module) (through : CastKind → Bool) (h : Handle) : Option Handle :=
  match m.kind? h with
  | some (.instruction _ (.cast kind v)) => if through kind then some v else none
  | some (.aliasOf target) => some target
  | _ => none

/-- The end of the chain of casts and aliases that starts at a value. -/
def strip (m : Module) (through : CastKind → Bool) (h : Handle) : Handle :=
  (trail (m.behind? through) m.values.keys h).getLast?.getD h

/-- Looks through every cast and alias. -/
def ignoreCasts (m : Module) (h : Handle) : Handle := m.strip (fun _ => true) h

/-- Looks through bitcasts and aliases only. -/
def stripBitcasts (m : Module) (h : Handle) : Handle := m.strip (fun kind => kind = .bitcast) h

/-- The function that a callee is known to be without running the program. -/
def calledFunction? (m : Module) (callee : Handle) : Option Handle :=
  let target := m.stripBitcasts callee
  if m.isCallable target then some target else none

end ErrorContracts.Module
