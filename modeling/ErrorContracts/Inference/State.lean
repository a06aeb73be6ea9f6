import ErrorContracts.CallGraph.Components
import ErrorContracts.Diagnostic
import ErrorContracts.Environment.Dependencies
import ErrorContracts.Environment.Options
import ErrorContracts.Oracle.Basic
import ErrorContracts.PathCondition

/-!
# The state of an inference

A run refines a summary: what each function is seen to report and what each block is known to do.
Beside it the run learns codes, reporting functions and success codes, writes diagnostics, and keeps
the path conditions it has asked for and the state of its oracle.
-/

namespace ErrorContracts

/-- What a block is known to do.  An error block passes the values `forwarded` to calls. -/
inductive Fact where
  | error (forwarded : SortedSet Handle)
  | success
  deriving DecidableEq

/-- What is left of a descriptor when some integer codes are taken away. -/
def Descriptor.without (codes : SortedSet Int) (d : Descriptor) :
    Except ContractFault (Option Descriptor) := do
  if d.isInteger then
    let left := d.returns.codes.filter fun c => c ∉ codes
    if left.isEmpty then return none
    return some { d with returns := ← Returns.ofSet .integer left }
  return some d

structure Summary where
  descriptors : SortedMap Handle (SortedSet Descriptor) := ∅
  facts : SortedMap Handle Fact := ∅
  deriving DecidableEq

namespace Summary

def descriptorsOf (s : Summary) (f : Handle) : SortedSet Descriptor := s.descriptors.getD f ∅

def addDescriptor (s : Summary) (f : Handle) (d : Descriptor) : Summary :=
  { s with descriptors := s.descriptors.insert f ((s.descriptorsOf f).insert d) }

theorem descriptorsOf_addDescriptor (s : Summary) (f g : Handle) (d : Descriptor) :
    (s.addDescriptor f d).descriptorsOf g =
      if g = f then (s.descriptorsOf f).insert d else s.descriptorsOf g :=
  SortedMap.getD_insert s.descriptors f g _ ∅

def factOf? (s : Summary) (b : Handle) : Option Fact := s.facts.get? b

def setFact (s : Summary) (b : Handle) (fact : Fact) : Summary :=
  { s with facts := s.facts.insert b fact }

theorem factOf?_setFact (s : Summary) (b c : Handle) (fact : Fact) :
    (s.setFact b fact).factOf? c = if c = b then some fact else s.factOf? c :=
  SortedMap.get?_insert s.facts b c fact

/-- The contract that is exported for a function, with its witnesses. -/
def contract? (s : Summary) (f : Handle) : Except ContractFault (Option (Contract × List Witness)) :=
  Contract.ofDescriptors (s.descriptorsOf f)

/-- The functions that have descriptors, with them. -/
def present (s : Summary) : List (Handle × SortedSet Descriptor) :=
  s.descriptors.toList.filter fun (_, ds) => !ds.isEmpty

/-- Same facts and same descriptors; a function without descriptors counts as absent. -/
def agrees (s t : Summary) : Bool := s.present = t.present && s.facts = t.facts

/-- Takes integer codes away from the descriptors of a function. -/
def withdraw (s : Summary) (f : Handle) (codes : SortedSet Int) : Except ContractFault Summary :=
  match s.descriptors.get? f with
  | none => .ok s
  | some ds => do
      let left ← ds.toList.mapM (Descriptor.without codes)
      return { s with descriptors := s.descriptors.insert f (SortedSet.ofList (left.filterMap id)) }

def describe (s : Summary) : String :=
  let count := s.descriptors.toList.foldr (fun (_, ds) total => ds.toList.length + total) 0
  s!"ErrorSummary(functions={s.descriptors.size}, descriptors={count}, facts={s.facts.size})"

end Summary

/-- What a run has learned: error codes, names of reporting functions, success codes by function. -/
structure Knowledge where
  codes : SortedSet Int := ∅
  reporters : SortedSet String := ∅
  successes : SortedMap Handle (SortedSet Int) := ∅
  deriving DecidableEq

namespace Knowledge

def successCodesOf (k : Knowledge) (f : Handle) : SortedSet Int := k.successes.getD f ∅

def successCodes (k : Knowledge) : SortedSet Int :=
  k.successes.toList.foldl (fun codes (_, more) => codes ∪ more) ∅

def addSuccess (k : Knowledge) (f : Handle) (code : Int) : Knowledge :=
  { k with successes := k.successes.insert f ((k.successCodesOf f).insert code) }

theorem successCodesOf_addSuccess (k : Knowledge) (f g : Handle) (code : Int) :
    (k.addSuccess f code).successCodesOf g =
      if g = f then (k.successCodesOf f).insert code else k.successCodesOf g :=
  SortedMap.getD_insert k.successes f g _ ∅

end Knowledge

/-- The key of a path condition. -/
structure Place where
  function : Handle
  block : Handle
  target : Handle
  deriving DecidableEq

namespace Place

attribute [local instance] lexOrd

def key (p : Place) : Nat × (Nat × Nat) := (p.function, p.block, p.target)

theorem key_injective {p q : Place} (h : p.key = q.key) : p = q := by
  cases p
  cases q
  simpa [key] using h

instance : Ord Place := orderBy key

instance : Std.TransOrd Place := orderBy_trans key

instance : Std.LawfulEqOrd Place := orderBy_lawful key key_injective

end Place

/-- What is fixed during a run. -/
structure Context (σ : Type) where
  program : Module
  dependencies : Dependencies := []
  indirect : IndirectCalls := []
  options : Options := {}
  oracle : Oracle σ

/-- What changes during a run. -/
structure Run (σ : Type) where
  summary : Summary := {}
  knowledge : Knowledge := {}
  diagnostics : List Diagnostic := []
  conditions : SortedMap Place (Option Formula) := ∅
  memory : σ
  undecided : Nat := 0

/-- Why a step of a run fails. -/
inductive StepFault where
  | oracle (fault : OracleFault)
  | contract (fault : ContractFault)
  deriving DecidableEq

/-- Steps of a run.  A step that fails keeps what it has done. -/
abbrev Inference (σ : Type) := ExceptT StepFault (StateM (Run σ))

namespace Inference

variable {σ : Type}

def ofContract {α : Type} : Except ContractFault α → Inference σ α
  | .ok made => return made
  | .error fault => throw (.contract fault)

def modifySummary (change : Summary → Summary) : Inference σ Unit :=
  modify fun run => { run with summary := change run.summary }

def modifyKnowledge (change : Knowledge → Knowledge) : Inference σ Unit :=
  modify fun run => { run with knowledge := change run.knowledge }

def emit (d : Diagnostic) : Inference σ Unit :=
  modify fun run => { run with diagnostics := d.emit run.diagnostics }

/-- Puts a formula to the oracle; an open answer is counted. -/
def satisfiable? (ctx : Context σ) (f : Formula) : Inference σ (Option Bool) := do
  let run ← get
  let (answer, memory) := ctx.oracle.ask f run.memory
  set { run with memory }
  match answer with
  | .error fault => throw (.oracle fault)
  | .ok verdict =>
      if verdict = .unknown then
        modify fun run => { run with undecided := run.undecided + 1 }
      return verdict.definite?

/-- The path condition of a block, computed once. -/
def condition? (ctx : Context σ) (r : Routine) (b target : Handle) :
    Inference σ (Option Formula) := do
  let place : Place := ⟨r.handle, b, target⟩
  match (← get).conditions.get? place with
  | some known => return known
  | none =>
      let condition := Routine.pathCondition? ctx.program r b target
      modify fun run => { run with conditions := run.conditions.insert place condition }
      return condition

end Inference

end ErrorContracts
