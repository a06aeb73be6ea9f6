import ErrorContracts.Inference.State
import ErrorContracts.Program.Describe
import ErrorContracts.Routine.Returns

/-!
# Evidence of error handling

What can be read off a summary and a block: the codes that a checked call signals errors with, the
reporting actions of a block, and the descriptor of a block that returns a constant.
-/

namespace ErrorContracts

/-- What is known of a function at this point of a run. -/
def clausesOf {σ : Type} (ctx : Context σ) (s : Summary) (callee : Handle) :
    Except ContractFault (List Clause) := do
  if ctx.program.isFunction callee then
    return ((← s.contract? callee).map fun (contract, _) => Clause.reports contract).toList
  if ctx.program.isExternal callee then
    return (ctx.dependencies.lookup? (ctx.program.nameOf callee)).getD []
  return []

/-- The error codes in the first contract among some clauses. -/
def Clause.errorCodes? (clauses : List Clause) : Option (SortedSet Int) :=
  (Clause.contract? clauses).map fun contract => contract.returns.codes

/-- The error codes of some functions, one after the other, if each has a contract. -/
def listedCodes? {σ : Type} (ctx : Context σ) (s : Summary) :
    List Handle → Except ContractFault (Option (List (SortedSet Int)))
  | [] => return some []
  | f :: rest => do
      match Clause.errorCodes? (← clausesOf ctx s f) with
      | none => return none
      | some codes => return (← listedCodes? ctx s rest).map (codes :: ·)

/-- The argument of an action that a value stands for. -/
def Module.actionArgument? (m : Module) (h : Handle) : Option ActionArgument :=
  match m.kind? h with
  | some (.argument _ index) => some (.parameter (m.typeOf h).render index)
  | some (.constant n) => some (.literal n)
  | _ => none

/-- The arguments of a call that say something about an error, with their positions. -/
def Module.actionArguments (m : Module) (position : Nat) : List Handle → List (Int × ActionArgument)
  | [] => []
  | h :: rest =>
      match m.actionArgument? h with
      | some argument => (position, argument) :: m.actionArguments (position + 1) rest
      | none => m.actionArguments (position + 1) rest

/--
The reporting actions among some instructions, and the values that their calls take.  A call whose
result a later call takes, directly or up to casts, is no action of its own.
-/
def Module.reportingActions (m : Module) : List Step → List Action × SortedSet Handle
  | [] => ([], ∅)
  | step :: rest =>
      let (actions, taken) := m.reportingActions rest
      match step.op with
      | .call callee arguments =>
          match m.calledFunction? callee with
          | some f =>
              let action : Action := ⟨m.nameOf f, m.actionArguments 0 arguments⟩
              (if step.handle ∈ taken then actions else action :: actions,
                taken.insertAll (arguments.flatMap fun a => [a, m.ignoreCasts a]))
          | none => (actions, taken)
      | _ => (actions, taken)

namespace Routine

/-- The integer constant returned after the end of a block. -/
def returnedConstant? (m : Module) (r : Routine) (b : Block) : Option Int :=
  (r.blockReturn? b).bind m.constantValue?

/-- A code as it is returned by a function. -/
def signal (m : Module) (r : Routine) (code : Int) : Returns :=
  .single (if m.returnsPointer r.handle then .pointer else .integer) code

/-- The descriptor of a block that returns a constant, and the values that its calls take. -/
def blockDescriptor? (m : Module) (r : Routine) (b : Block) :
    Option (Descriptor × SortedSet Handle) :=
  (returnedConstant? m r b).map fun code =>
    let (actions, taken) := m.reportingActions b.steps
    (⟨SortedSet.ofList actions, signal m r code, []⟩, taken)

/-- The integer constant that is returned on every way from the end of a block. -/
def uniformConstant? (m : Module) (r : Routine) (b : Block) : Option Int :=
  match r.blockReturns b with
  | [] => none
  | v :: rest => if rest.all fun w => w = v then m.constantValue? v else none

end Routine

namespace Inference

variable {σ : Type}

/-- The note that the candidates of a call have disjoint error codes. -/
def mismatch (m : Module) (call callee : Handle) : Diagnostic :=
  let location := (m.blockOf? call).map fun b =>
    { function := ((m.functionOfBlock? b).map m.nameOf).getD "", block := m.nameOf b : Location }
  let name := m.nameOf callee
  let label := if name.isEmpty then m.describe callee else name
  .warning location "ErrorAnalysis" s!"Mismatched error return codes for indirect call {label}"

def warnMismatch (ctx : Context σ) (call callee : Handle) : Inference σ Unit :=
  emit (mismatch ctx.program call callee)

/--
The error codes on which all candidates of a call agree.  Each candidate must have a contract.  Where
they do not agree and some set of codes is disjoint from the first, this is noted.
-/
def sharedCodes? (ctx : Context σ) (callees : List Handle) (call callee : Handle) :
    Inference σ (Option (SortedSet Int)) := do
  let summary := (← get).summary
  match ← ofContract (listedCodes? ctx summary callees) with
  | none => return none
  | some [] => return none
  | some (first :: others) =>
      if others.all fun codes => codes = first then return some first
      if others.any fun codes => codes.disjoint first then warnMismatch ctx call callee
      return none

/-- The call and callee among the sides of a comparison, the left side first. -/
def checkedCall? (m : Module) (c : Comparison) : Option (Handle × Handle) :=
  [c.lhs, c.rhs].findSome? fun side =>
    match m.op? (m.ignoreCasts side) with
    | some (.call callee _) => some (m.ignoreCasts side, callee)
    | _ => none

/-- The call that a branch checks, and the condition that its result is an error code. -/
def errorCheck? (ctx : Context σ) (t : Terminator) : Inference σ (Option (Handle × Formula)) := do
  match (ctx.program.comparison? t).bind (checkedCall? ctx.program) with
  | none => return none
  | some (call, callee) =>
      match ← sharedCodes? ctx (callTargets ctx.program ctx.indirect callee) call callee with
      | none => return none
      | some codes => return some (call, Formula.anyOf codes .result)

end Inference

end ErrorContracts
