import ErrorContracts.Inference.Evidence

/-!
# Inference rules

Each rule looks at one block.  `reportsSuccess` and `handlesKnownError` classify blocks behind a
check of a call; `generalize` and `forwardError` find errors that are reported without a check.
-/

namespace ErrorContracts

/-- Whether a descriptor holds an integer code that the function reports success with. -/
def Knowledge.fitsSuccess (k : Knowledge) (f : Handle) (d : Descriptor) : Bool :=
  d.isInteger && !d.returns.codes.disjoint (k.successCodesOf f)

namespace Inference

variable {σ : Type}

/-- Adds a descriptor; its integer codes become known error codes. -/
def addError (f : Handle) (d : Descriptor) : Inference σ Unit := do
  modifySummary fun s => s.addDescriptor f d
  if d.isInteger then
    modifyKnowledge fun k => { k with codes := k.codes ∪ d.returns.codes }

/-- Takes the codes of an integer descriptor away from a function. -/
def retract (f : Handle) (d : Descriptor) : Inference σ Unit := do
  if d.isInteger then
    let left ← ofContract ((← get).summary.withdraw f d.returns.codes)
    modifySummary fun _ => left

/--
A block behind a check reports success if it always returns one constant and is reached with no error
code of the checked call.
-/
def reportsSuccess (ctx : Context σ) (r : Routine) (b : Block) : Inference σ Unit := do
  match r.singlePredecessor? b with
  | none => return
  | some p =>
      match Routine.uniformConstant? ctx.program r b with
      | none => return
      | some code =>
          match ← errorCheck? ctx p.terminator with
          | none => return
          | some (target, isError) =>
              match ← condition? ctx r b.handle target with
              | none => return
              | some facts =>
                  if (← satisfiable? ctx (Formula.conjoin [isError, facts])) = some false then
                    modifyKnowledge fun k => k.addSuccess r.handle code
                    modifySummary fun s => s.setFact b.handle .success

/-- The outcome for a block that returns a constant where the checked call may have failed. -/
def classify (r : Routine) (b : Block) (d : Descriptor) (taken : SortedSet Handle) :
    Inference σ Unit := do
  if (← get).knowledge.fitsSuccess r.handle d then
    modifySummary fun s => s.setFact b.handle .success
    retract r.handle d
  else
    modifySummary fun s => s.setFact b.handle (.error taken)
    addError r.handle d

/-- Handles a block behind the check of a terminator, which stands at the handle `exit`. -/
def checkKnownError (ctx : Context σ) (r : Routine) (b : Block) (exit : Handle) (t : Terminator) :
    Inference σ Unit := do
  match ← errorCheck? ctx t with
  | none => return
  | some (target, isError) =>
      match ← condition? ctx r b.handle target with
      | none => return
      | some facts =>
          if (← satisfiable? ctx (Formula.conjoin [isError, facts])) = some true then
            match Routine.blockDescriptor? ctx.program r b with
            | none => return
            | some (d, taken) =>
                let witnesses : List Witness :=
                  [⟨target, "check error return"⟩, ⟨exit, "return error code"⟩]
                classify r b { d with witnesses } taken

/-- A block that returns a constant handles an error if a check that controls it lets one pass. -/
def handlesKnownError (ctx : Context σ) (r : Routine) (b : Block) : Inference σ Unit := do
  if (Routine.returnedConstant? ctx.program r b).isSome then
    (r.allControllers b.handle).forM fun dep => checkKnownError ctx r b dep.exit dep.terminator

/-- The calls of a block to functions with the given names, with the names. -/
def callsTo (m : Module) (names : SortedSet String) (b : Block) : List (Handle × String) :=
  b.steps.filterMap fun step =>
    match step.op with
    | .call callee _ =>
        match m.calledFunction? callee with
        | some f => if m.nameOf f ∈ names then some (step.handle, m.nameOf f) else none
        | none => none
    | _ => none

/-- A block without a fact that calls a reporting function and returns no success code. -/
def generalize (ctx : Context σ) (r : Routine) (b : Block) (reporters : SortedSet String)
    (successCodes : SortedSet Int) : Inference σ Unit := do
  if ((← get).summary.factOf? b.handle).isSome then return
  match Routine.returnedConstant? ctx.program r b with
  | none => return
  | some code =>
      if code ∈ successCodes then return
      match callsTo ctx.program reporters b with
      | [] => return
      | calls =>
          addError r.handle
            { actions := SortedSet.ofList (calls.map fun (_, name) => ⟨name, []⟩)
              returns := Routine.signal ctx.program r code
              witnesses := calls.map fun (h, _) => ⟨h, "calls error-reporting function"⟩ }

/-- The codes that the condition does not rule out for the tracked result. -/
def consistentCodes (ctx : Context σ) (condition : Formula) (codes : SortedSet Int) :
    Inference σ (SortedSet Int) := do
  let kept ← codes.toList.filterM fun c => do
    let question := Formula.conjoin [.relation .eq .result (.int c), condition]
    return (← satisfiable? ctx question) ≠ some false
  return SortedSet.ofList kept

/-- Passes on the codes of a candidate callee whose result is returned. -/
def forwardFrom (ctx : Context σ) (r : Routine) (call : Handle) (condition? : Option Formula)
    (callee : Handle) : Inference σ Unit := do
  let clauses ← ofContract (clausesOf ctx (← get).summary callee)
  match Clause.contract? clauses with
  | none => return
  | some contract =>
      if contract.returns.isInteger then
        let codes ← match condition? with
          | none => pure contract.returns.codes
          | some condition => consistentCodes ctx condition contract.returns.codes
        if codes.isEmpty then return
        let returns ← ofContract (Returns.ofSet .integer codes)
        addError r.handle ⟨contract.actions, returns, [⟨call, "transitive error"⟩]⟩

/-- A block without a fact that returns the result of a call passes on the errors of the callee. -/
def forwardError (ctx : Context σ) (r : Routine) (b : Block) : Inference σ Unit := do
  if ((← get).summary.factOf? b.handle).isSome then return
  match (r.blockReturn? b).map ctx.program.ignoreCasts with
  | none => return
  | some call =>
      match ctx.program.op? call with
      | some (.call callee _) =>
          let condition ← condition? ctx r b.handle call
          (callTargets ctx.program ctx.indirect callee).forM (forwardFrom ctx r call condition)
      | _ => return

end Inference

end ErrorContracts
