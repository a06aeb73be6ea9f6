import ErrorContracts.Inference.Features
import ErrorContracts.Inference.Rules

/-!
# Inference to a fixpoint

A round applies every rule to every block.  Rounds are repeated until one changes neither the summary
nor what has been learned, or until as many as the limit allows have passed.
-/

namespace ErrorContracts

namespace Inference

variable {σ : Type}

/-- Applies a rule to all blocks, routine by routine. -/
def byBlock (routines : List Routine) (rule : Routine → Block → Inference σ Unit) :
    Inference σ Unit :=
  routines.forM fun r => r.blocks.forM (rule r)

/-- Finds the success blocks of all routines, then the blocks that handle known errors. -/
def extract (ctx : Context σ) (routines : List Routine) : Inference σ Unit := do
  byBlock routines (reportsSuccess ctx)
  byBlock routines (handlesKnownError ctx)

/-- The names of reporting functions that the classifier finds, with those found before. -/
def reporters (ctx : Context σ) (routines : List Routine) : Inference σ (SortedSet String) := do
  let summary := (← get).summary
  match ctx.options.classifier with
  | .none => return ∅
  | .default => learn summary.soleReporters
  | .feature accepts => learn (namesByFeatures ctx.program summary.facts routines accepts)
where
  learn (found : SortedSet String) : Inference σ (SortedSet String) := do
    modifyKnowledge fun k => { k with reporters := k.reporters ∪ found }
    return (← get).knowledge.reporters

/-- One round of all rules. -/
def round (ctx : Context σ) (routines : List Routine) : Inference σ Unit := do
  extract ctx routines
  let names ← reporters ctx routines
  let successCodes := (← get).knowledge.successCodes
  byBlock routines fun r b => generalize ctx r b names successCodes
  byBlock routines (forwardError ctx)

/-- Runs a step that, if it fails, leaves the summary as it was. -/
def guarded {α : Type} (step : Inference σ α) : Inference σ α := fun run =>
  match step.run run with
  | (.ok a, next) => (.ok a, next)
  | (.error fault, next) => (.error fault, { next with summary := run.summary })

end Inference

/-- How a series of rounds ends: settled, stopped by the limit, or failed. -/
inductive Ending where
  | settled (rounds : Nat)
  | interrupted (rounds : Nat)
  | failed (fault : StepFault)
  deriving DecidableEq

namespace Run

variable {σ : Type}

/-- Whether a round from `before` to `after` has changed nothing that counts. -/
def settled (before after : Run σ) : Bool :=
  after.summary.agrees before.summary && before.knowledge = after.knowledge

/-- Repeats rounds until one settles, for as long as the limit allows. -/
def advance (ctx : Context σ) (routines : List Routine) :
    (limit rounds : Nat) → Run σ → Ending × Run σ
  | 0, rounds, run => (.interrupted rounds, run)
  | limit + 1, rounds, run =>
      match (Inference.round ctx routines).run run with
      | (.error fault, next) => (.failed fault, next)
      | (.ok (), next) =>
          if run.settled next then (.settled (rounds + 1), next)
          else advance ctx routines limit (rounds + 1) next

/--
Makes a round at least and repeats rounds up to the limit.  If one fails, the summary is the one
before the first round.
-/
def refine (ctx : Context σ) (routines : List Routine) (limit : Nat) (run : Run σ) :
    Ending × Run σ :=
  match advance ctx routines (max 1 limit) 0 run with
  | (.failed fault, next) => (.failed fault, { next with summary := run.summary })
  | ended => ended

end Run

/-- Why no contracts can be inferred. -/
inductive InferenceFault where
  | malformed (cause : Malformed)
  | failed (fault : StepFault)
  | unsettled (rounds : Nat)
  deriving DecidableEq

/-- The routines of some functions, in the order of the list. -/
def routinesOf (m : Module) (functions : List Handle) : Except Malformed (List Routine) :=
  functions.mapM (Routine.ofFunction m)

/-- The routines in the order of a visit: as given, or callees first and each one once. -/
def visitOrder {σ : Type} (ctx : Context σ) (routines : List Routine) : List Routine :=
  if ctx.options.calleesFirst then
    let graph := CallGraph.ofFunctions ctx.program ctx.indirect (routines.map Routine.handle)
    graph.bottomUp.filterMap fun f => routines.find? fun r => r.handle = f
  else routines

/-- Infers the contracts of some functions from an empty summary, in rounds up to the limit. -/
def infer {σ : Type} (ctx : Context σ) (functions : List Handle) (limit : Nat) (oracle : σ) :
    Except InferenceFault (Run σ) :=
  match routinesOf ctx.program functions with
  | .error cause => .error (.malformed cause)
  | .ok routines =>
      match Run.refine ctx (visitOrder ctx routines) limit { memory := oracle } with
      | (.settled _, run) => .ok run
      | (.interrupted rounds, _) => .error (.unsettled rounds)
      | (.failed fault, _) => .error (.failed fault)

/-- The features of the functions called, after one extraction of facts from an empty summary. -/
def trainingFeatures {σ : Type} (ctx : Context σ) (functions : List Handle) (oracle : σ) :
    Except InferenceFault (List (Handle × FeatureVector)) :=
  match routinesOf ctx.program functions with
  | .error cause => .error (.malformed cause)
  | .ok routines =>
      match (Inference.extract ctx routines).run { memory := oracle } with
      | (.error fault, _) => .error (.failed fault)
      | (.ok (), run) => .ok (features ctx.program run.summary.facts routines)

end ErrorContracts
