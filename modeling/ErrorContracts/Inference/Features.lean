import ErrorContracts.Inference.Evidence

/-!
# Features of called functions

For each function that is called by name, its call sites are counted by what their blocks are known
to do.  The counts and ratios are the features by which a classifier may recognise functions that
report errors.
-/

namespace ErrorContracts

/-- A call whose callee is known without running the program. -/
structure CallSite where
  callee : Handle
  caller : Handle
  fact : Option Fact
  returnsConstant : Bool
  passesArgument : Bool
  passesLiteral : Bool
  deriving DecidableEq

namespace CallSite

def inErrorBlock (site : CallSite) : Bool :=
  match site.fact with
  | some (.error _) => true
  | _ => false

def inSuccessBlock (site : CallSite) : Bool := site.fact = some .success

def isUnclassified (site : CallSite) : Bool := site.fact = none

/-- The call site of an instruction, if it is one. -/
def ofStep? (m : Module) (r : Routine) (fact : Option Fact) (returnsConstant : Bool) (step : Step) :
    Option CallSite :=
  match step.op with
  | .call callee arguments =>
      (m.calledFunction? callee).map fun f =>
        let kinds := arguments.map fun a => m.kind? (m.ignoreCasts a)
        { callee := f
          caller := r.handle
          fact
          returnsConstant
          passesArgument := kinds.any fun
            | some (.argument _ _) => true
            | _ => false
          passesLiteral := kinds.any fun
            | some (.constant _) => true
            | _ => false }
  | _ => none

/-- The call sites of some routines in program order. -/
def ofRoutines (m : Module) (facts : SortedMap Handle Fact) (routines : List Routine) :
    List CallSite :=
  routines.flatMap fun r =>
    r.blocks.flatMap fun b =>
      b.steps.filterMap
        (ofStep? m r (facts.get? b.handle) (Routine.returnedConstant? m r b).isSome)

end CallSite

/-- What is counted over the call sites of one function. -/
structure CallCounts where
  error : Nat
  success : Nat
  unclassified : Nat
  callers : Nat
  constantReturns : Nat
  errorForwarding : Nat
  literalArguments : Nat
  deriving DecidableEq

namespace CallCounts

def ofSites (sites : List CallSite) : CallCounts where
  error := sites.countP CallSite.inErrorBlock
  success := sites.countP CallSite.inSuccessBlock
  unclassified := sites.countP CallSite.isUnclassified
  callers := (SortedSet.ofList (sites.map CallSite.caller)).toList.length
  constantReturns := sites.countP CallSite.returnsConstant
  errorForwarding := sites.countP fun site => site.inErrorBlock && site.passesArgument
  literalArguments := sites.countP CallSite.passesLiteral

def total (c : CallCounts) : Nat := c.error + c.success + c.unclassified

/-- A share of a count; a share of nothing is taken of one. -/
def share (part whole : Nat) : Float :=
  part.toFloat / (if whole = 0 then 1.0 else whole.toFloat)

/-- The feature vector of a function with these counts. -/
def vector (c : CallCounts) (isExternal returnsVoid : Bool) : FeatureVector :=
  [c.error.toFloat, c.success.toFloat, c.unclassified.toFloat,
    share c.error c.total,
    c.callers.toFloat,
    share c.constantReturns c.total,
    share c.errorForwarding c.error,
    share c.literalArguments c.total,
    if isExternal then 1.0 else 0.0,
    if returnsVoid then 1.0 else 0.0]

end CallCounts

/-- The number of features of a function. -/
def featureCount : Nat := 10

theorem length_vector (c : CallCounts) (isExternal returnsVoid : Bool) :
    (c.vector isExternal returnsVoid).length = featureCount := rfl

/-- The called functions in the order of their first call sites, with their counts. -/
def callCounts (m : Module) (facts : SortedMap Handle Fact) (routines : List Routine) :
    List (Handle × CallCounts) :=
  let sites := CallSite.ofRoutines m facts routines
  (sites.map CallSite.callee).eraseDups.map fun f =>
    (f, .ofSites (sites.filter fun site => site.callee = f))

/-- The called functions in the order of their first call sites, with their features. -/
def features (m : Module) (facts : SortedMap Handle Fact) (routines : List Routine) :
    List (Handle × FeatureVector) :=
  (callCounts m facts routines).map fun (f, counts) =>
    (f, counts.vector (m.isExternal f) (m.returnType? f = some .void))

/-- The names of the called functions that a rule on features accepts. -/
def namesByFeatures (m : Module) (facts : SortedMap Handle Fact) (routines : List Routine)
    (accepts : FeatureVector → Bool) : SortedSet String :=
  SortedSet.ofList
    (((features m facts routines).filter fun (_, vector) => accepts vector).map fun (f, _) =>
      m.nameOf f)

/-- The names of the functions that are the only action of some descriptor. -/
def Summary.soleReporters (s : Summary) : SortedSet String :=
  SortedSet.ofList
    (s.descriptors.toList.flatMap fun (_, ds) =>
      (ds.toList.filterMap Contract.soleAction?).map Action.name)

end ErrorContracts
