import ErrorContracts.Collection.SortedMap
import ErrorContracts.Program.Value

/-!
# Modules

A module owns the values of one program.  Handles are given out in ascending order from 1; constants
are shared, one value for each pair of an integer and a type.
-/

namespace ErrorContracts

structure Module where
  name : String := "module"
  next : Handle := 1
  values : SortedMap Handle Value := ∅
  functions : List Handle := []
  externals : List (String × Handle) := []
  aliases : List (String × Handle) := []
  constants : List ((Int × Ty) × Handle) := []
  null : Option Handle := none

namespace Module

def value? (m : Module) (h : Handle) : Option Value := m.values.get? h

def kind? (m : Module) (h : Handle) : Option Kind := (m.value? h).map Value.kind

def nameOf (m : Module) (h : Handle) : String := ((m.value? h).map Value.name).getD ""

def typeOf (m : Module) (h : Handle) : Ty := ((m.value? h).map Value.type).getD .void

/-- The instruction that control runs through at a handle. -/
def op? (m : Module) (h : Handle) : Option Op :=
  match m.kind? h with
  | some (.instruction _ op) => some op
  | _ => none

/-- The callee of a call. -/
def callee? (m : Module) (h : Handle) : Option Handle :=
  match m.op? h with
  | some (.call callee _) => some callee
  | _ => none

/-- What flows into a phi, and from which blocks. -/
def incoming? (m : Module) (h : Handle) : Option (List (Handle × Handle)) :=
  match m.op? h with
  | some (.phi incoming) => some incoming
  | _ => none

def terminator? (m : Module) (h : Handle) : Option Terminator :=
  match m.kind? h with
  | some (.terminator _ exit) => some exit
  | _ => none

/-- The block that an instruction was put into. -/
def blockOf? (m : Module) (h : Handle) : Option Handle :=
  match m.kind? h with
  | some (.instruction block _) => block
  | some (.terminator block _) => block
  | _ => none

/-- The function that a block belongs to. -/
def functionOfBlock? (m : Module) (h : Handle) : Option Handle :=
  match m.kind? h with
  | some (.block function _) => some function
  | _ => none

/-- The function in which an argument, a block or an instruction stands. -/
def owner? (m : Module) (h : Handle) : Option Handle :=
  match m.kind? h with
  | some (.argument function _) => some function
  | some (.block function _) => some function
  | _ => (m.blockOf? h).bind m.functionOfBlock?

def blocksOf (m : Module) (function : Handle) : List Handle :=
  match m.kind? function with
  | some (.function _ _ blocks) => blocks
  | _ => []

def argumentsOf (m : Module) (function : Handle) : List Handle :=
  match m.kind? function with
  | some (.function _ arguments _) => arguments
  | _ => []

def instructionsOf (m : Module) (block : Handle) : List Handle :=
  match m.kind? block with
  | some (.block _ instructions) => instructions
  | _ => []

def isPhi (m : Module) (h : Handle) : Bool := ((m.op? h).map Op.isPhi).getD false

def phisOf (m : Module) (block : Handle) : List Handle := (m.instructionsOf block).filter m.isPhi

/-- The last instruction of a block, if it ends the block. -/
def terminatorOf? (m : Module) (block : Handle) : Option Handle :=
  (m.instructionsOf block).getLast?.filter fun h => (m.terminator? h).isSome

def isFunction (m : Module) (h : Handle) : Bool :=
  match m.kind? h with
  | some (.function _ _ _) => true
  | _ => false

def isExternal (m : Module) (h : Handle) : Bool :=
  match m.kind? h with
  | some (.external _) => true
  | _ => false

/-- The declared result type of a function, defined or external. -/
def returnType? (m : Module) (h : Handle) : Option Ty :=
  match m.kind? h with
  | some (.function returns _ _) => some returns
  | some (.external returns) => some returns
  | _ => none

def returnsPointer (m : Module) (h : Handle) : Bool :=
  ((m.returnType? h).map Ty.isPointer).getD false

def isCallable (m : Module) (h : Handle) : Bool := (m.returnType? h).isSome

def constantValue? (m : Module) (h : Handle) : Option Int :=
  match m.kind? h with
  | some (.constant n) => some n
  | _ => none

/-- The first function of a name. -/
def function? (m : Module) (name : String) : Option Handle :=
  m.functions.find? fun f => m.nameOf f = name

end Module

end ErrorContracts
