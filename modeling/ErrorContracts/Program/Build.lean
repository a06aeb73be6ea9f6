import ErrorContracts.Program.Module

/-!
# Building modules

A module is built by a list of edits.  An instruction takes its handle before the constants that its
literal operands need, except a return, which takes its own last.  An instruction whose edit names no
block still takes its handle and constants; it then stays outside all blocks and the edit fails.
-/

namespace ErrorContracts

/-- One step of building a module. -/
inductive Edit where
  | external (name : String) (returns : Ty)
  | function (name : String) (returns : Ty) (parameters : List (Option String × Ty))
  | addAlias (name : String) (target : Handle)
  | block (function : Handle) (name : String)
  | constant (value : Int) (type : Ty)
  | null
  | detachedCall (callee : Handle) (arguments : List Operand) (name : String) (type : Ty)
  | call (site : Option Handle) (callee : Handle) (arguments : List Operand) (name : String)
      (type : Option Ty)
  | compare (site : Option Handle) (predicate : Predicate) (lhs rhs : Operand) (name : String)
  | cast (site : Option Handle) (kind : CastKind) (operand : Operand) (type : Ty) (name : String)
  | phi (site : Option Handle) (type : Ty) (incoming : List (Operand × Handle)) (name : String)
  | branch (site : Option Handle) (condition : Operand) (onTrue onFalse : Handle)
  | jump (site : Option Handle) (target : Handle)
  | ret (site : Option Handle) (value : Option Operand)
  | unreachable (site : Option Handle)
  | addIncoming (phi value source : Handle)
  | setCast (cast value : Handle)
  | setAlias (synonym value : Handle)

inductive EditFault where
  | noBlock
  deriving DecidableEq

def EditFault.message : EditFault → String
  | noBlock => "IRBuilder has no insertion block"

/-- Changes the instructions of a block. -/
def Kind.withInstructions (change : List Handle → List Handle) : Kind → Kind
  | .block owner instructions => .block owner (change instructions)
  | kind => kind

namespace Module

/-- The next handle. -/
def fresh : StateM Module Handle :=
  modifyGet fun m => (m.next, { m with next := m.next + 1 })

def define (h : Handle) (v : Value) : StateM Module Unit :=
  modify fun m => { m with values := m.values.insert h v }

/-- Changes what the value at a handle is. -/
def revise (h : Handle) (change : Kind → Kind) : StateM Module Unit :=
  modify fun m =>
    match m.value? h with
    | some v => { m with values := m.values.insert h { v with kind := change v.kind } }
    | none => m

/-- The shared constant of an integer and a type. -/
def constant (n : Int) (type : Ty) : StateM Module Handle := do
  match Bindings.find? (n, type) (← get).constants with
  | some h => return h
  | none =>
      let h ← fresh
      define h ⟨toString n, type, .constant n⟩
      modify fun m => { m with constants := Bindings.assign (n, type) h m.constants }
      return h

/-- The shared null pointer. -/
def nullPointer : StateM Module Handle := do
  match (← get).null with
  | some h => return h
  | none =>
      let h ← fresh
      define h ⟨"null", .ptr, .null⟩
      modify fun m => { m with null := some h }
      return h

/-- The value of an operand; a literal stands for a 32-bit constant. -/
def operand : Operand → StateM Module Handle
  | .value h => return h
  | .literal n => constant n .i32

/-- Puts an instruction at the end of a block. -/
def append (block h : Handle) : StateM Module Unit :=
  revise block (Kind.withInstructions fun instructions => instructions ++ [h])

/-- Puts a phi behind the phis of a block. -/
def appendPhi (block h : Handle) : StateM Module Unit := do
  let count := ((← get).phisOf block).length
  revise block (Kind.withInstructions fun instructions => instructions.insertIdx count h)

/-- Reports the value of an edit that needs a block. -/
def placed (site : Option Handle) (h : Handle) (place : Handle → Handle → StateM Module Unit) :
    StateM Module (Except EditFault Handle) := do
  match site with
  | some block =>
      place block h
      return .ok h
  | none => return .error .noBlock

/-- A new terminator at the end of a block. -/
def terminate (site : Option Handle) (exit : Terminator) :
    StateM Module (Except EditFault Handle) := do
  let h ← fresh
  define h ⟨"", .void, .terminator site exit⟩
  placed site h append

/-- Defines the arguments of a function from the one at `index` on. -/
def defineArguments (function : Handle) (index : Nat) :
    List (Option String × Ty) → StateM Module (List Handle)
  | [] => return []
  | (name, type) :: rest => do
      let h ← fresh
      define h ⟨name.getD s!"arg{index}", type, .argument function index⟩
      return h :: (← defineArguments function (index + 1) rest)

/-- Carries out one edit and reports the value it is about. -/
def apply : Edit → StateM Module (Except EditFault Handle)
  | .external name returns => do
      match Bindings.find? name (← get).externals with
      | some h => return .ok h
      | none =>
          let h ← fresh
          define h ⟨name, .ptr, .external returns⟩
          modify fun m => { m with externals := Bindings.assign name h m.externals }
          return .ok h
  | .function name returns parameters => do
      let h ← fresh
      let arguments ← defineArguments h 0 parameters
      define h ⟨name, .ptr, .function returns arguments []⟩
      modify fun m => { m with functions := m.functions ++ [h] }
      return .ok h
  | .addAlias name target => do
      let h ← fresh
      define h ⟨name, (← get).typeOf target, .aliasOf target⟩
      modify fun m => { m with aliases := Bindings.assign name h m.aliases }
      return .ok h
  | .block function name => do
      let h ← fresh
      let count := ((← get).blocksOf function).length
      let name := if name.isEmpty then s!"bb{count}" else name
      define h ⟨name, .void, .block function []⟩
      revise function fun
        | .function returns arguments blocks => .function returns arguments (blocks ++ [h])
        | kind => kind
      return .ok h
  | .constant n type => return .ok (← constant n type)
  | .null => return .ok (← nullPointer)
  | .detachedCall callee arguments name type => do
      let h ← fresh
      let arguments ← arguments.mapM operand
      define h ⟨name, type, .instruction none (.call callee arguments)⟩
      return .ok h
  | .call site callee arguments name type => do
      let h ← fresh
      let arguments ← arguments.mapM operand
      let type := type.getD (((← get).returnType? callee).getD .i32)
      define h ⟨name, type, .instruction site (.call callee arguments)⟩
      placed site h append
  | .compare site predicate lhs rhs name => do
      let h ← fresh
      let lhs ← operand lhs
      let rhs ← operand rhs
      define h ⟨name, .i1, .instruction site (.compare predicate lhs rhs)⟩
      placed site h append
  | .cast site kind v type name => do
      let h ← fresh
      let v ← operand v
      define h ⟨name, type, .instruction site (.cast kind v)⟩
      placed site h append
  | .phi site type incoming name => do
      let h ← fresh
      let incoming ← incoming.mapM fun (v, source) => return (← operand v, source)
      define h ⟨name, type, .instruction site (.phi incoming)⟩
      placed site h appendPhi
  | .branch site condition onTrue onFalse => terminate site (.branch condition onTrue onFalse)
  | .jump site target => terminate site (.jump target)
  | .ret site none => terminate site (.ret none)
  | .ret site (some v) => do terminate site (.ret (some (← operand v)))
  | .unreachable site => terminate site .unreachable
  | .addIncoming phi v source => do
      revise phi fun
        | .instruction block (.phi incoming) => .instruction block (.phi (incoming ++ [(v, source)]))
        | kind => kind
      return .ok phi
  | .setCast cast v => do
      revise cast fun
        | .instruction block (.cast kind _) => .instruction block (.cast kind v)
        | kind => kind
      return .ok cast
  | .setAlias synonym v => do
      revise synonym fun
        | .aliasOf _ => .aliasOf v
        | kind => kind
      return .ok synonym

/-- The module after a list of edits, whether they succeed or not. -/
def build (m : Module) (edits : List Edit) : Module :=
  edits.foldl (fun m edit => ((apply edit).run m).2) m

end Module

end ErrorContracts
