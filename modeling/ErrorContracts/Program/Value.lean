import ErrorContracts.Text.Quoted

/-!
# Values of a program

A program is a graph of values: constants, functions, blocks, instructions.  Values refer to each
other by handles, positive numbers that name one value of a module each.
-/

namespace ErrorContracts

abbrev Handle := Nat

inductive Ty where
  | void
  | int (bits : Nat)
  | ptr
  deriving DecidableEq

namespace Ty

def i1 : Ty := int 1

def i32 : Ty := int 32

def render : Ty → String
  | void => "void"
  | int bits => s!"i{bits}"
  | ptr => "ptr"

def isPointer : Ty → Bool
  | ptr => true
  | _ => false

def isInteger : Ty → Bool
  | int _ => true
  | _ => false

end Ty

/-- Integer comparisons; the ordered ones come unsigned and signed. -/
inductive Predicate where
  | eq
  | ne
  | ugt
  | uge
  | ult
  | ule
  | sgt
  | sge
  | slt
  | sle
  deriving DecidableEq

namespace Predicate

def all : List Predicate := [eq, ne, ugt, uge, ult, ule, sgt, sge, slt, sle]

def word : Predicate → String
  | eq => "eq"
  | ne => "ne"
  | ugt => "ugt"
  | uge => "uge"
  | ult => "ult"
  | ule => "ule"
  | sgt => "sgt"
  | sge => "sge"
  | slt => "slt"
  | sle => "sle"

def read : String → Except Text.UnknownWord Predicate :=
  Text.readWord "CmpPredicate" all word

end Predicate

inductive CastKind where
  | bitcast
  | trunc
  | zext
  | sext
  | inttoptr
  | ptrtoint
  deriving DecidableEq

namespace CastKind

def all : List CastKind := [bitcast, trunc, zext, sext, inttoptr, ptrtoint]

def word : CastKind → String
  | bitcast => "bitcast"
  | trunc => "trunc"
  | zext => "zext"
  | sext => "sext"
  | inttoptr => "inttoptr"
  | ptrtoint => "ptrtoint"

def read : String → Except Text.UnknownWord CastKind :=
  Text.readWord "CastKind" all word

end CastKind

/-- A value of the module, or an integer that is none. -/
inductive Operand where
  | value (handle : Handle)
  | literal (n : Int)
  deriving DecidableEq

/-- An instruction that control runs through. -/
inductive Op where
  | call (callee : Handle) (arguments : List Handle)
  | compare (predicate : Predicate) (lhs rhs : Handle)
  | cast (kind : CastKind) (operand : Handle)
  | phi (incoming : List (Handle × Handle))
  deriving DecidableEq

namespace Op

def isPhi : Op → Bool
  | phi _ => true
  | _ => false

end Op

/-- An instruction that ends a block. -/
inductive Terminator where
  | branch (condition : Operand) (onTrue onFalse : Handle)
  | jump (target : Handle)
  | ret (value : Option Handle)
  | unreachable
  deriving DecidableEq

namespace Terminator

/-- The blocks that may follow; a branch with equal targets has one. -/
def successors : Terminator → List Handle
  | branch _ onTrue onFalse => if onTrue = onFalse then [onTrue] else [onTrue, onFalse]
  | jump target => [target]
  | ret _ => []
  | unreachable => []

end Terminator

/-- What a value is.  An instruction that was never put into a block has none. -/
inductive Kind where
  | constant (value : Int)
  | null
  | argument (function : Handle) (index : Nat)
  | external (returns : Ty)
  | function (returns : Ty) (arguments blocks : List Handle)
  | aliasOf (target : Handle)
  | block (function : Handle) (instructions : List Handle)
  | instruction (block : Option Handle) (op : Op)
  | terminator (block : Option Handle) (exit : Terminator)
  deriving DecidableEq

structure Value where
  name : String
  type : Ty
  kind : Kind
  deriving DecidableEq

/-- The value that flows into a phi along the edge from a block: the first one listed for it. -/
def incomingFor (incoming : List (Handle × Handle)) (source : Handle) : Option Handle :=
  (incoming.find? fun entry => entry.2 = source).map Prod.fst

end ErrorContracts
