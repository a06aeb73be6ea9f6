import ErrorContracts.Formula.Basic
import ErrorContracts.Text.Quoted

/-!
# Formulas as text

`render` is the infix form that reports show.  `outline` spells out every node with its fields; it
is defined for unfinished formulas as well and appears in the message about them.
-/

namespace ErrorContracts

namespace Relation

def read : String → Except Text.UnknownWord Relation :=
  Text.readWord "RelOp" all symbol

def label : Relation → String
  | eq => "EQ"
  | ne => "NE"
  | lt => "LT"
  | le => "LE"
  | gt => "GT"
  | ge => "GE"

end Relation

namespace Formula

def render : Formula → String
  | absent => "?"
  | bool b => if b then "true" else "false"
  | symbol name => name
  | int n => toString n
  | relation op lhs rhs => s!"({lhs.render} {op.symbol} {rhs.render})"
  | foreign op lhs rhs => s!"({lhs.render} {op} {rhs.render})"
  | and lhs rhs => s!"({lhs.render} ∧ {rhs.render})"
  | or lhs rhs => s!"({lhs.render} ∨ {rhs.render})"
  | not operand => s!"¬{operand.render}"

def outline : Formula → String
  | absent => "None"
  | bool b => if b then "BoolConst(value=True)" else "BoolConst(value=False)"
  | symbol name => s!"Symbol(name={Text.quoted name})"
  | int n => s!"IntConst(value={n})"
  | relation op lhs rhs =>
      s!"Relation(op=<RelOp.{op.label}: {Text.quoted op.symbol}>, lhs={lhs.outline}, rhs={rhs.outline})"
  | foreign op lhs rhs =>
      s!"Relation(op={Text.quoted op}, lhs={lhs.outline}, rhs={rhs.outline})"
  | and lhs rhs => s!"Conjunction(lhs={lhs.outline}, rhs={rhs.outline})"
  | or lhs rhs => s!"Disjunction(lhs={lhs.outline}, rhs={rhs.outline})"
  | not operand => s!"Negation(operand={operand.outline})"

end Formula

end ErrorContracts
