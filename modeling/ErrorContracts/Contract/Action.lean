import ErrorContracts.Collection.OrderBy
import ErrorContracts.Collection.SortedMap
import ErrorContracts.Text.Quoted

/-!
# Reporting actions

An action is a call on an error path, with those of its arguments that say something about the error:
integer literals and parameters of the enclosing function that are passed on.  Actions are ordered by
name, then by their arguments.
-/

namespace ErrorContracts

/-- What is passed to a reporting call. -/
inductive ActionArgument where
  | literal (value : Int)
  | parameter (type : String) (index : Int)
  deriving DecidableEq

namespace ActionArgument

/-- The sort key: literals first, by value, then parameters by index and type. -/
def key : ActionArgument → Nat × (Int × String)
  | literal n => (0, n, "")
  | parameter type index => (1, index, type)

theorem key_injective {a b : ActionArgument} (h : a.key = b.key) : a = b := by
  cases a <;> cases b <;> simp_all [key]

def render : ActionArgument → String
  | literal n => s!"ErrorInt(value={n})"
  | parameter type index => s!"ErrorArgument(type_name={Text.quoted type}, index={index})"

end ActionArgument

structure Action where
  name : String
  arguments : List (Int × ActionArgument)
  deriving DecidableEq

namespace Action

attribute [local instance] lexOrd

def key (a : Action) : String × List (Int × (Nat × (Int × String))) :=
  (a.name, a.arguments.map fun (position, argument) => (position, argument.key))

theorem key_injective {a b : Action} (h : a.key = b.key) : a = b := by
  cases a with
  | mk name arguments =>
    cases b with
    | mk name' arguments' =>
      simp only [key, Prod.mk.injEq] at h
      obtain ⟨rfl, h⟩ := h
      congr
      refine (List.map_inj_right ?_).1 h
      rintro ⟨p, x⟩ ⟨q, y⟩ same
      simp only [Prod.mk.injEq] at same
      exact Prod.ext same.1 (ActionArgument.key_injective same.2)

instance : Ord Action := orderBy key

instance : Std.TransOrd Action := orderBy_trans key

instance : Std.LawfulEqOrd Action := orderBy_lawful key key_injective

/-- The arguments of an action by position; the last one at a position counts. -/
def argumentMap (arguments : List (Int × ActionArgument)) : SortedMap Int ActionArgument :=
  arguments.foldl (fun found (position, argument) => found.insert position argument) ∅

/-- The action with the arguments of a map, in ascending order of their positions. -/
def ofMap (name : String) (arguments : SortedMap Int ActionArgument) : Action :=
  ⟨name, arguments.toList⟩

def render (a : Action) : String :=
  let arguments := a.arguments.map fun (position, argument) => s!"{position}={argument.render}"
  let listed := String.intercalate ", " arguments
  s!"{a.name}({listed})"

end Action

end ErrorContracts
