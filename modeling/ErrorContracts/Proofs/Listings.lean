import ErrorContracts.Program.Build
import Mathlib.Data.List.Infix
import Mathlib.Data.List.Nodup

/-!
# What a module lists

A module and its values list handles: the module its functions, external functions, aliases and
constants, a function its arguments and blocks, a block its instructions.  However a module is built,
each handle that was given out names one value, which keeps its name, its type and all that is not
overwritten.  Every listed value tells where it is listed, so it is listed there alone, and once.  In
a block the phis come first.

An edit takes handles before it defines the values for them, and other values are made in between.
So the invariant is stated with the handles that are reserved at the moment.
-/

namespace ErrorContracts

/-! ## Listings -/

/-- A list of handles that a module keeps, in its books or in one of its values. -/
inductive Listing where
  | functions
  | external (name : String)
  | synonym (name : String)
  | constant (n : Int) (type : Ty)
  | null
  | arguments (function : Handle)
  | blocks (function : Handle)
  | instructions (block : Handle)
  deriving DecidableEq

namespace Kind

/-- The arguments that a value owns. -/
def arguments : Kind → List Handle
  | .function _ arguments _ => arguments
  | _ => []

/-- The blocks that a value owns. -/
def blocks : Kind → List Handle
  | .function _ _ blocks => blocks
  | _ => []

/-- The instructions and terminators that a value lists. -/
def instructions : Kind → List Handle
  | .block _ instructions => instructions
  | _ => []

def isPhi : Kind → Bool
  | .instruction _ op => op.isPhi
  | _ => false

/-- What is never changed: all but blocks, instructions and the operands of phis, casts and aliases. -/
def frame : Kind → Kind
  | .function returns arguments _ => .function returns arguments []
  | .aliasOf _ => .aliasOf 0
  | .block owner _ => .block owner []
  | .instruction site (.cast kind _) => .instruction site (.cast kind 0)
  | .instruction site (.phi _) => .instruction site (.phi [])
  | kind => kind

theorem arguments_frame (kind : Kind) : kind.frame.arguments = kind.arguments := by
  unfold frame
  split <;> rfl

theorem isPhi_frame (kind : Kind) : kind.frame.isPhi = kind.isPhi := by
  unfold frame
  split <;> rfl

end Kind

namespace Value

/-- The list to which a value belongs, as the value itself tells. -/
def listing? (v : Value) : Option Listing :=
  match v.kind with
  | .constant n => some (.constant n v.type)
  | .null => some .null
  | .argument function _ => some (.arguments function)
  | .external _ => some (.external v.name)
  | .function _ _ _ => some .functions
  | .aliasOf _ => some (.synonym v.name)
  | .block function _ => some (.blocks function)
  | .instruction block _ => block.map .instructions
  | .terminator block _ => block.map .instructions

def frame (v : Value) : Value := { v with kind := v.kind.frame }

theorem listing?_frame (v : Value) : v.frame.listing? = v.listing? := by
  obtain ⟨name, type, kind⟩ := v
  cases kind with
  | instruction block op => cases op <;> rfl
  | _ => rfl

end Value

namespace Module

/-- The handles in a list of a module. -/
def listed (m : Module) : Listing → List Handle
  | .functions => m.functions
  | .external name => (Bindings.find? name m.externals).toList
  | .synonym name => (Bindings.find? name m.aliases).toList
  | .constant n type => (Bindings.find? (n, type) m.constants).toList
  | .null => m.null.toList
  | .arguments function => m.argumentsOf function
  | .blocks function => m.blocksOf function
  | .instructions block => m.instructionsOf block

/-- What is never changed of the value at a handle. -/
def frame? (m : Module) (h : Handle) : Option Value := (m.value? h).map Value.frame

/-- The list to which the value at a handle belongs. -/
def home? (m : Module) (h : Handle) : Option Listing := (m.value? h).bind Value.listing?

/-- The handles in a part of the value at a handle. -/
def part (m : Module) (part : Kind → List Handle) (h : Handle) : List Handle :=
  ((m.value? h).map fun v => part v.kind).getD []

theorem argumentsOf_eq (m : Module) (f : Handle) : m.argumentsOf f = m.part Kind.arguments f := by
  unfold argumentsOf part kind?
  cases m.value? f with
  | none => rfl
  | some v =>
      obtain ⟨name, type, kind⟩ := v
      cases kind <;> rfl

theorem blocksOf_eq (m : Module) (f : Handle) : m.blocksOf f = m.part Kind.blocks f := by
  unfold blocksOf part kind?
  cases m.value? f with
  | none => rfl
  | some v =>
      obtain ⟨name, type, kind⟩ := v
      cases kind <;> rfl

theorem instructionsOf_eq (m : Module) (b : Handle) :
    m.instructionsOf b = m.part Kind.instructions b := by
  unfold instructionsOf part kind?
  cases m.value? b with
  | none => rfl
  | some v =>
      obtain ⟨name, type, kind⟩ := v
      cases kind <;> rfl

theorem isPhi_eq (m : Module) (h : Handle) :
    m.isPhi h = ((m.frame? h).map fun v => v.kind.isPhi).getD false := by
  unfold isPhi op? kind? frame?
  cases m.value? h with
  | none => rfl
  | some v =>
      obtain ⟨name, type, kind⟩ := v
      simp only [Option.map_some, Option.getD_some, Value.frame, Kind.isPhi_frame]
      cases kind <;> rfl

theorem home?_eq (m : Module) (h : Handle) : m.home? h = (m.frame? h).bind Value.listing? := by
  unfold home? frame?
  cases m.value? h with
  | none => rfl
  | some v => exact (Value.listing?_frame v).symm

theorem isSome_frame? (m : Module) (h : Handle) : (m.frame? h).isSome = (m.value? h).isSome :=
  Option.isSome_map

theorem value?_of_home? {m : Module} {h : Handle} {l : Listing} (home : m.home? h = some l) :
    ∃ v, m.value? h = some v ∧ v.listing? = some l :=
  Option.bind_eq_some_iff.1 home

/-! ## The invariant -/

/--
Each handle below the next one names a value or is reserved, what is listed belongs to its list and
stands there once, and the phis lead their blocks.
-/
structure Tidy (reserved : List Handle) (m : Module) : Prop where
  positive : 0 < m.next
  given : ∀ h, (0 < h ∧ h < m.next) ↔ (m.value? h).isSome = true ∨ h ∈ reserved
  vacant : ∀ h ∈ reserved, m.value? h = none
  distinct : reserved.Nodup
  placed : ∀ l, ∀ h ∈ m.listed l, m.home? h = some l
  once : ∀ l, (m.listed l).Nodup
  phisLead : ∀ b, m.phisOf b <+: m.instructionsOf b

/-- Later values: the old ones keep their handles and what is never changed, the constants too. -/
structure Extends (m m' : Module) : Prop where
  next : m.next ≤ m'.next
  frames : ∀ h v, m.frame? h = some v → m'.frame? h = some v
  constants : ∀ n type, ∀ h ∈ m.listed (.constant n type), h ∈ m'.listed (.constant n type)

/-- The value at the handle is not listed yet. -/
structure Loose (m : Module) (h : Handle) (v : Value) : Prop where
  value : m.value? h = some v
  unlisted : ∀ l, h ∉ m.listed l

theorem Extends.refl (m : Module) : m.Extends m :=
  ⟨Nat.le_refl _, fun _ _ => id, fun _ _ _ => id⟩

theorem Extends.trans {m m' m'' : Module} (first : m.Extends m') (second : m'.Extends m'') :
    m.Extends m'' where
  next := Nat.le_trans first.next second.next
  frames h v found := second.frames h v (first.frames h v found)
  constants n type h listed := second.constants n type h (first.constants n type h listed)

/-- From a module with the first property an action leads to an extension with the second. -/
structure Builds {α : Type} (before : Module → Prop) (action : StateM Module α)
    (after : α → Module → Prop) : Prop where
  run : ∀ m, before m →
    m.Extends (action.run m).2 ∧ after (action.run m).1 (action.run m).2

namespace Builds

variable {α β : Type} {P P' : Module → Prop} {Q Q' : α → Module → Prop} {R : β → Module → Prop}

theorem pure {a : α} (holds : ∀ m, P m → Q a m) : Builds P (Pure.pure a) Q :=
  ⟨fun m before => ⟨.refl m, holds m before⟩⟩

theorem bind {action : StateM Module α} {next : α → StateM Module β} (first : Builds P action Q)
    (rest : ∀ a, Builds (Q a) (next a) R) : Builds P (action >>= next) R := by
  constructor
  intro m before
  obtain ⟨extends₁, between⟩ := first.run m before
  obtain ⟨extends₂, after⟩ := (rest _).run _ between
  exact ⟨extends₁.trans extends₂, after⟩

theorem get_bind {next : Module → StateM Module β}
    (rest : ∀ m, Builds (fun m' => m' = m ∧ P m') (next m) R) : Builds P (get >>= next) R :=
  ⟨fun m before => (rest m).run m ⟨rfl, before⟩⟩

theorem weaken {action : StateM Module α} (builds : Builds P action Q) (before : ∀ m, P' m → P m)
    (after : ∀ a m, Q a m → Q' a m) : Builds P' action Q' := by
  constructor
  intro m holds
  obtain ⟨extends', holds⟩ := builds.run m (before m holds)
  exact ⟨extends', after _ _ holds⟩

theorem mapM {f : α → StateM Module β} (each : ∀ a, Builds P (f a) fun _ => P) (l : List α) :
    Builds P (l.mapM f) fun _ => P := by
  induction l with
  | nil => exact pure fun _ => id
  | cons a l ih =>
      rw [List.mapM_cons]
      exact bind (each a) fun _ => bind ih fun _ => pure fun _ => id

theorem keep_next {action : StateM Module α} (builds : Builds P action Q) (start : Handle) :
    Builds (fun m => P m ∧ start ≤ m.next) action fun a m => Q a m ∧ start ≤ m.next := by
  constructor
  rintro m ⟨before, above⟩
  obtain ⟨extends', after⟩ := builds.run m before
  exact ⟨extends', after, Nat.le_trans above extends'.next⟩

/-- What is never changed of a value is known afterwards, too. -/
theorem keep {action : StateM Module α} (builds : Builds P action Q) (h : Handle) (v : Value) :
    Builds (fun m => P m ∧ m.frame? h = some v) action fun a m => Q a m ∧ m.frame? h = some v := by
  constructor
  rintro m ⟨before, found⟩
  obtain ⟨extends', after⟩ := builds.run m before
  exact ⟨extends', after, extends'.frames h v found⟩

end Builds

end Module

end ErrorContracts
