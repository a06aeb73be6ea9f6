import ErrorContracts.Flow.ControlDependence
import ErrorContracts.Program.Module

/-!
# Routines

A routine is the body of a defined function in a form the analyses rely on: it has a block, each
block ends in its only terminator, and control stays inside the function.  Its flow graph has the
blocks and one further node, 0, for leaving the function.  Dominators, post-dominators and control
dependence are computed once and kept with the routine.
-/

namespace ErrorContracts

/-- An instruction at its handle. -/
structure Step where
  handle : Handle
  op : Op
  deriving DecidableEq

/-- The instructions of a block that control runs through. -/
def Module.stepsIn (m : Module) (block : Handle) : List Step :=
  (m.instructionsOf block).filterMap fun h => (m.op? h).map fun op => ⟨h, op⟩

/-- A block: the instructions that control runs through, and the terminator at its handle. -/
structure Block where
  handle : Handle
  name : String
  steps : List Step
  exit : Handle
  terminator : Terminator
  deriving DecidableEq

/-- The node of a flow graph that stands for leaving the function. -/
def exitNode : Nat := 0

namespace Block

/-- The nodes that may follow a block. -/
def targets (b : Block) : List Nat :=
  match b.terminator with
  | .ret _ => [exitNode]
  | .unreachable => [exitNode]
  | t => t.successors

/-- Whether a block does nothing but pass a value on: phis, then a jump or a return. -/
def isForwarding (b : Block) : Bool :=
  (b.steps.all fun step => step.op.isPhi) &&
    match b.terminator with
    | .jump _ => true
    | .ret _ => true
    | _ => false

/-- What flows into a value along the edge from `source`, if the value is a phi of the block. -/
def through (b : Block) (source v : Handle) : Handle :=
  match b.steps.find? fun step => step.handle = v with
  | some ⟨_, .phi incoming⟩ => (incomingFor incoming source).getD v
  | _ => v

def hasPhi (b : Block) (v : Handle) : Bool :=
  b.steps.any fun step => step.handle = v && step.op.isPhi

end Block

/-- The flow graph of a list of blocks, entered at the first. -/
def flowGraph (blocks : List Block) : Graph Nat where
  entry := (blocks.head?.map Block.handle).getD exitNode
  adjacency := blocks.map (fun b => (b.handle, b.targets)) ++ [(exitNode, [])]

structure Routine where
  handle : Handle
  name : String
  blocks : List Block
  graph : Graph Nat := flowGraph blocks
  idom : ParentMap Nat := graph.dominators
  ipdom : ParentMap Nat := graph.postDominators exitNode
  dependence : List (Nat × SortedSet Nat) := graph.dependence ipdom
  nonempty : blocks ≠ []
  closed : ∀ b ∈ blocks, ∀ s ∈ b.terminator.successors, s ∈ blocks.map Block.handle
  graph_eq : graph = flowGraph blocks := by rfl
  idom_eq : idom = graph.dominators := by rfl
  ipdom_eq : ipdom = graph.postDominators exitNode := by rfl
  dependence_eq : dependence = graph.dependence ipdom := by rfl

/-- Why a function has no routine. -/
inductive Malformed where
  | noBody (function : String)
  | noTerminator (block function : String)
  | earlyTerminator (block function : String)
  | foreignTarget (block function target : String)
  deriving DecidableEq

def Malformed.message : Malformed → String
  | noBody f => s!"function {Text.quoted f} has no body"
  | noTerminator b f => s!"block {Text.quoted b} in {Text.quoted f} has no terminator"
  | earlyTerminator b f => s!"terminator in the middle of block {Text.quoted b} in {Text.quoted f}"
  | foreignTarget b f t =>
      s!"block {Text.quoted b} in {Text.quoted f} branches to foreign block {Text.quoted t}"

namespace Routine

/-- The instructions in front of a terminator; a terminator among them is refused. -/
def stepsOf? (m : Module) (handles : List Handle) : Option (List Step) :=
  handles.mapM fun h => (m.op? h).map fun op => ⟨h, op⟩

/-- Reads a block of a function that owns the blocks `owned`. -/
def readBlock (m : Module) (function : String) (owned : List Handle) (b : Handle) :
    Except Malformed Block :=
  match (m.instructionsOf b).getLast?.bind fun h => (m.terminator? h).map fun t => (h, t) with
  | none => .error (.noTerminator (m.nameOf b) function)
  | some (exit, terminator) =>
      match stepsOf? m (m.instructionsOf b).dropLast with
      | none => .error (.earlyTerminator (m.nameOf b) function)
      | some steps =>
          match terminator.successors.find? fun s => s ∉ owned with
          | some s => .error (.foreignTarget (m.nameOf b) function (m.nameOf s))
          | none => .ok { handle := b, name := m.nameOf b, steps, exit, terminator }

theorem readBlock_ok {m : Module} {function : String} {owned : List Handle} {h : Handle}
    {b : Block} (read : readBlock m function owned h = .ok b) :
    b.handle = h ∧ ∀ s ∈ b.terminator.successors, s ∈ owned := by
  unfold readBlock at read
  split at read
  · cases read
  · split at read
    · cases read
    · split at read
      · cases read
      · rename_i hs
        cases read
        exact ⟨rfl, by simpa using hs⟩

theorem readBlocks_ok {m : Module} {function : String} {owned handles : List Handle}
    {blocks : List Block} (read : handles.mapM (readBlock m function owned) = .ok blocks) :
    blocks.map Block.handle = handles ∧
      ∀ b ∈ blocks, ∀ s ∈ b.terminator.successors, s ∈ owned := by
  induction handles generalizing blocks with
  | nil => cases read; simp
  | cons h rest ih =>
    rw [List.mapM_cons] at read
    cases first : readBlock m function owned h with
    | error e => rw [first] at read; cases read
    | ok b =>
      cases others : rest.mapM (readBlock m function owned) with
      | error e => rw [first, others] at read; cases read
      | ok found =>
        rw [first, others] at read
        cases read
        obtain ⟨same, inside⟩ := readBlock_ok first
        obtain ⟨handles_eq, insideRest⟩ := ih others
        exact ⟨by simp [same, handles_eq], by simpa using ⟨inside, insideRest⟩⟩

/-- Reads the body of a function. -/
def ofFunction (m : Module) (f : Handle) : Except Malformed Routine :=
  match read : (m.blocksOf f).mapM (readBlock m (m.nameOf f) (m.blocksOf f)) with
  | .error e => .error e
  | .ok blocks =>
      if nonempty : blocks = [] then .error (.noBody (m.nameOf f))
      else
        have closed : ∀ b ∈ blocks, ∀ s ∈ b.terminator.successors, s ∈ blocks.map Block.handle := by
          obtain ⟨handles_eq, inside⟩ := readBlocks_ok read
          rw [handles_eq]
          exact inside
        .ok { handle := f, name := m.nameOf f, blocks, nonempty, closed }

def block? (r : Routine) (h : Handle) : Option Block :=
  r.blocks.find? fun b => b.handle = h

/-- The blocks that may follow a block. -/
def successors (r : Routine) (b : Block) : List Block :=
  b.terminator.successors.filterMap r.block?

def predecessors (r : Routine) (b : Block) : List Block :=
  (r.graph.preds b.handle).filterMap r.block?

def singlePredecessor? (r : Routine) (b : Block) : Option Block :=
  match r.predecessors b with
  | [p] => some p
  | _ => none

def dominates (r : Routine) (a b : Handle) : Bool := r.idom.isAbove a b

/-- Every block with the blocks it dominates. -/
def dominance (r : Routine) : List (Handle × List Handle) :=
  let lines := r.blocks.map fun b => (b.handle, b.handle :: r.idom.ancestors b.handle)
  r.blocks.map fun a =>
    (a.handle, (lines.filter fun (_, line) => a.handle ∈ line).map Prod.fst)

/-- The nodes that a block is control dependent on. -/
def controllers (r : Routine) (b : Handle) : SortedSet Nat := controllersIn r.dependence b

/-- The nodes that are control dependent on a block. -/
def dependents (r : Routine) (b : Handle) : SortedSet Nat := dependentsIn r.dependence b

/-- The blocks among some nodes, in ascending order of their terminators. -/
def byTerminator (r : Routine) (nodes : List Nat) : List Block :=
  (nodes.filterMap r.block?).mergeSort fun a b => a.exit ≤ b.exit

/-- The blocks whose terminators directly control a block. -/
def directControllers (r : Routine) (b : Handle) : List Block :=
  r.byTerminator (r.controllers b).toList

/-- The blocks whose terminators control a block, directly or through others. -/
def allControllers (r : Routine) (b : Handle) : List Block :=
  r.byTerminator (explore (fun n => (r.controllers n).toList) (r.blocks.map Block.handle)
    (r.controllers b).toList)

def describe (r : Routine) : String := s!"FunctionModel({r.name})"

end Routine

end ErrorContracts
