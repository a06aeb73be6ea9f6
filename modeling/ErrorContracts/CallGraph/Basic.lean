import ErrorContracts.Environment.IndirectCalls

/-!
# Call graphs

The nodes are functions, in the order in which they are first listed.  Each call has an edge to every
function it may reach that is a node.
-/

namespace ErrorContracts

inductive Resolution where
  | direct
  | indirect
  deriving DecidableEq

def Resolution.word : Resolution → String
  | direct => "direct"
  | indirect => "indirect"

structure CallEdge where
  caller : Handle
  callee : Handle
  call : Handle
  resolution : Resolution
  deriving DecidableEq

structure CallGraph where
  nodes : List Handle
  edges : List CallEdge

namespace CallGraph

/-- The edges of one call. -/
def edgesOfCall (m : Module) (calls : IndirectCalls) (nodes : List Handle) (caller call : Handle) :
    List CallEdge :=
  match m.op? call with
  | some (.call callee _) =>
      let resolution := if (m.calledFunction? callee).isSome then .direct else .indirect
      ((callTargets m calls callee).filter fun f => m.isFunction f && f ∈ nodes).map fun f =>
        ⟨caller, f, call, resolution⟩
  | _ => []

/-- The edges of all calls of a function, block by block. -/
def edgesOfFunction (m : Module) (calls : IndirectCalls) (nodes : List Handle) (caller : Handle) :
    List CallEdge :=
  (m.blocksOf caller).flatMap fun b =>
    (m.instructionsOf b).flatMap (edgesOfCall m calls nodes caller)

/-- The call graph of some functions; a function that is listed twice has its edges twice. -/
def ofFunctions (m : Module) (calls : IndirectCalls) (functions : List Handle) : CallGraph :=
  let nodes := functions.eraseDups
  ⟨nodes, functions.flatMap (edgesOfFunction m calls nodes)⟩

/-- The callees of a node, one for each edge. -/
def callees (g : CallGraph) (f : Handle) : List Handle :=
  (g.edges.filter fun e => e.caller = f).map CallEdge.callee

def describe (g : CallGraph) : String :=
  s!"CallGraph(nodes={g.nodes.length}, edges={g.edges.length})"

def describeNode (m : Module) (f : Handle) : String :=
  s!"CallGraphNode({Text.quoted (m.nameOf f)})"

def describeEdge (m : Module) (e : CallEdge) : String :=
  s!"CallGraphEdge({m.nameOf e.caller} -> {m.nameOf e.callee}, {e.resolution.word})"

end CallGraph

end ErrorContracts
