import ErrorContracts.Proofs.Building
import ErrorContracts.Proofs.Components
import ErrorContracts.Proofs.Convergence
import ErrorContracts.Proofs.Defects
import ErrorContracts.Proofs.Postorder

/-!
# The order of visits

Without recursion the visits go callees first, so that no routine stands in front of one whose
results it uses.  Then inference comes to an end, and what it finds does not depend on the order in
which the functions are listed.  It finds the same in the order of the list itself where that is such
an order; where it is not, a caller may be taken to report success before the codes of its callee are
known, and this is never taken back.
-/

namespace ErrorContracts

variable {σ : Type}

/-! ## Call graphs of functions -/

namespace CallGraph

/-- One function has a call that may reach the other. -/
def Calls (m : Module) (calls : IndirectCalls) (f g : Handle) : Prop :=
  m.isFunction g = true ∧ ∃ b ∈ m.blocksOf f, ∃ call ∈ m.instructionsOf b, ∃ callee arguments,
    m.op? call = some (.call callee arguments) ∧ g ∈ callTargets m calls callee

variable {m : Module} {calls : IndirectCalls} {functions others : List Handle} {f g : Handle}

theorem mem_callees :
    g ∈ (ofFunctions m calls functions).callees f ↔
      f ∈ functions ∧ g ∈ functions ∧ Calls m calls f g := by
  simp only [callees, ofFunctions, List.mem_map, List.mem_filter, List.mem_flatMap, edgesOfFunction,
    decide_eq_true_eq]
  constructor
  · rintro ⟨e, ⟨⟨caller, listed, b, block, call, inside, edge⟩, rfl⟩, rfl⟩
    unfold edgesOfCall at edge
    split at edge
    · rename_i callee arguments op
      obtain ⟨g, target, rfl⟩ := List.mem_map.1 edge
      obtain ⟨target, node⟩ := List.mem_filter.1 target
      obtain ⟨defined, node⟩ := (Bool.and_eq_true ..).mp node
      have named : g ∈ functions := by simpa using node
      exact ⟨listed, named, defined, b, block, call, inside, callee, arguments, op, target⟩
    · cases edge
  · rintro ⟨listed, node, defined, b, block, call, inside, callee, arguments, op, target⟩
    have edge : ⟨f, g, call, if (m.calledFunction? callee).isSome then .direct else .indirect⟩ ∈
        edgesOfCall m calls functions.eraseDups f call := by
      rw [edgesOfCall, op]
      refine List.mem_map.2 ⟨g, List.mem_filter.2 ⟨target, ?_⟩, rfl⟩
      simp [defined, node]
    exact ⟨_, ⟨⟨f, listed, b, block, call, inside, edge⟩, rfl⟩, rfl⟩

theorem closed_ofFunctions : (ofFunctions m calls functions).Closed where
  distinct := nodup_eraseDups functions
  inside f _ g called := by
    have listed := (mem_callees.1 called).2.1
    simpa [ofFunctions] using listed

theorem mem_bottomUp : f ∈ (ofFunctions m calls functions).bottomUp ↔ f ∈ functions := by
  rw [(bottomUp_perm closed_ofFunctions).mem_iff]
  simp [ofFunctions]

theorem acyclic_of_rank {g : CallGraph} (rank : Handle → Nat)
    (falls : ∀ e ∈ g.edges, rank e.callee < rank e.caller) : g.Acyclic := by
  have down : ∀ f h, Relation.TransGen (fun v w => w ∈ g.callees v) f h → rank h < rank f := by
    intro f h path
    have step : ∀ v w, w ∈ g.callees v → rank w < rank v := by
      intro v w called
      obtain ⟨e, edge, rfl⟩ := List.mem_map.1 called
      obtain ⟨listed, here⟩ := List.mem_filter.1 edge
      have caller : e.caller = v := by simpa using here
      exact caller ▸ falls e listed
    induction path with
    | single called => exact step _ _ called
    | tail _ called ih => exact (step _ _ called).trans ih
  exact fun f cycle => Nat.lt_irrefl _ (down f f cycle)

theorem Acyclic.of_members (members : ∀ f, f ∈ functions ↔ f ∈ others)
    (acyclic : (ofFunctions m calls functions).Acyclic) : (ofFunctions m calls others).Acyclic := by
  intro f cycle
  refine acyclic f (Relation.TransGen.mono (fun v w called => ?_) f f cycle)
  rw [mem_callees] at called ⊢
  rwa [members, members]

end CallGraph

/-! ## Routines in the order of visits -/

/-- The calls whose results the routine uses stand in its own blocks. -/
def Routine.OwnsCalls (ctx : Context σ) (r : Routine) : Prop :=
  ∀ used ∈ r.usedCalls ctx, ∃ b ∈ r.blocks, used.1 ∈ ctx.program.instructionsOf b.handle

section Order

variable {ctx : Context σ} {functions others : List Handle} {routines : List Routine} {r : Routine}

theorem Routine.op?_of_mem_usedCalls {used : Handle × Handle} (uses : used ∈ r.usedCalls ctx) :
    ∃ arguments, ctx.program.op? used.1 = some (.call used.2 arguments) := by
  obtain ⟨b, -, listed⟩ := List.mem_flatMap.1 uses
  rcases List.mem_append.1 listed with checked | returned
  · obtain ⟨comparison, -, found⟩ := Option.bind_eq_some_iff.1 (Option.mem_toList.1 checked)
    obtain ⟨side, -, isCall⟩ := List.exists_of_findSome?_eq_some found
    split at isCall
    · rename_i arguments op
      cases isCall
      exact ⟨arguments, op⟩
    · cases isCall
  · obtain ⟨call, -, isCall⟩ := Option.bind_eq_some_iff.1 (Option.mem_toList.1 returned)
    split at isCall
    · rename_i arguments op
      cases isCall
      exact ⟨arguments, op⟩
    · cases isCall

theorem Routine.Reads.calls {f : Handle} (reads : r.Reads ctx f) (owns : r.OwnsCalls ctx)
    (read : ofFunction ctx.program r.handle = .ok r) :
    CallGraph.Calls ctx.program ctx.indirect r.handle f := by
  obtain ⟨defined, used, uses, target⟩ := reads
  obtain ⟨b, inside, stands⟩ := owns used uses
  obtain ⟨arguments, op⟩ := op?_of_mem_usedCalls uses
  refine ⟨defined, b.handle, ?_, used.1, stands, used.2, arguments, op, target⟩
  rw [← handles_eq read]
  exact List.mem_map_of_mem inside

/-- Routines of functions that are listed once have nothing in common. -/
theorem pairwise_apart {edits : List Edit} (built : ctx.program = Module.build {} edits)
    (read : ∀ r ∈ routines, Routine.ofFunction ctx.program r.handle = .ok r)
    (distinct : (routines.map Routine.handle).Nodup) : routines.Pairwise Routine.Apart := by
  rw [built] at read
  refine (List.pairwise_map.1 distinct).imp_of_mem fun {r r'} listed listed' other => ⟨other, ?_⟩
  intro b inside b' inside' same
  exact other (Routine.eq_of_shared_block (read r listed) (read r' listed') inside inside' same)

theorem mem_routinesOf_iff (read : routinesOf ctx.program functions = .ok routines) :
    r ∈ routines ↔ r.handle ∈ functions ∧ Routine.ofFunction ctx.program r.handle = .ok r := by
  obtain ⟨handles, each⟩ := routinesOf_ok read
  constructor
  · intro listed
    exact ⟨handles ▸ List.mem_map_of_mem listed, each r listed⟩
  · rintro ⟨listed, own⟩
    rw [← handles] at listed
    obtain ⟨r', listed, same⟩ := List.mem_map.1 listed
    have own' := each r' listed
    rw [same, own] at own'
    cases own'
    exact listed

theorem exists_routinesOf (read : ∀ f ∈ functions, ∃ r, Routine.ofFunction ctx.program f = .ok r) :
    ∃ routines, routinesOf ctx.program functions = .ok routines :=
  exists_mapM_ok.2 read

theorem find?_handle_isSome {f : Handle} (listed : f ∈ routines.map Routine.handle) :
    (routines.find? fun r => r.handle = f).isSome = true := by
  obtain ⟨r, listed, same⟩ := List.mem_map.1 listed
  exact List.find?_isSome.2 ⟨r, listed, by simpa using same⟩

section CalleesFirst

variable (first : ctx.options.calleesFirst = true)
  (read : routinesOf ctx.program functions = .ok routines)

include first read

theorem handles_visitOrder :
    (visitOrder ctx routines).map Routine.handle =
      (CallGraph.ofFunctions ctx.program ctx.indirect functions).bottomUp := by
  have handles := (routinesOf_ok read).1
  rw [visitOrder, if_pos first, handles]
  dsimp only
  have members : ∀ f ∈ (CallGraph.ofFunctions ctx.program ctx.indirect functions).bottomUp,
      f ∈ routines.map Routine.handle := by
    intro f listed
    rw [handles]
    exact CallGraph.mem_bottomUp.1 listed
  generalize (CallGraph.ofFunctions ctx.program ctx.indirect functions).bottomUp = order at members
  induction order with
  | nil => rfl
  | cons f order ih =>
      obtain ⟨head, tail⟩ := List.forall_mem_cons.1 members
      obtain ⟨r, found⟩ := Option.isSome_iff_exists.1 (find?_handle_isSome head)
      have own : r.handle = f := by simpa using List.find?_some found
      simp only [List.filterMap_cons, found, List.map_cons, own, ih tail]

theorem nodup_visitOrder : ((visitOrder ctx routines).map Routine.handle).Nodup := by
  rw [handles_visitOrder first read]
  exact (CallGraph.bottomUp_perm CallGraph.closed_ofFunctions).nodup_iff.2
    CallGraph.closed_ofFunctions.distinct

theorem mem_visitOrder : r ∈ visitOrder ctx routines ↔ r ∈ routines := by
  refine ⟨mem_of_mem_visitOrder, fun listed => ?_⟩
  have node : r.handle ∈ (visitOrder ctx routines).map Routine.handle := by
    rw [handles_visitOrder first read, CallGraph.mem_bottomUp]
    exact ((mem_routinesOf_iff read).1 listed).1
  obtain ⟨r', visited, same⟩ := List.mem_map.1 node
  exact eq_of_handle_eq read listed (mem_of_mem_visitOrder visited) same ▸ visited

/-- Without recursion no routine is visited before one that it reads. -/
theorem layered_visitOrder {edits : List Edit} (built : ctx.program = Module.build {} edits)
    (owns : ∀ r ∈ routines, r.OwnsCalls ctx)
    (acyclic : (CallGraph.ofFunctions ctx.program ctx.indirect functions).Acyclic) :
    Layered ctx (visitOrder ctx routines) := by
  have readAll : ∀ r ∈ visitOrder ctx routines, Routine.ofFunction ctx.program r.handle = .ok r :=
    read_of_mem_visitOrder read
  have callee : ∀ r ∈ visitOrder ctx routines, ∀ r' ∈ visitOrder ctx routines,
      r.Reads ctx r'.handle →
        r'.handle ∈ (CallGraph.ofFunctions ctx.program ctx.indirect functions).callees r.handle := by
    intro r visited r' visited' reads
    have listed := mem_of_mem_visitOrder visited
    have listed' := mem_of_mem_visitOrder visited'
    exact CallGraph.mem_callees.2 ⟨((mem_routinesOf_iff read).1 listed).1,
      ((mem_routinesOf_iff read).1 listed').1, reads.calls (owns r listed) (readAll r visited)⟩
  have order := acyclic.pairwise_bottomUp CallGraph.closed_ofFunctions
  rw [← handles_visitOrder first read, List.pairwise_map] at order
  refine ⟨⟨pairwise_apart built readAll (nodup_visitOrder first read), ?_⟩, fun r visited reads => ?_⟩
  · exact order.imp_of_mem fun {r r'} visited visited' uncalled reads =>
      uncalled (callee r visited r' visited' reads)
  · exact acyclic r.handle (.single (callee r visited r visited reads))

end CalleesFirst

end Order

/-! ## Inference in either order -/

section Either

variable {ctx ctx' : Context σ} {functions others : List Handle} {routines routines' : List Routine}
  {oracle : σ} (exact : ctx.oracle.IsExact oracle) (exact' : ctx'.oracle.IsExact oracle)
  (read : routinesOf ctx.program functions = .ok routines)
  (read' : routinesOf ctx'.program others = .ok routines')

include exact exact' read read'

/-- Two inferences whose rounds find the same settle after the same round. -/
theorem infer_same
    (same : ∀ n, ((Run.initial oracle).after ctx (visitOrder ctx routines) n).findings.Same
      ((Run.initial oracle).after ctx' (visitOrder ctx' routines') n).findings)
    (rests : ∃ n, ((Run.initial oracle).after ctx (visitOrder ctx routines) n).Alike Eq
      ((Run.initial oracle).after ctx (visitOrder ctx routines) (n + 1))) :
    ∃ n run run', (∀ limit > n, infer ctx functions limit oracle = .ok run) ∧
      (∀ limit > n, infer ctx' others limit oracle = .ok run') ∧ run.findings.Same run'.findings := by
  classical
  -- Settling does not look at the log, which the two orders fill in different sequences.
  have alike_iff : ∀ n, ((Run.initial oracle).after ctx (visitOrder ctx routines) n).Alike Eq
        ((Run.initial oracle).after ctx (visitOrder ctx routines) (n + 1)) ↔
      ((Run.initial oracle).after ctx' (visitOrder ctx' routines') n).Alike Eq
        ((Run.initial oracle).after ctx' (visitOrder ctx' routines') (n + 1)) := by
    intro n
    obtain ⟨summary, knowledge, -⟩ := same n
    obtain ⟨summary', knowledge', -⟩ := same (n + 1)
    simp only [Run.summary_findings, Run.knowledge_findings] at summary knowledge summary' knowledge'
    rw [← Run.settled_iff, ← Run.settled_iff, Run.settled, Run.settled, summary, knowledge, summary',
      knowledge']
  let n := Nat.find rests
  have settled := Nat.find_spec rests
  have moved : ∀ k < n, _ := fun k below => Nat.find_min rests below
  refine ⟨n, _, _, fun limit enough => infer_eq_after exact.answers read settled moved enough,
    fun limit enough => infer_eq_after exact'.answers read' ((alike_iff n).1 settled) ?_ enough,
    same (n + 1)⟩
  exact fun k below alike => moved k below ((alike_iff k).2 alike)

/-- Inferences by the same rules, over the same routines in two orders. -/
theorem infer_same_of_perm (rules : Findings.round ctx' = Findings.round ctx)
    (perm : (visitOrder ctx routines).Perm (visitOrder ctx' routines'))
    (layered : Layered ctx (visitOrder ctx routines))
    (arranged : Arranged ctx (visitOrder ctx' routines')) :
    ∃ n run run', (∀ limit > n, infer ctx functions limit oracle = .ok run) ∧
      (∀ limit > n, infer ctx' others limit oracle = .ok run') ∧ run.findings.Same run'.findings := by
  have visited : ∀ r ∈ visitOrder ctx routines, Routine.ofFunction ctx.program r.handle = .ok r :=
    read_of_mem_visitOrder read
  have visited' : ∀ r ∈ visitOrder ctx' routines', Routine.ofFunction ctx'.program r.handle = .ok r :=
    read_of_mem_visitOrder read'
  refine infer_same exact exact' read read' (fun n => ?_)
    (Run.exists_alike_of_layered exact visited layered)
  rw [(Run.findings_after visited (Run.sound_initial exact) n).2,
    (Run.findings_after visited' (Run.sound_initial exact') n).2, rules]
  exact .rounds perm layered.toArranged arranged (.refl _) n

end Either

/--
Without recursion, and visited callees first, functions whose calls are their own have one result:
inference ends, and for two lists of the same functions it gives the same summary, the same
knowledge and the same entries in the log.
-/
theorem infer_same_members {ctx : Context σ} {edits : List Edit} {functions others : List Handle}
    {routines : List Routine} {oracle : σ} (built : ctx.program = Module.build {} edits)
    (exact : ctx.oracle.IsExact oracle) (first : ctx.options.calleesFirst = true)
    (read : routinesOf ctx.program functions = .ok routines)
    (owns : ∀ r ∈ routines, r.OwnsCalls ctx)
    (acyclic : (CallGraph.ofFunctions ctx.program ctx.indirect functions).Acyclic)
    (members : ∀ f, f ∈ functions ↔ f ∈ others) :
    ∃ n run run', (∀ limit > n, infer ctx functions limit oracle = .ok run) ∧
      (∀ limit > n, infer ctx others limit oracle = .ok run') ∧ run.summary = run'.summary ∧
      run.knowledge = run'.knowledge ∧ ∀ d, d ∈ run.diagnostics ↔ d ∈ run'.diagnostics := by
  obtain ⟨routines', read'⟩ : ∃ routines', routinesOf ctx.program others = .ok routines' := by
    refine exists_routinesOf fun f named => ?_
    have named := (members f).2 named
    rw [← (routinesOf_ok read).1] at named
    obtain ⟨r, listed, rfl⟩ := List.mem_map.1 named
    exact ⟨r, (routinesOf_ok read).2 r listed⟩
  have same : ∀ r, r ∈ routines ↔ r ∈ routines' := by
    intro r
    rw [mem_routinesOf_iff read, mem_routinesOf_iff read', members]
  have layered := layered_visitOrder first read built owns acyclic
  have layered' := layered_visitOrder first read' built (fun r listed => owns r ((same r).2 listed))
    (acyclic.of_members members)
  have perm : (visitOrder ctx routines).Perm (visitOrder ctx routines') := by
    refine (List.perm_ext_iff_of_nodup (nodup_visitOrder first read).of_map
      (nodup_visitOrder first read').of_map).2 fun r => ?_
    rw [mem_visitOrder first read, mem_visitOrder first read', same]
  obtain ⟨n, run, run', ends, ends', found⟩ :=
    infer_same_of_perm exact exact read read' rfl perm layered layered'.toArranged
  exact ⟨n, run, run', ends, ends', found.summary, found.knowledge, found.diagnostics⟩

/-- The same environment with visits callees first, or in the order of the list. -/
def Context.visiting (ctx : Context σ) (calleesFirst : Bool) : Context σ :=
  { ctx with options := { ctx.options with calleesFirst } }

theorem Context.program_visiting (ctx : Context σ) (calleesFirst : Bool) :
    (ctx.visiting calleesFirst).program = ctx.program := rfl

theorem Context.visiting_self (ctx : Context σ) : ctx.visiting ctx.options.calleesFirst = ctx := rfl

/--
Without recursion the order of visits does not change what is exported, if the list names each
function once and none in front of one whose results it uses.
-/
theorem contract?_visiting {ctx : Context σ} {edits : List Edit} {functions : List Handle}
    {routines : List Routine} {oracle : σ} (built : ctx.program = Module.build {} edits)
    (exact : ctx.oracle.IsExact oracle) (read : routinesOf ctx.program functions = .ok routines)
    (owns : ∀ r ∈ routines, r.OwnsCalls ctx)
    (acyclic : (CallGraph.ofFunctions ctx.program ctx.indirect functions).Acyclic)
    (distinct : functions.Nodup) (order : routines.Pairwise fun r r' => ¬r.Reads ctx r'.handle) :
    ∃ n run run', (∀ limit > n, infer (ctx.visiting true) functions limit oracle = .ok run) ∧
      (∀ limit > n, infer (ctx.visiting false) functions limit oracle = .ok run') ∧
      ∀ f, run.summary.contract? f = run'.summary.contract? f := by
  obtain ⟨handles, readAll⟩ := routinesOf_ok read
  have once : (routines.map Routine.handle).Nodup := handles ▸ distinct
  have readFirst : routinesOf (ctx.visiting true).program functions = .ok routines := read
  have readList : routinesOf (ctx.visiting false).program functions = .ok routines := read
  have exactFirst : (ctx.visiting true).oracle.IsExact oracle := exact
  have exactList : (ctx.visiting false).oracle.IsExact oracle := exact
  have layered : Layered (ctx.visiting true) (visitOrder (ctx.visiting true) routines) :=
    layered_visitOrder rfl readFirst built owns acyclic
  have arranged : Arranged (ctx.visiting true) routines := ⟨pairwise_apart built readAll once, order⟩
  have perm : (visitOrder (ctx.visiting true) routines).Perm routines :=
    (List.perm_ext_iff_of_nodup (nodup_visitOrder rfl readFirst).of_map once.of_map).2
      fun r => mem_visitOrder rfl readFirst
  obtain ⟨n, run, run', ends, ends', found⟩ :=
    infer_same_of_perm exactFirst exactList readFirst readList rfl perm layered arranged
  refine ⟨n, run, run', ends, ends', fun f => ?_⟩
  have summary : run.summary = run'.summary := found.summary
  rw [summary]

/-! ## Callers in front of callees -/

/--
Three functions, each of which uses the result of the next.  The first returns 3 where the second
returns -5, and -2 elsewhere.  The second returns -1 where `check` fails, and else what the third
returns, and the third returns the result of `deep`, whose error code is -5.
-/
def chain : Context (Recall Nat) where
  program := Module.build {}
    [.external "check" .i32, .external "deep" .i32, .constant (-5) .i32, .constant 3 .i32,
      .constant (-2) .i32, .constant 0 .i32, .constant (-1) .i32,
      .function "f" .i32 [], .function "g" .i32 [], .function "h" .i32 [],
      .block 8 "entry", .block 8 "special", .block 8 "other",
      .call (some 11) 9 [] "k" none, .compare (some 11) .eq (.value 14) (.literal (-5)) "c",
      .branch (some 11) (.value 15) 12 13,
      .ret (some 12) (some (.literal 3)), .ret (some 13) (some (.literal (-2))),
      .block 9 "entry", .block 9 "bad", .block 9 "rest",
      .call (some 19) 1 [] "a" none, .compare (some 19) .slt (.value 22) (.literal 0) "p",
      .branch (some 19) (.value 23) 20 21,
      .ret (some 20) (some (.literal (-1))),
      .call (some 21) 10 [] "s" none, .ret (some 21) (some (.value 26)),
      .block 10 "entry", .call (some 28) 2 [] "d" none, .ret (some 28) (some (.value 29))]
  dependencies :=
    [("check", [.reports ⟨∅, .single .integer (-1)⟩]), ("deep", [.reports ⟨∅, .single .integer (-5)⟩])]
  oracle := Oracle.exact.caching

theorem chain_exact : chain.oracle.IsExact (.fresh 0) := (Oracle.exact_isExact 0).caching

/-- The routines of the three functions, callers in front of callees or the other way round. -/
def chainRoutines (functions : List Handle) : List Routine :=
  (routinesOf chain.program functions).toOption.getD []

theorem chain_evaluated :
    (routinesOf chain.program [8, 9, 10]).isOk = true ∧
      (routinesOf chain.program [10, 9, 8]).isOk = true ∧
      ((chainRoutines [8, 9, 10]).all fun r => (r.usedCalls chain).all fun used =>
        r.blocks.any fun b => (chain.program.instructionsOf b.handle).contains used.1) = true ∧
      ((CallGraph.ofFunctions chain.program chain.indirect [8, 9, 10]).edges.map
        fun e => (e.caller, e.callee)) = [(8, 9), (9, 10)] ∧
      ((chainRoutines [10, 9, 8]).map fun r => (r.handle, (r.usedCalls chain).flatMap
        fun used => callTargets chain.program chain.indirect used.2)) =
          [(10, [2]), (9, [1, 10]), (8, [9])] := by
  decide +kernel

theorem chain_read : routinesOf chain.program [8, 9, 10] = .ok (chainRoutines [8, 9, 10]) :=
  eq_ok_of_isOk [] chain_evaluated.1

theorem chain_read_up : routinesOf chain.program [10, 9, 8] = .ok (chainRoutines [10, 9, 8]) :=
  eq_ok_of_isOk [] chain_evaluated.2.1

theorem chain_owns : ∀ r ∈ chainRoutines [8, 9, 10], r.OwnsCalls chain := by
  obtain ⟨-, -, checked, -⟩ := chain_evaluated
  simpa only [Routine.OwnsCalls, List.all_eq_true, List.any_eq_true, List.contains_iff_mem]
    using checked

theorem chain_acyclic : (CallGraph.ofFunctions chain.program chain.indirect [8, 9, 10]).Acyclic := by
  obtain ⟨-, -, -, edges, -⟩ := chain_evaluated
  refine CallGraph.acyclic_of_rank (fun f => 10 - f) fun e listed => ?_
  have pair : (e.caller, e.callee) ∈ [((8 : Handle), (9 : Handle)), (9, 10)] :=
    edges ▸ List.mem_map_of_mem listed
  simp only [List.mem_cons, Prod.mk.injEq, List.not_mem_nil, or_false] at pair
  obtain ⟨caller, callee⟩ | ⟨caller, callee⟩ := pair
  · simp [caller, callee]
  · simp [caller, callee]

theorem chain_order : (chainRoutines [10, 9, 8]).Pairwise fun r r' => ¬r.Reads chain r'.handle := by
  obtain ⟨-, -, -, -, used⟩ := chain_evaluated
  have apart : ((chainRoutines [10, 9, 8]).map fun r => (r.handle, (r.usedCalls chain).flatMap
      fun used => callTargets chain.program chain.indirect used.2)).Pairwise
        fun reader other => other.1 ∉ reader.2 := by
    rw [used]
    decide
  refine (List.pairwise_map.1 apart).imp fun {r r'} unused reads => unused ?_
  obtain ⟨-, call, uses, target⟩ := reads
  exact List.mem_flatMap.2 ⟨call, uses, target⟩

/-- Two lists of the three functions, one of them with a repetition. -/
theorem infer_same_members_chain :
    ∃ n run run', (∀ limit > n, infer chain [8, 9, 10] limit (.fresh 0) = .ok run) ∧
      (∀ limit > n, infer chain [10, 8, 9, 8] limit (.fresh 0) = .ok run') ∧
      run.summary = run'.summary ∧ run.knowledge = run'.knowledge ∧
      ∀ d, d ∈ run.diagnostics ↔ d ∈ run'.diagnostics := by
  refine infer_same_members (by dsimp only [chain]) chain_exact rfl chain_read chain_owns
    chain_acyclic fun f => ?_
  simp only [List.mem_cons, List.not_mem_nil, or_false]
  tauto

/-- The list with the callees in front. -/
theorem contract?_visiting_chain :
    ∃ n run run', (∀ limit > n, infer (chain.visiting true) [10, 9, 8] limit (.fresh 0) = .ok run) ∧
      (∀ limit > n, infer (chain.visiting false) [10, 9, 8] limit (.fresh 0) = .ok run') ∧
      ∀ f, run.summary.contract? f = run'.summary.contract? f := by
  have members : ∀ f, f ∈ [8, 9, 10] ↔ f ∈ [10, 9, 8] := by
    intro f
    simp only [List.mem_cons, List.not_mem_nil, or_false]
    tauto
  refine contract?_visiting (by dsimp only [chain]) chain_exact chain_read_up (fun r listed => ?_)
    (chain_acyclic.of_members members) (by decide) chain_order
  obtain ⟨named, own⟩ := (mem_routinesOf_iff chain_read_up).1 listed
  exact chain_owns r ((mem_routinesOf_iff chain_read).2 ⟨(members _).2 named, own⟩)

/-- The run over the three functions after some rounds, callees first. -/
def chainRun (n : Nat) : Run (Recall Nat) :=
  (Run.initial (.fresh 0)).after chain (visitOrder chain (chainRoutines [8, 9, 10])) n

/-- The run over the three functions after some rounds, callers first. -/
def listRun (n : Nat) : Run (Recall Nat) :=
  (Run.initial (.fresh 0)).after (chain.visiting false)
    (visitOrder (chain.visiting false) (chainRoutines [8, 9, 10])) n

/-- The codes that are exported for a function. -/
def Run.exportedCodes (a : Run σ) (f : Handle) : List Int :=
  match a.summary.contract? f with
  | .ok (some (contract, _)) => contract.returns.codes.toList
  | _ => []

set_option maxRecDepth 10000 in
theorem chainRun_settles :
    (chainRun 0).settled (chainRun 1) = false ∧ (chainRun 1).settled (chainRun 2) = false ∧
      (chainRun 2).settled (chainRun 3) = true ∧ (chainRun 3).exportedCodes 8 = [-2, 3] := by
  have checked : ((chainRun 0).settled (chainRun 1), (chainRun 1).settled (chainRun 2),
      (chainRun 2).settled (chainRun 3), (chainRun 3).exportedCodes 8) =
        (false, false, true, [-2, 3]) := by
    cbv
  simpa only [Prod.mk.injEq] using checked

set_option maxRecDepth 10000 in
theorem listRun_settles :
    (listRun 0).settled (listRun 1) = false ∧ (listRun 1).settled (listRun 2) = false ∧
      (listRun 2).settled (listRun 3) = true ∧ (listRun 3).exportedCodes 8 = [-2] := by
  have checked : ((listRun 0).settled (listRun 1), (listRun 1).settled (listRun 2),
      (listRun 2).settled (listRun 3), (listRun 3).exportedCodes 8) = (false, false, true, [-2]) := by
    cbv
  simpa only [Prod.mk.injEq] using checked

theorem infer_third_round {ctx : Context σ} {functions : List Handle} {routines : List Routine}
    {oracle : σ} (answers : ctx.oracle.Answers oracle)
    (read : routinesOf ctx.program functions = .ok routines) {rounds : Nat → Run σ}
    (runs : rounds = (Run.initial oracle).after ctx (visitOrder ctx routines))
    (first : (rounds 0).settled (rounds 1) = false) (second : (rounds 1).settled (rounds 2) = false)
    (settled : (rounds 2).settled (rounds 3) = true) :
    infer ctx functions 3 oracle = .ok (rounds 3) := by
  subst runs
  refine infer_eq_of_settled answers read settled (fun k below => ?_) (by decide)
  obtain rfl | rfl : k = 0 ∨ k = 1 := by omega
  · exact first
  · exact second

theorem chain_infer :
    infer (chain.visiting true) [8, 9, 10] 3 (.fresh 0) = .ok (chainRun 3) ∧
      infer (chain.visiting false) [8, 9, 10] 3 (.fresh 0) = .ok (listRun 3) := by
  constructor
  · obtain ⟨first, second, settled, -⟩ := chainRun_settles
    have same : chain.visiting true = chain := Context.visiting_self chain
    rw [same]
    exact infer_third_round chain_exact.answers chain_read rfl first second settled
  · obtain ⟨first, second, settled, -⟩ := listRun_settles
    have read : routinesOf (chain.visiting false).program [8, 9, 10] =
        .ok (chainRoutines [8, 9, 10]) := by
      rw [Context.program_visiting]
      exact chain_read
    have exact : (chain.visiting false).oracle.IsExact (.fresh 0) := chain_exact
    exact infer_third_round exact.answers read rfl first second settled

/--
Callers first, the first function is seen to return 3 where the second is only known to report -1,
which is taken for success.  When the code -5 of the second becomes known, 3 stays a success code.
-/
theorem chain_order_matters :
    routinesOf chain.program [8, 9, 10] = .ok (chainRoutines [8, 9, 10]) ∧
      (∀ r ∈ chainRoutines [8, 9, 10], r.OwnsCalls chain) ∧
      (CallGraph.ofFunctions chain.program chain.indirect [8, 9, 10]).Acyclic ∧
      chain.oracle.IsExact (.fresh 0) ∧
      infer (chain.visiting true) [8, 9, 10] 3 (.fresh 0) = .ok (chainRun 3) ∧
      infer (chain.visiting false) [8, 9, 10] 3 (.fresh 0) = .ok (listRun 3) ∧
      (chainRun 3).exportedCodes 8 = [-2, 3] ∧ (listRun 3).exportedCodes 8 = [-2] := by
  obtain ⟨ends, ends'⟩ := chain_infer
  exact ⟨chain_read, chain_owns, chain_acyclic, chain_exact, ends, ends',
    chainRun_settles.2.2.2, listRun_settles.2.2.2⟩

/-! ## Results of the calls of another function -/

/--
The three functions of the chain, but the call whose result the second returns stands in the first.
So the call graph has no edge from the second to the third.
-/
def borrowed : Context (Recall Nat) where
  program := Module.build {}
    [.external "check" .i32, .external "deep" .i32, .constant (-5) .i32, .constant 3 .i32,
      .constant (-2) .i32, .constant 0 .i32, .constant (-1) .i32,
      .function "f" .i32 [], .function "g" .i32 [], .function "h" .i32 [],
      .block 8 "entry", .block 8 "special", .block 8 "other",
      .call (some 11) 9 [] "k" none, .call (some 11) 10 [] "s" none,
      .compare (some 11) .eq (.value 14) (.literal (-5)) "c", .branch (some 11) (.value 16) 12 13,
      .ret (some 12) (some (.literal 3)), .ret (some 13) (some (.literal (-2))),
      .block 9 "entry", .block 9 "bad", .block 9 "rest",
      .call (some 20) 1 [] "a" none, .compare (some 20) .slt (.value 23) (.literal 0) "p",
      .branch (some 20) (.value 24) 21 22,
      .ret (some 21) (some (.literal (-1))), .ret (some 22) (some (.value 15)),
      .block 10 "entry", .call (some 28) 2 [] "d" none, .ret (some 28) (some (.value 29))]
  dependencies := chain.dependencies
  oracle := Oracle.exact.caching

theorem borrowed_exact : borrowed.oracle.IsExact (.fresh 0) := (Oracle.exact_isExact 0).caching

def borrowedRoutines (functions : List Handle) : List Routine :=
  (routinesOf borrowed.program functions).toOption.getD []

/-- The run over a list of the three functions after some rounds, callees first. -/
def borrowedRun (functions : List Handle) (n : Nat) : Run (Recall Nat) :=
  (Run.initial (.fresh 0)).after borrowed (visitOrder borrowed (borrowedRoutines functions)) n

theorem borrowed_acyclic :
    (CallGraph.ofFunctions borrowed.program borrowed.indirect [10, 9, 8]).Acyclic := by
  have edges : ((CallGraph.ofFunctions borrowed.program borrowed.indirect [10, 9, 8]).edges.map
      fun e => (e.caller, e.callee)) = [(8, 9), (8, 10)] := by
    cbv
  refine CallGraph.acyclic_of_rank (fun f => 10 - f) fun e listed => ?_
  have pair : (e.caller, e.callee) ∈ [((8 : Handle), (9 : Handle)), (8, 10)] :=
    edges ▸ List.mem_map_of_mem listed
  simp only [List.mem_cons, Prod.mk.injEq, List.not_mem_nil, or_false] at pair
  obtain ⟨caller, callee⟩ | ⟨caller, callee⟩ := pair
  · simp [caller, callee]
  · simp [caller, callee]

theorem borrowedRun_ends {functions : List Handle} {codes : List Int}
    (checked : ((routinesOf borrowed.program functions).isOk,
      (borrowedRun functions 0).settled (borrowedRun functions 1),
      (borrowedRun functions 1).settled (borrowedRun functions 2),
      (borrowedRun functions 2).settled (borrowedRun functions 3),
      (borrowedRun functions 3).exportedCodes 8) = (true, false, false, true, codes)) :
    routinesOf borrowed.program functions = .ok (borrowedRoutines functions) ∧
      infer borrowed functions 3 (.fresh 0) = .ok (borrowedRun functions 3) ∧
      (borrowedRun functions 3).exportedCodes 8 = codes := by
  simp only [Prod.mk.injEq] at checked
  obtain ⟨readable, first, second, settled, codes⟩ := checked
  have read : routinesOf borrowed.program functions = .ok (borrowedRoutines functions) :=
    eq_ok_of_isOk [] readable
  exact ⟨read, infer_third_round borrowed_exact.answers read rfl first second settled, codes⟩

set_option maxRecDepth 10000 in
theorem borrowedRun_both :
    (routinesOf borrowed.program [10, 9, 8] = .ok (borrowedRoutines [10, 9, 8]) ∧
      infer borrowed [10, 9, 8] 3 (.fresh 0) = .ok (borrowedRun [10, 9, 8] 3) ∧
      (borrowedRun [10, 9, 8] 3).exportedCodes 8 = [-2, 3]) ∧
    routinesOf borrowed.program [9, 10, 8] = .ok (borrowedRoutines [9, 10, 8]) ∧
      infer borrowed [9, 10, 8] 3 (.fresh 0) = .ok (borrowedRun [9, 10, 8] 3) ∧
      (borrowedRun [9, 10, 8] 3).exportedCodes 8 = [-2] :=
  ⟨borrowedRun_ends (by cbv), borrowedRun_ends (by cbv)⟩

/--
Nothing in the call graph puts the third function in front of the second, so the list decides.  With
the second in front, its code -5 comes a round late, and 3 is taken for a success code of the first.
-/
theorem borrowed_list_matters :
    (∃ edits, borrowed.program = Module.build {} edits) ∧ borrowed.oracle.IsExact (.fresh 0) ∧
      borrowed.options.calleesFirst = true ∧
      routinesOf borrowed.program [10, 9, 8] = .ok (borrowedRoutines [10, 9, 8]) ∧
      (CallGraph.ofFunctions borrowed.program borrowed.indirect [10, 9, 8]).Acyclic ∧
      (∀ f, f ∈ [10, 9, 8] ↔ f ∈ [9, 10, 8]) ∧
      infer borrowed [10, 9, 8] 3 (.fresh 0) = .ok (borrowedRun [10, 9, 8] 3) ∧
      infer borrowed [9, 10, 8] 3 (.fresh 0) = .ok (borrowedRun [9, 10, 8] 3) ∧
      (borrowedRun [10, 9, 8] 3).exportedCodes 8 = [-2, 3] ∧
      (borrowedRun [9, 10, 8] 3).exportedCodes 8 = [-2] := by
  have built : ∃ edits, borrowed.program = Module.build {} edits := by
    dsimp only [borrowed]
    exact ⟨_, rfl⟩
  have members : ∀ f, f ∈ [10, 9, 8] ↔ f ∈ [9, 10, 8] := by
    intro f
    exact (List.Perm.swap 9 10 [8]).mem_iff
  obtain ⟨⟨read, ends, codes⟩, -, ends', codes'⟩ := borrowedRun_both
  exact ⟨built, borrowed_exact, rfl, read, borrowed_acyclic, members, ends, ends', codes, codes'⟩

end ErrorContracts
