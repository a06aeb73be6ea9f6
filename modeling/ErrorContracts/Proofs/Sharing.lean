import ErrorContracts.Proofs.Polarity
import ErrorContracts.Proofs.Presence

/-!
# Controllers shared by several others

The rules for path conditions give the condition of a block in terms of the conditions of its
controllers.  Where control dependence has no cycles, they determine it by plain recursion.  The
search expands each controller once only, so that a controller that is met again contributes nothing
at the second place.  Still its result is absent if and only if the plain one is.  The two are the
same condition if no controller that tests the call is met through two others.
-/

open Relation (TransGen ReflTransGen)

namespace ErrorContracts

namespace Routine

variable {m : Module} {r : Routine} {target b : Handle}

/-! ## Control dependence without cycles -/

/-- No block controls itself, directly or through others. -/
def ControlAcyclic (r : Routine) : Prop := ∀ n, ¬TransGen r.Directs n n

namespace Numbered

variable (numbered : r.Numbered)

include numbered

theorem directs_of_controls {a s : Handle} (controls : r.graph.Controls exitNode a s b)
    (onward : r.graph.Reaches s exitNode) : r.Directs a b := by
  have inner : a ≠ exitNode := by
    obtain ⟨d, inside, rfl, -⟩ := exists_block_of_mem_succs controls.edge
    exact numbered.inside d inside
  refine mem_controllers.2 ⟨s, controls.edge, ?_⟩
  rw [r.ipdom_eq]
  exact (Graph.mem_committed_iff numbered.coherent r.closed_graph controls.edge
    (.step controls.edge onward) onward inner).2 controls

/-- A node that control cannot leave from controls its successors. -/
theorem directs_of_stuck {a s : Handle} (edge : s ∈ r.graph.succs a)
    (stuck : ¬r.graph.Reaches a exitNode) : r.Directs a s := by
  have unplaced : r.ipdom.get? a = none := by
    rw [r.ipdom_eq]
    by_contra placed
    obtain ⟨p, parent⟩ := Option.ne_none_iff_exists'.1 placed
    exact stuck (Graph.leaves_of_postParent numbered.coherent r.closed_graph parent)
  refine mem_controllers.2 ⟨s, edge, ?_⟩
  rw [Graph.committed, unplaced, List.takeWhile_cons_of_pos (by simp)]
  exact List.mem_cons_self

theorem precedes_of_chain {a c : Handle} (chain : TransGen r.Directs a c) :
    r.graph.Precedes a c := by
  induction chain with
  | single directs => exact numbered.precedes_of_mem_controllers directs
  | tail _ directs ih => exact ih.trans (numbered.precedes_of_mem_controllers directs)

theorem chain_of_stuck {a c : Handle} {passed : List Handle} (path : r.graph.Path a c passed)
    (stuck : ¬r.graph.Reaches a exitNode) : ReflTransGen r.Directs a c := by
  induction path with
  | here => exact .refl
  | step edge _ ih =>
      have onward := ih fun leaves => stuck (.step edge leaves)
      exact .head (numbered.directs_of_stuck edge stuck) onward

/-- A node on a cycle that control can leave has a controller of this kind. -/
theorem exists_directs_of_cycle {n : Handle} (cycle : r.graph.Precedes n n)
    (leaves : r.graph.Reaches n exitNode) :
    ∃ d, r.Directs d n ∧ r.graph.Precedes d d ∧ r.graph.Reaches d exitNode := by
  obtain ⟨t, edge, back⟩ := cycle
  by_cases commits : r.graph.PostDominates exitNode n t
  · -- the edge leads back to the node on every way out, so the node controls itself
    have controls : r.graph.Controls exitNode n t n := ⟨edge, commits, fun strict => strict.1 rfl⟩
    exact ⟨n, numbered.directs_of_controls controls (back.trans leaves), ⟨t, edge, back⟩, leaves⟩
  · obtain ⟨d, s, controls, -, there, rest⟩ := back.travels.exists_controls commits
    have onward : r.graph.Reaches s exitNode := rest.reaches.trans leaves
    have round : r.graph.Reaches s d := rest.reaches.trans (.step edge there.reaches)
    exact ⟨d, numbered.directs_of_controls controls onward, ⟨s, controls.edge, round⟩,
      .step controls.edge onward⟩

/-- Control dependence has no cycles exactly if the flow graph has none. -/
theorem controlAcyclic_iff : r.ControlAcyclic ↔ r.graph.Acyclic := by
  constructor
  · intro layered a b edge back
    by_cases leaves : r.graph.Reaches a exitNode
    · have order : IsStrictOrder Handle (TransGen r.Directs) :=
        { irrefl := layered, trans := fun _ _ _ first second => first.trans second }
      have wellFounded : {n | n ∈ r.graph.nodes}.WellFoundedOn (TransGen r.Directs) :=
        (List.finite_toSet r.graph.nodes).wellFoundedOn
      -- a cycle would give controllers without end
      have none : ¬(r.graph.Precedes a a ∧ r.graph.Reaches a exitNode) := by
        apply wellFounded.induction (Graph.mem_nodes_of_mem_succs edge)
        rintro n - ih ⟨cycle, leaves⟩
        obtain ⟨d, directs, cycle', leaves'⟩ := numbered.exists_directs_of_cycle cycle leaves
        exact ih d cycle'.mem_nodes (.single directs) ⟨cycle', leaves'⟩
      exact none ⟨⟨b, edge, back⟩, leaves⟩
    · obtain ⟨passed, path⟩ := back
      have chain := numbered.chain_of_stuck path fun onward => leaves (.step edge onward)
      exact layered a (.head' (numbered.directs_of_stuck edge leaves) chain)
  · intro acyclic n chain
    exact acyclic.not_precedes n (numbered.precedes_of_chain chain)

end Numbered

/-- All controllers of a block are its own and all of theirs. -/
theorem Numbered.mem_allControllers_cons (numbered : r.Numbered) {e : Block} :
    e ∈ r.allControllers b ↔ ∃ d ∈ r.directControllers b, e ∈ d :: r.allControllers d.handle := by
  constructor
  · intro controls
    obtain ⟨inside, chain⟩ := numbered.mem_allControllers_iff.1 controls
    rcases TransGen.tail'_iff.1 chain with ⟨n, chain, directs⟩
    obtain ⟨d, inside', rfl⟩ := exists_block_of_directs directs
    refine ⟨d, numbered.mem_directControllers_iff.2 ⟨inside', directs⟩, ?_⟩
    rcases Relation.reflTransGen_iff_eq_or_transGen.1 chain with same | chain
    · rw [List.inj_on_of_nodup_map numbered.nodup inside' inside same]
      exact List.mem_cons_self
    · exact List.mem_cons_of_mem d (numbered.mem_allControllers_iff.2 ⟨inside, chain⟩)
  · rintro ⟨d, controls, member⟩
    rcases List.mem_cons.1 member with rfl | above
    · exact mem_allControllers_of_direct controls
    · obtain ⟨inside, chain⟩ := numbered.mem_allControllers_iff.1 above
      have directs := (numbered.mem_directControllers_iff.1 controls).2
      exact numbered.mem_allControllers_iff.2 ⟨inside, chain.tail directs⟩

/-! ## Plain recursion -/

/--
The condition of a block by the rules alone: each controller contributes what its own test says,
together with the condition of its block, and the contributions are alternatives.
-/
inductive Plain (m : Module) (r : Routine) (target : Handle) : Handle → Option Formula → Prop where
  | intro {b : Handle} (inner : Block → Option Formula)
      (above : ∀ d ∈ r.directControllers b, Plain m r target d.handle (inner d)) :
      Plain m r target b (Formula.join?
        ((r.directControllers b).filterMap fun d => r.contribution m target b d (inner d)))

namespace Plain

theorem exists_inner {c : Option Formula} (plain : r.Plain m target b c) :
    ∃ inner : Block → Option Formula,
      (∀ d ∈ r.directControllers b, r.Plain m target d.handle (inner d)) ∧
        c = Formula.join?
          ((r.directControllers b).filterMap fun d => r.contribution m target b d (inner d)) := by
  obtain ⟨inner, above⟩ := plain
  exact ⟨inner, above, rfl⟩

theorem of_controllers {c : Option Formula} {controllers : List Block}
    (listed : r.directControllers b = controllers) (inner : Block → Option Formula)
    (above : ∀ d ∈ controllers, r.Plain m target d.handle (inner d))
    (known : Formula.join?
      (controllers.filterMap fun d => r.contribution m target b d (inner d)) = c) :
    r.Plain m target b c := by
  subst listed known
  exact .intro inner above

theorem unique {c c' : Option Formula} (first : r.Plain m target b c)
    (second : r.Plain m target b c') : c = c' := by
  induction first generalizing c' with
  | intro inner above ih =>
      obtain ⟨inner', above', rfl⟩ := second.exists_inner
      congr 1
      refine List.filterMap_congr fun d controls => ?_
      rw [ih d controls (above' d controls)]

/-- Without cycles the rules determine a condition. -/
theorem exists_of_acyclic (numbered : r.Numbered) (acyclic : r.graph.Acyclic) (m : Module)
    (target b : Handle) : ∃ c, r.Plain m target b c := by
  induction b using acyclic.induction with
  | step b ih =>
      have above : ∀ d ∈ r.directControllers b, ∃ c, r.Plain m target d.handle c :=
        fun d controls => ih d.handle (numbered.precedes_of_mem_directControllers controls)
      choose! inner above using above
      exact ⟨_, .intro inner above⟩

/-- The rules give a condition if one of all controllers tests the result, and only then. -/
theorem isSome_iff (numbered : r.Numbered) {callee : Handle} {arguments : List Handle}
    (call : m.op? target = some (.call callee arguments)) {c : Option Formula}
    (plain : r.Plain m target b c) :
    c.isSome = true ↔
      ∃ d ∈ r.allControllers b, (m.test? target d.terminator).isSome = true := by
  induction plain with
  | @intro b inner above ih =>
      have contributed : ∀ d ∈ r.directControllers b,
          ((r.contribution m target b d (inner d)).isSome = true ↔
            ∃ e ∈ d :: r.allControllers d.handle, (m.test? target e.terminator).isSome = true) := by
        intro d controls
        rw [contribution_isSome call, ih d controls, List.exists_mem_cons_iff]
      rw [Formula.join?_isSome, Ne, List.filterMap_eq_nil_iff]
      constructor
      · intro some_contribution
        push Not at some_contribution
        obtain ⟨d, controls, present⟩ := some_contribution
        have present := Option.ne_none_iff_isSome.1 present
        obtain ⟨e, member, tested⟩ := (contributed d controls).1 present
        exact ⟨e, numbered.mem_allControllers_cons.2 ⟨d, controls, member⟩, tested⟩
      · rintro ⟨e, above, tested⟩ silent
        obtain ⟨d, controls, member⟩ := numbered.mem_allControllers_cons.1 above
        have present := (contributed d controls).2 ⟨e, member, tested⟩
        rw [silent d controls] at present
        cases present

end Plain

/-! ## The search and plain recursion -/

/-- No controller that tests the result is met through two controllers of one block. -/
def Unshared (m : Module) (r : Routine) (target b : Handle) : Prop :=
  ∀ c ∈ b :: (r.allControllers b).map Block.handle, ∀ d ∈ r.directControllers c,
    ∀ d' ∈ r.directControllers c, d ≠ d' → ∀ e ∈ d :: r.allControllers d.handle,
      e ∈ d' :: r.allControllers d'.handle → m.test? target e.terminator = none

/-- The same as a test over the lists of controllers. -/
def sharesNothing (m : Module) (r : Routine) (target b : Handle) : Bool :=
  (b :: (r.allControllers b).map Block.handle).all fun c =>
    (r.directControllers c).all fun d => (r.directControllers c).all fun d' => d = d' ||
      (d :: r.allControllers d.handle).all fun e =>
        e ∉ d' :: r.allControllers d'.handle || (m.test? target e.terminator).isNone

theorem sharesNothing_iff : r.sharesNothing m target b = true ↔ r.Unshared m target b := by
  simp only [sharesNothing, Unshared, List.all_eq_true, Bool.or_eq_true, decide_eq_true_eq,
    Option.isNone_iff_eq_none, ne_eq, or_iff_not_imp_left, not_not]

theorem Unshared.above (numbered : r.Numbered) (unshared : r.Unshared m target b) {d : Block}
    (controls : d ∈ r.directControllers b) : r.Unshared m target d.handle := by
  intro c member
  refine unshared c (List.mem_cons_of_mem b ?_)
  rw [← List.map_cons (f := Block.handle)] at member
  obtain ⟨e, above, rfl⟩ := List.mem_map.1 member
  exact List.mem_map_of_mem (numbered.mem_allControllers_cons.2 ⟨d, controls, above⟩)

/--
The controllers `untried` of `b` are about to be met.  What is expanded above `b` is closed, and
what is expanded already of all their controllers tests nothing.
-/
structure Ready (m : Module) (r : Routine) (target b : Handle) (untried : List Block)
    (fresh expanded : List Handle) : Prop where
  listed : ∀ d ∈ untried, d ∈ r.directControllers b
  once : untried.Nodup
  cover : ∀ n ∈ r.blocks.map Block.handle, n ∈ fresh ∨ n ∈ expanded
  closed : ∀ n ∈ expanded, TransGen r.Directs n b → ∀ k, r.Directs k n → k ∈ expanded
  silent : ∀ d ∈ untried, ∀ e ∈ d :: r.allControllers d.handle, e.handle ∈ expanded →
    m.test? target e.terminator = none

namespace Ready

variable {d : Block} {untried : List Block} {fresh expanded : List Handle}

theorem tail (ready : r.Ready m target b (d :: untried) fresh expanded) :
    r.Ready m target b untried fresh expanded where
  listed := (List.forall_mem_cons.1 ready.listed).2
  once := (List.nodup_cons.1 ready.once).2
  cover := ready.cover
  closed := ready.closed
  silent := (List.forall_mem_cons.1 ready.silent).2

variable (numbered : r.Numbered)

include numbered

theorem directs (ready : r.Ready m target b (d :: untried) fresh expanded) :
    d ∈ r.blocks ∧ r.Directs d.handle b :=
  numbered.mem_directControllers_iff.1 (ready.listed d List.mem_cons_self)

/-- What is above an expanded controller is expanded too. -/
theorem mem_expanded (ready : r.Ready m target b (d :: untried) fresh expanded)
    (met : d.handle ∈ expanded) {e : Block} (above : e ∈ r.allControllers d.handle) :
    e.handle ∈ expanded := by
  obtain ⟨-, directs⟩ := ready.directs numbered
  have chain := (numbered.mem_allControllers_iff.1 above).2
  generalize e.handle = n at chain ⊢
  induction chain using TransGen.head_induction_on with
  | single first => exact ready.closed _ met (.single directs) _ first
  | head first chain ih => exact ready.closed _ ih (chain.tail directs) _ first

/-- A controller is entered: its own controllers are above `b` as well. -/
theorem enter (acyclic : r.ControlAcyclic)
    (ready : r.Ready m target b (d :: untried) fresh expanded) :
    r.Ready m target d.handle (r.directControllers d.handle) (fresh.erase d.handle)
      (d.handle :: expanded) where
  listed _ controls := controls
  once := .of_map _ (r.nodup_directControllers d.handle)
  cover := mem_or_mem_cons ready.cover d.handle
  closed n member chain k first := by
    obtain ⟨-, directs⟩ := ready.directs numbered
    rcases List.mem_cons.1 member with rfl | old
    · exact absurd chain (acyclic _)
    · exact List.mem_cons_of_mem _ (ready.closed n old (chain.tail directs) k first)
  silent c controls e member met := by
    have above := numbered.mem_allControllers_cons.2 ⟨c, controls, member⟩
    rcases List.mem_cons.1 met with same | old
    · have chain := (numbered.mem_allControllers_iff.1 above).2
      rw [same] at chain
      exact absurd chain (acyclic _)
    · exact ready.silent d List.mem_cons_self e (List.mem_cons_of_mem d above) old

/-- A controller is left: what was expanded for it tests nothing if it is above another one too. -/
theorem leave (unshared : r.Unshared m target b)
    (ready : r.Ready m target b (d :: untried) fresh expanded) :
    r.Ready m target b untried fresh (r.expand (fresh.erase d.handle)
      (r.directControllers d.handle) (d.handle :: expanded)).2 where
  listed := ready.tail.listed
  once := ready.tail.once
  cover n owned := (ready.cover n owned).imp_right fun old =>
    mem_expand_of_mem (List.mem_cons_of_mem _ old)
  closed n member chain k first := by
    obtain ⟨direct, closed⟩ := numbered.expand_closed (mem_or_mem_cons ready.cover d.handle)
      fun e controls => (numbered.mem_directControllers_iff.1 controls).1
    rcases numbered.closed_of_cons direct closed n member with old | closed
    · exact mem_expand_of_mem (List.mem_cons_of_mem _ (ready.closed n old chain k first))
    · exact closed k first
  silent c among e member met := by
    have controls := ready.listed d List.mem_cons_self
    have controls' := ready.listed c (List.mem_cons_of_mem d among)
    have inside := (numbered.mem_allControllers_iff.1
      (numbered.mem_allControllers_cons.2 ⟨c, controls', member⟩)).1
    have shared : e ∈ d :: r.allControllers d.handle → m.test? target e.terminator = none :=
      fun above => unshared b List.mem_cons_self d controls c controls'
        (fun same => (List.nodup_cons.1 ready.once).1 (same ▸ among)) e above member
    rcases numbered.expand_within met with met | ⟨k, controls'', chain⟩
    · rcases List.mem_cons.1 met with same | old
      · obtain ⟨owned, -⟩ := ready.directs numbered
        rw [List.inj_on_of_nodup_map numbered.nodup inside owned same] at shared ⊢
        exact shared List.mem_cons_self
      · exact ready.silent c (List.mem_cons_of_mem d among) e member old
    · have first := (numbered.mem_directControllers_iff.1 controls'').2
      exact shared (List.mem_cons_of_mem d
        (numbered.mem_allControllers_iff.2 ⟨inside, .tail' chain first⟩))

/-- The contributions of a forest are those that the rules give, in the same order. -/
theorem contributions_eq {callee : Handle} {arguments : List Handle}
    (call : m.op? target = some (.call callee arguments)) (acyclic : r.ControlAcyclic)
    (unshared : r.Unshared m target b) (ready : r.Ready m target b untried fresh expanded)
    {inner : Block → Option Formula} (plain : ∀ d ∈ untried, r.Plain m target d.handle (inner d)) :
    (r.expand fresh untried expanded).1.contributions m r target b =
      untried.filterMap fun d => r.contribution m target b d (inner d) := by
  fun_induction expand r fresh untried expanded generalizing b inner with
  | case1 fresh expanded => rfl
  | case2 fresh expanded d untried met ih =>
      obtain ⟨first, others⟩ := List.forall_mem_cons.1 plain
      have unknown : inner d = none := by
        apply Option.not_isSome_iff_eq_none.1
        rw [first.isSome_iff numbered call]
        rintro ⟨e, above, tested⟩
        have untested := ready.silent d List.mem_cons_self e (List.mem_cons_of_mem d above)
          (ready.mem_expanded numbered met above)
        rw [untested] at tested
        cases tested
      have untested := ready.silent d List.mem_cons_self d List.mem_cons_self met
      have silent : r.contribution m target b d (inner d) = none :=
        (contribution_eq_none call).2 ⟨untested, unknown⟩
      simp only [List.filterMap_cons, silent]
      exact ih unshared ready.tail others
  | case3 fresh expanded d untried unmet inside above rest ihAbove =>
      rename_i ih
      obtain ⟨first, others⟩ := List.forall_mem_cons.1 plain
      obtain ⟨inner', plain', known⟩ := first.exists_inner
      have controls := ready.listed d List.mem_cons_self
      have condition : Formula.join? (above.1.contributions m r target d.handle) = inner d := by
        rw [known, ihAbove (unshared.above numbered controls) (ready.enter numbered acyclic) plain']
      have following := ih unshared (ready.leave numbered unshared) others
      rw [Forest.contributions, condition, following, List.filterMap_cons]
      cases r.contribution m target b d (inner d) with
      | none => rfl
      | some f => rfl
  | case4 fresh expanded d untried unmet outside ih =>
      obtain ⟨owned, -⟩ := ready.directs numbered
      exact absurd (ready.cover d.handle (List.mem_map_of_mem owned)) (not_or.2 ⟨outside, unmet⟩)

end Ready

/--
In a function whose control dependence has no cycles, the rules alone determine the condition of a
block over a call.  The path condition is absent exactly if this condition is.  It is the same
condition if no controller that tests the call is met through two controllers of one block.
-/
theorem pathCondition_eq_plain {edits : List Edit} {f callee : Handle} {arguments : List Handle}
    (built : m = Module.build {} edits) (read : ofFunction m f = .ok r)
    (acyclic : r.ControlAcyclic) (call : m.op? target = some (.call callee arguments))
    (b : Handle) :
    ∃ plain, (∀ c, r.Plain m target b c ↔ c = plain) ∧
      ((pathCondition? m r b target).isSome = true ↔ plain.isSome = true) ∧
      (r.Unshared m target b → pathCondition? m r b target = plain) := by
  rw [built] at read
  have numbered := numbered_of_read read
  have flow := numbered.controlAcyclic_iff.1 acyclic
  obtain ⟨plain, determined⟩ := Plain.exists_of_acyclic numbered flow m target b
  refine ⟨plain, fun c => ⟨fun other => other.unique determined, fun same => same ▸ determined⟩,
    ?_, fun unshared => ?_⟩
  · rw [numbered.pathCondition?_isSome call, determined.isSome_iff numbered call]
  · obtain ⟨inner, above, rfl⟩ := determined.exists_inner
    have ready : r.Ready m target b (r.directControllers b) (r.blocks.map Block.handle) [] :=
      ⟨fun _ controls => controls, .of_map _ (r.nodup_directControllers b),
        fun _ owned => .inl owned, by simp, by simp⟩
    rw [pathCondition?_eq numbered flow, forest,
      ready.contributions_eq numbered call acyclic unshared above]

end Routine

/-! ## Two controllers with one controller -/

/-- A function in which the blocks `a` and `b` lead to `join`, each on a test of the first call. -/
def forked : Module :=
  Module.build {}
    [.external "read" .i32,
      .function "f" .i32 [],
      .block 2 "entry", .block 2 "a", .block 2 "b", .block 2 "join", .block 2 "out",
      .call (some 3) 1 [] "t" none, .call (some 3) 1 [] "u" none,
      .compare (some 3) .slt (.value 9) (.literal 0) "c", .branch (some 3) (.value 10) 4 5,
      .compare (some 4) .slt (.value 8) (.literal 0) "d", .branch (some 4) (.value 13) 6 7,
      .compare (some 5) .eq (.value 8) (.literal 5) "e", .branch (some 5) (.value 15) 6 7,
      .ret (some 6) (some (.literal 1)),
      .ret (some 7) (some (.literal 0))]

/-- The same with the two calls exchanged: the first is tested in `entry`. -/
def reconverging : Module :=
  Module.build {}
    [.external "read" .i32,
      .function "f" .i32 [],
      .block 2 "entry", .block 2 "a", .block 2 "b", .block 2 "join", .block 2 "out",
      .call (some 3) 1 [] "t" none, .call (some 3) 1 [] "u" none,
      .compare (some 3) .slt (.value 8) (.literal 0) "c", .branch (some 3) (.value 10) 4 5,
      .compare (some 4) .slt (.value 9) (.literal 0) "d", .branch (some 4) (.value 13) 6 7,
      .compare (some 5) .eq (.value 9) (.literal 5) "e", .branch (some 5) (.value 15) 6 7,
      .ret (some 6) (some (.literal 1)),
      .ret (some 7) (some (.literal 0))]

/-- The flow graph of both functions. -/
def forkedGraph : Graph Nat :=
  ⟨3, [(3, [4, 5]), (4, [6, 7]), (5, [6, 7]), (6, [0]), (7, [0]), (0, [])]⟩

theorem controlAcyclic_of_forked {edits : List Edit} {f : Handle} {r : Routine}
    (read : Routine.ofFunction (Module.build {} edits) f = .ok r) (graph : r.graph = forkedGraph) :
    r.ControlAcyclic := by
  rw [(Routine.numbered_of_read read).controlAcyclic_iff, graph]
  exact .of_rank (fun n => if n = exitNode then 8 else n) (by decide)

/-- The result is negative. -/
def isNegative : Formula := .relation .lt .result (.int 0)

theorem forked_read :
    ∃ r, Routine.ofFunction forked 2 = .ok r ∧ r.ControlAcyclic ∧ r.Unshared forked 8 6 ∧
      r.pathCondition? forked 6 8 =
        some (.or isNegative (.relation .eq .result (.int 5))) := by
  have checked : (Routine.ofFunction forked 2).toOption.any (fun r =>
      r.graph = forkedGraph ∧ r.sharesNothing forked 8 6 = true ∧
        r.pathCondition? forked 6 8 =
          some (.or isNegative (.relation .eq .result (.int 5)))) = true := by
    cbv
  obtain ⟨r, read, facts⟩ := Routine.exists_read checked
  obtain ⟨graph, apart, condition⟩ := of_decide_eq_true facts
  exact ⟨r, read, controlAcyclic_of_forked read graph, Routine.sharesNothing_iff.1 apart, condition⟩

theorem forked_call : forked.op? 8 = some (.call 1 []) := by decide +kernel

/-- The branch of `entry` is met twice, but it does not test the call. -/
theorem pathCondition_eq_plain_forked :
    ∃ r, Routine.ofFunction forked 2 = .ok r ∧ r.ControlAcyclic ∧ r.Unshared forked 8 6 ∧
      r.Plain forked 8 6 (some (.or isNegative (.relation .eq .result (.int 5)))) := by
  obtain ⟨r, read, acyclic, unshared, condition⟩ := forked_read
  obtain ⟨plain, determined, -, same⟩ :=
    Routine.pathCondition_eq_plain (m := forked) rfl read acyclic forked_call 6
  refine ⟨r, read, acyclic, unshared, (determined _).2 ?_⟩
  rw [← condition]
  exact same unshared

theorem reconverging_read :
    ∃ r entry a b, Routine.ofFunction reconverging 2 = .ok r ∧ r.ControlAcyclic ∧
      r.pathCondition? reconverging 6 8 = some isNegative ∧
      (entry.handle = 3 ∧ a.handle = 4 ∧ b.handle = 5) ∧
      (r.directControllers 3 = [] ∧ r.directControllers 4 = [entry] ∧
        r.directControllers 5 = [entry] ∧ r.directControllers 6 = [a, b]) ∧
      r.contribution reconverging 8 4 entry none = some isNegative ∧
      r.contribution reconverging 8 5 entry none = some (.not isNegative) ∧
      r.contribution reconverging 8 6 a (some isNegative) = some isNegative ∧
      r.contribution reconverging 8 6 b (some (.not isNegative)) = some (.not isNegative) := by
  have checked : (Routine.ofFunction reconverging 2).toOption.any (fun r =>
      r.graph = forkedGraph ∧ r.pathCondition? reconverging 6 8 = some isNegative ∧
        ∃ entry ∈ r.blocks, ∃ a ∈ r.blocks, ∃ b ∈ r.blocks,
          (entry.handle = 3 ∧ a.handle = 4 ∧ b.handle = 5) ∧
          (r.directControllers 3 = [] ∧ r.directControllers 4 = [entry] ∧
            r.directControllers 5 = [entry] ∧ r.directControllers 6 = [a, b]) ∧
          r.contribution reconverging 8 4 entry none = some isNegative ∧
          r.contribution reconverging 8 5 entry none = some (.not isNegative) ∧
          r.contribution reconverging 8 6 a (some isNegative) = some isNegative ∧
          r.contribution reconverging 8 6 b (some (.not isNegative)) =
            some (.not isNegative)) = true := by
    cbv
  obtain ⟨r, read, facts⟩ := Routine.exists_read checked
  obtain ⟨graph, condition, entry, -, a, -, b, -, rest⟩ := of_decide_eq_true facts
  exact ⟨r, entry, a, b, read, controlAcyclic_of_forked read graph, condition, rest⟩

/--
The branch of `entry` tests the call, and is met through `a` and through `b`.  At the second place
it contributes nothing, so the path condition of `join` says that the result is negative, while the
rules say that it is negative or not.
-/
theorem pathCondition_ne_plain_reconverging :
    ∃ r p q, Routine.ofFunction reconverging 2 = .ok r ∧ r.ControlAcyclic ∧
      reconverging.op? 8 = some (.call 1 []) ∧ r.pathCondition? reconverging 6 8 = some p ∧
      r.Plain reconverging 8 6 (some q) ∧ p.holds 0 = false ∧ q.holds 0 = true := by
  obtain ⟨r, entry, a, b, read, acyclic, condition, ⟨atEntry, atA, atB⟩, ⟨top, left, right, join⟩,
    negative, positive, passed, passed'⟩ := reconverging_read
  have atTop : r.Plain reconverging 8 entry.handle none := by
    rw [atEntry]
    exact .of_controllers top (fun _ => none) (by simp) rfl
  have alone : ∀ c ∈ [entry], r.Plain reconverging 8 c.handle none := by simpa using atTop
  have atLeft : r.Plain reconverging 8 4 (some isNegative) := by
    refine .of_controllers left (fun _ => none) alone ?_
    simp only [List.filterMap_cons, negative]
    rfl
  have atRight : r.Plain reconverging 8 5 (some (.not isNegative)) := by
    refine .of_controllers right (fun _ => none) alone ?_
    simp only [List.filterMap_cons, positive]
    rfl
  have atJoin : r.Plain reconverging 8 6 (some (.or isNegative (.not isNegative))) := by
    refine .of_controllers join
      (fun d => some (if d.handle = 4 then isNegative else .not isNegative)) ?_ ?_
    · simpa [atA, atB] using ⟨atLeft, atRight⟩
    · simp only [List.filterMap_cons, atA, atB, if_true, Nat.reduceEqDiff, if_false, passed,
        passed']
      rfl
  exact ⟨r, _, _, read, acyclic, by cbv, condition, atJoin, by decide, by decide⟩

end ErrorContracts
