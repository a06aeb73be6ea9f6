import ErrorContracts.Proofs.Presence

/-!
# Comparisons in a path condition

The search for a path condition goes from a block to its controllers, from these to theirs, and so
on.  Control dependence may have cycles, and nothing in the steps of the search bounds their number;
it ends because no controller is expanded twice.  In the end all controllers of the block are
expanded, and nothing else.

What a controller adds is the comparison it branches on, as a signed relation of the tracked result,
or the negation of that.  So all comparisons of the condition are those of controllers.
-/

namespace ErrorContracts

/-! ## What a branch compares -/

/-- All comparisons in a formula. -/
def Formula.comparisons : Formula → List Formula
  | .relation op lhs rhs => .relation op lhs rhs :: (lhs.comparisons ++ rhs.comparisons)
  | .foreign op lhs rhs => .foreign op lhs rhs :: (lhs.comparisons ++ rhs.comparisons)
  | .and lhs rhs => lhs.comparisons ++ rhs.comparisons
  | .or lhs rhs => lhs.comparisons ++ rhs.comparisons
  | .not operand => operand.comparisons
  | .absent | .bool _ | .symbol _ | .int _ => []

/--
A branch compares the target, up to casts, with a constant.  The formula is this comparison with the
tracked result in the place of the target, read as signed.
-/
inductive Module.Compares (m : Module) (target : Handle) : Terminator → Formula → Prop where
  | left {h lhs rhs onTrue onFalse : Handle} {predicate : Predicate} {n : Int}
      (op : m.op? h = some (.compare predicate lhs rhs)) (tracked : m.ignoreCasts lhs = target)
      (constant : m.constantOperand? rhs = some n) :
      Compares m target (.branch (.value h) onTrue onFalse)
        (.relation predicate.relation .result (.int n))
  | right {h lhs rhs onTrue onFalse : Handle} {predicate : Predicate} {n : Int}
      (op : m.op? h = some (.compare predicate lhs rhs)) (tracked : m.ignoreCasts rhs = target)
      (constant : m.constantOperand? lhs = some n) :
      Compares m target (.branch (.value h) onTrue onFalse)
        (.relation predicate.relation (.int n) .result)

namespace Module

variable {m : Module} {target : Handle} {exit : Terminator}

theorem exists_branch_of_comparison? {c : Comparison} (compared : m.comparison? exit = some c) :
    ∃ h onTrue onFalse, exit = .branch (.value h) onTrue onFalse ∧
      m.op? h = some (.compare c.predicate c.lhs c.rhs) := by
  unfold comparison? at compared
  split at compared
  · rename_i h onTrue onFalse
    split at compared
    · rename_i predicate lhs rhs op
      cases compared
      exact ⟨h, onTrue, onFalse, rfl, op⟩
    · cases compared
  · cases compared

theorem Compares.comparisons {g : Formula} (compares : m.Compares target exit g) :
    g.comparisons = [g] := by
  cases compares with
  | left op tracked constant => rfl
  | right op tracked constant => rfl

section

variable {callee : Handle} {arguments : List Handle}
  (call : m.op? target = some (.call callee arguments))

include call

/-- A fact induced by a branch is the comparison of the branch, or its negation. -/
theorem exists_compares_of_fact? {outcome : Bool} {f : Formula}
    (known : m.fact? target exit outcome = some f) :
    ∃ g, m.Compares target exit g ∧ f = if outcome then g else .not g := by
  obtain ⟨c, filtered, induced⟩ := Option.bind_eq_some_iff.1 known
  obtain ⟨compared, involved⟩ := Option.filter_eq_some_iff.1 filtered
  obtain ⟨h, onTrue, onFalse, rfl, op⟩ := exists_branch_of_comparison? compared
  obtain ⟨g, related, rfl⟩ := Option.map_eq_some_iff.1 induced
  refine ⟨g, ?_, rfl⟩
  -- the side that is the target is no constant, so the other one is
  unfold relationOf? at related
  by_cases left : m.ignoreCasts c.lhs = target
  · rw [constantOperand?_eq_none call left] at related
    obtain ⟨n, constant, rfl⟩ := Option.map_eq_some_iff.1 related
    exact .left op left constant
  · have right : m.ignoreCasts c.rhs = target := by simpa [involves, left] using involved
    rw [constantOperand?_eq_none call right] at related
    split at related
    · rename_i n constant
      cases related
      exact .right op right constant
    · cases related

theorem exists_compares_iff :
    (∃ g, m.Compares target exit g) ↔ (m.test? target exit).isSome = true := by
  constructor
  · rintro ⟨g, compares⟩
    cases compares with
    | left op tracked constant => simp [test?, comparison?, op, reading?, tracked, constant]
    | @right h lhs rhs _ _ _ _ op tracked constant =>
        have other : m.ignoreCasts lhs ≠ target := by
          intro same
          rw [constantOperand?_eq_none call same] at constant
          cases constant
        simp [test?, comparison?, op, reading?, tracked, constant, other]
  · intro tested
    rw [← fact?_isSome call exit true] at tested
    obtain ⟨f, known⟩ := Option.isSome_iff_exists.1 tested
    obtain ⟨g, compares, -⟩ := exists_compares_of_fact? call known
    exact ⟨g, compares⟩

end

end Module

/-! ## The search without a bound -/

namespace Routine

variable {m : Module} {r : Routine} {target b : Handle}

/--
Searching the controllers `untried` of a block ends, with a condition and with what it has done.  A
controller that was not met before is expanded; nothing says that there are any left to expand.
-/
inductive Searches (m : Module) (r : Routine) (target : Handle) :
    Handle → List Block → List Formula → ConditionSearch → Option Formula → ConditionSearch → Prop
  | done {b : Handle} (facts : List Formula) (s : ConditionSearch) :
      Searches m r target b [] facts s (Formula.join? facts) s
  | known {b : Handle} {d : Block} {untried : List Block} {facts : List Formula}
      {s last : ConditionSearch} {result fact? : Option Formula}
      (finished : Bindings.find? (b, d.handle) s.finished = some fact?)
      (more : Searches m r target b untried (facts ++ fact?.toList) s result last) :
      Searches m r target b (d :: untried) facts s result last
  | met {b : Handle} {d : Block} {untried : List Block} {facts : List Formula}
      {s last : ConditionSearch} {result : Option Formula}
      (unfinished : Bindings.find? (b, d.handle) s.finished = none)
      (expanded : d.handle ∈ s.expanded)
      (more : Searches m r target b untried facts s result last) :
      Searches m r target b (d :: untried) facts s result last
  | compared {b : Handle} {d : Block} {untried : List Block} {facts : List Formula}
      {s s' last : ConditionSearch} {inner fact? result : Option Formula} {c : Comparison}
      (unfinished : Bindings.find? (b, d.handle) s.finished = none)
      (unexpanded : d.handle ∉ s.expanded)
      (above : Searches m r target d.handle (r.directControllers d.handle) []
        { s with expanded := d.handle :: s.expanded } inner s')
      (compares : (m.comparison? d.terminator).filter (m.involves target) = some c)
      (both : fact? = Formula.meet? (m.inducedFact? c (r.takenToward b d.terminator)) inner)
      (more : Searches m r target b untried (facts ++ fact?.toList)
        { s' with finished := Bindings.assign (b, d.handle) fact? s'.finished } result last) :
      Searches m r target b (d :: untried) facts s result last
  | other {b : Handle} {d : Block} {untried : List Block} {facts : List Formula}
      {s s' last : ConditionSearch} {inner result : Option Formula}
      (unfinished : Bindings.find? (b, d.handle) s.finished = none)
      (unexpanded : d.handle ∉ s.expanded)
      (above : Searches m r target d.handle (r.directControllers d.handle) []
        { s with expanded := d.handle :: s.expanded } inner s')
      (silent : (m.comparison? d.terminator).filter (m.involves target) = none)
      (more : Searches m r target b untried (facts ++ inner.toList) s' result last) :
      Searches m r target b (d :: untried) facts s result last

namespace Searches

variable {untried : List Block} {facts : List Formula} {s last : ConditionSearch}
  {result : Option Formula}

theorem subset (searches : r.Searches m target b untried facts s result last) :
    s.expanded ⊆ last.expanded := by
  induction searches with
  | done => exact List.Subset.refl _
  | known finished more ih => exact ih
  | met unfinished expanded more ih => exact ih
  | compared unfinished unexpanded above compares both more ihAbove ih =>
      exact fun n member => ih (ihAbove (List.mem_cons_of_mem _ member))
  | other unfinished unexpanded above silent more ihAbove ih =>
      exact fun n member => ih (ihAbove (List.mem_cons_of_mem _ member))

/-- No controller is expanded twice. -/
theorem nodup (searches : r.Searches m target b untried facts s result last)
    (once : s.expanded.Nodup) : last.expanded.Nodup := by
  induction searches with
  | done => exact once
  | known finished more ih => exact ih once
  | met unfinished expanded more ih => exact ih once
  | compared unfinished unexpanded above compares both more ihAbove ih =>
      exact ih (ihAbove (List.nodup_cons.2 ⟨unexpanded, once⟩))
  | other unfinished unexpanded above silent more ihAbove ih =>
      exact ih (ihAbove (List.nodup_cons.2 ⟨unexpanded, once⟩))

end Searches

/-- As long as every block is fresh or expanded, what is not met before can be expanded. -/
theorem searches_conditionThrough {fresh : List Handle} {untried : List Block}
    {facts : List Formula} {s : ConditionSearch}
    (cover : ∀ n ∈ r.blocks.map Block.handle, n ∈ fresh ∨ n ∈ s.expanded)
    (listed : ∀ d ∈ untried, d ∈ r.blocks) :
    r.Searches m target b untried facts s (conditionThrough m r target fresh b untried facts s).1
      (conditionThrough m r target fresh b untried facts s).2 := by
  fun_induction conditionThrough m r target fresh b untried facts s with
  | case1 fresh b facts s => exact .done facts s
  | case2 fresh b facts s d untried fact? found ih =>
      exact .known found (ih cover (List.forall_mem_cons.1 listed).2)
  | case3 fresh b facts s d untried unfinished expanded ih =>
      exact .met unfinished expanded (ih cover (List.forall_mem_cons.1 listed).2)
  | case4 fresh b facts s d untried unfinished unexpanded isFresh inner s' searched c compared own
      fact? ihInner ih =>
      have above := ihInner (mem_or_mem_cons cover d.handle) fun e => mem_blocks_of_directControllers
      rw [searched] at above
      refine .compared unfinished unexpanded above compared rfl
        (ih ?_ (List.forall_mem_cons.1 listed).2)
      exact fun n owned => (cover n owned).imp_right fun old =>
        above.subset (List.mem_cons_of_mem _ old)
  | case5 fresh b facts s d untried unfinished unexpanded isFresh inner s' searched other
      ihInner ih =>
      have above := ihInner (mem_or_mem_cons cover d.handle) fun e => mem_blocks_of_directControllers
      rw [searched] at above
      refine .other unfinished unexpanded above other (ih ?_ (List.forall_mem_cons.1 listed).2)
      exact fun n owned => (cover n owned).imp_right fun old =>
        above.subset (List.mem_cons_of_mem _ old)
  | case6 fresh b facts s d untried unfinished unexpanded outside ih =>
      have owned := List.mem_map_of_mem (f := Block.handle) (listed d List.mem_cons_self)
      exact absurd (cover d.handle owned) (not_or.2 ⟨outside, unexpanded⟩)

/-- The search for the condition of a block ends when all its controllers are expanded. -/
theorem Numbered.searches_pathCondition? (numbered : r.Numbered) (m : Module) (target b : Handle) :
    ∃ last, r.Searches m target b (r.directControllers b) [] {} (pathCondition? m r b target) last ∧
      last.expanded.Nodup ∧ ∀ n, n ∈ last.expanded ↔ ∃ d ∈ r.allControllers b, d.handle = n := by
  have searches : r.Searches m target b (r.directControllers b) [] {} _ _ :=
    searches_conditionThrough (fun n owned => .inl owned) fun e => mem_blocks_of_directControllers
  refine ⟨_, searches, searches.nodup List.nodup_nil, fun n => ?_⟩
  rw [(expanded_conditionThrough fun _ _ found => by cases found).1]
  constructor
  · intro member
    rcases numbered.expand_within member with none | ⟨e, controls, chain⟩
    · cases none
    · obtain ⟨inside, directs⟩ := numbered.mem_directControllers_iff.1 controls
      have chain : Relation.TransGen r.Directs n b := .tail' chain directs
      obtain ⟨k, first, -⟩ := Relation.TransGen.head'_iff.1 chain
      obtain ⟨d, inside', rfl⟩ := exists_block_of_directs first
      exact ⟨d, numbered.mem_allControllers_iff.2 ⟨inside', chain⟩, rfl⟩
  · rintro ⟨d, controls, rfl⟩
    exact numbered.mem_expand_of_chain (numbered.mem_allControllers_iff.1 controls).2

/-! ## Comparisons of controllers -/

theorem composed_comparisons (q : Formula → Prop) :
    Formula.Composed fun f => ∀ g ∈ f.comparisons, q g where
  bool b := by simp [Formula.comparisons]
  and hf hg := by simpa [Formula.comparisons, or_imp, forall_and] using ⟨hf, hg⟩
  or hf hg := by simpa [Formula.comparisons, or_imp, forall_and] using ⟨hf, hg⟩

/-- All comparisons in the condition of a block are those of its controllers. -/
theorem compares_of_pathCondition? {callee : Handle} {arguments : List Handle}
    (call : m.op? target = some (.call callee arguments)) {f : Formula}
    (known : pathCondition? m r b target = some f) :
    ∀ g ∈ f.comparisons, ∃ d ∈ r.allControllers b, m.Compares target d.terminator g := by
  refine pathCondition?_inherits (composed_comparisons _).inherited ?_ f known
  intro d controls outcome f fact
  obtain ⟨g, compares, rfl⟩ := Module.exists_compares_of_fact? call fact
  have own : (if outcome then g else .not g).comparisons = [g] := by
    cases outcome with
    | false => exact compares.comparisons
    | true => exact compares.comparisons
  rw [own]
  simpa using ⟨d, controls, compares⟩

/--
The search for the condition of a block over a call ends, and expands every controller of the block
once.  There is no condition exactly if no controller compares the call with a constant.  Otherwise
it is put together from comparisons, and all of them are comparisons of the call by controllers, read
as signed.
-/
theorem pathCondition_of_controllers {edits : List Edit} {f callee : Handle}
    {arguments : List Handle} (built : m = Module.build {} edits) (read : ofFunction m f = .ok r)
    (call : m.op? target = some (.call callee arguments)) (b : Handle) :
    (∃ last,
      r.Searches m target b (r.directControllers b) [] {} (pathCondition? m r b target) last ∧
        last.expanded.Nodup ∧ ∀ n, n ∈ last.expanded ↔ ∃ d ∈ r.allControllers b, d.handle = n) ∧
      (pathCondition? m r b target = none ↔
        ¬∃ d ∈ r.allControllers b, ∃ g, m.Compares target d.terminator g) ∧
      ∀ condition, pathCondition? m r b target = some condition → condition.Comparative ∧
        ∀ g ∈ condition.comparisons, ∃ d ∈ r.allControllers b,
          m.Compares target d.terminator g := by
  subst built
  have numbered := numbered_of_read read
  refine ⟨numbered.searches_pathCondition? _ target b, ?_,
    fun condition known => ⟨comparative_pathCondition? known, compares_of_pathCondition? call known⟩⟩
  simp only [Module.exists_compares_iff call]
  rw [← numbered.pathCondition?_isSome call b, Option.not_isSome_iff_eq_none]

end Routine

/--
A function in which `loop` and `body` control each other, and `spin` is never left.  The comparison
in `body` is unsigned and has the call as its second operand.
-/
def spinning : Module :=
  Module.build {}
    [.external "read" .i32,
      .function "f" .i32 [],
      .block 2 "entry", .block 2 "spin", .block 2 "loop", .block 2 "body", .block 2 "out",
      .call (some 3) 1 [] "t" none,
      .compare (some 3) .slt (.value 8) (.literal 0) "c", .branch (some 3) (.value 9) 4 5,
      .jump (some 4) 4,
      .compare (some 5) .ne (.value 8) (.literal 7) "d", .branch (some 5) (.value 13) 6 7,
      .compare (some 6) .ugt (.literal 9) (.value 8) "e", .branch (some 6) (.value 16) 5 7,
      .ret (some 7) (some (.value 8))]

theorem spinning_read :
    ∃ r, Routine.ofFunction spinning 2 = .ok r ∧ (r.allControllers 6).map Block.handle = [5, 6] ∧
      Routine.pathCondition? spinning r 6 8 =
        some (.and (.relation .ne .result (.int 7)) (.relation .gt (.int 9) .result)) ∧
      Routine.pathCondition? spinning r 3 8 = none := by
  have checked : (Routine.ofFunction spinning 2).toOption.any (fun r =>
      (r.allControllers 6).map Block.handle = [5, 6] ∧
        Routine.pathCondition? spinning r 6 8 =
          some (.and (.relation .ne .result (.int 7)) (.relation .gt (.int 9) .result)) ∧
        Routine.pathCondition? spinning r 3 8 = none) = true := by
    cbv
  obtain ⟨r, read, facts⟩ := Routine.exists_read checked
  exact ⟨r, read, of_decide_eq_true facts⟩

/-- The condition of `body` has the comparisons of `loop` and `body`, and `entry` has none. -/
theorem pathCondition_of_controllers_spinning :
    ∃ r, Routine.ofFunction spinning 2 = .ok r ∧ spinning.op? 8 = some (.call 1 []) ∧
      (∃ last, r.Searches spinning 8 6 (r.directControllers 6) [] {}
          (Routine.pathCondition? spinning r 6 8) last ∧
        last.expanded.Nodup ∧ 5 ∈ last.expanded ∧ 6 ∈ last.expanded) ∧
      (∃ d ∈ r.allControllers 6,
        spinning.Compares 8 d.terminator (.relation .gt (.int 9) .result)) ∧
      ¬∃ d ∈ r.allControllers 3, ∃ g, spinning.Compares 8 d.terminator g := by
  obtain ⟨r, read, controllers, known, absent⟩ := spinning_read
  have call : spinning.op? 8 = some (.call 1 []) := by decide +kernel
  obtain ⟨⟨last, searches, once, expanded⟩, -, compares⟩ :=
    Routine.pathCondition_of_controllers (m := spinning) rfl read call 6
  have listed : ∀ n ∈ [5, 6], n ∈ last.expanded := fun n member =>
    (expanded n).2 (List.mem_map.1 (controllers ▸ member))
  refine ⟨r, read, call, ⟨last, searches, once, listed 5 (by simp), listed 6 (by simp)⟩,
    (compares _ known).2 _ (by simp [Formula.comparisons]), ?_⟩
  exact (Routine.pathCondition_of_controllers (m := spinning) rfl read call 3).2.1.1 absent

end ErrorContracts
