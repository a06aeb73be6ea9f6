import ErrorContracts.Proofs.ReturnPaths

/-!
# Execution after the end of a block

Execution follows the terminators of a routine.  When it enters a block along an edge, all phis of
the block take their incoming values for this edge at once, and the other instructions are ahead.
What these do to the values and which way a branch goes is left open.

If one value can be returned after the end of a block, through forwarding blocks only, then
execution from there makes jumps, executes no other instruction, and returns this value.  The value
is read off the last block and replaced along the edges backwards, one phi at a time.  Execution
goes forwards and assigns the phis of a block together.
-/

namespace ErrorContracts

/-- What instructions other than phis do to the values, and whether a branch takes its first way. -/
structure Behaviour (α : Type) where
  effect : Step → (Handle → α) → Handle → α
  taken : Operand → (Handle → α) → Bool

/-- Where execution is: in a block with some instructions ahead, or out of the function. -/
inductive Point (α : Type) where
  | within (block : Block) (ahead : List Step) (values : Handle → α)
  | returned (value : Option α)

/-- What execution does at a point. -/
inductive Event where
  | execute (step : Step)
  | jump (target : Handle)
  | branch (target : Handle)
  | ret

/-- A phi with the values listed for the blocks that it may be entered from. -/
def Step.phi? : Step → Option (Handle × List (Handle × Handle))
  | ⟨h, .phi incoming⟩ => some (h, incoming)
  | _ => none

namespace Block

variable {α : Type}

def phis (b : Block) : List (Handle × List (Handle × Handle)) := b.steps.filterMap Step.phi?

/-- What the phis of a block become along the edge from `source`, unless one has no entry for it. -/
def inflow? (b : Block) (source : Handle) (values : Handle → α) : Option (List (Handle × α)) :=
  b.phis.mapM fun phi => (incomingFor phi.2 source).map fun v => (phi.1, values v)

end Block

/-- The values after an assignment to some handles at once. -/
def assign {α : Type} (assigned : List (Handle × α)) (values : Handle → α) : Handle → α :=
  fun h => (assigned.lookup h).getD (values h)

namespace Routine

variable {α : Type}

/-- Enters a block along the edge from `source`. -/
def enter? (r : Routine) (source : Block) (target : Handle) (values : Handle → α) :
    Option (Point α) := do
  let next ← r.block? target
  let assigned ← next.inflow? source.handle values
  return .within next (next.steps.filter fun step => !step.op.isPhi) (assign assigned values)

/-- One step of execution; there is none where a function was left or cannot go on. -/
def step? (r : Routine) (behaviour : Behaviour α) : Point α → Option (Event × Point α)
  | .returned _ => none
  | .within b (step :: ahead) values =>
      some (.execute step, .within b ahead (behaviour.effect step values))
  | .within b [] values =>
      match b.terminator with
      | .ret v => some (.ret, .returned (v.map values))
      | .jump target => (r.enter? b target values).map fun next => (.jump target, next)
      | .branch condition onTrue onFalse =>
          let target := if behaviour.taken condition values then onTrue else onFalse
          (r.enter? b target values).map fun next => (.branch target, next)
      | .unreachable => none

/-- Execution from one point to another, with what it does on the way. -/
inductive Runs (r : Routine) (behaviour : Behaviour α) : Point α → List Event → Point α → Prop
  | here (point : Point α) : Runs r behaviour point [] point
  | step {point next last : Point α} {event : Event} {events : List Event}
      (once : r.step? behaviour point = some (event, next))
      (rest : Runs r behaviour next events last) : Runs r behaviour point (event :: events) last

/-- Every phi has an entry for every block that may come before its own. -/
def FeedsPhis (r : Routine) : Prop :=
  ∀ b ∈ r.blocks, ∀ p ∈ r.predecessors b, ∀ phi ∈ b.phis, p.handle ∈ phi.2.map Prod.snd

instance (r : Routine) : Decidable r.FeedsPhis :=
  inferInstanceAs (Decidable (∀ b ∈ r.blocks, ∀ p ∈ r.predecessors b, ∀ phi ∈ b.phis,
    p.handle ∈ phi.2.map Prod.snd))

end Routine

theorem incomingFor_isSome {incoming : List (Handle × Handle)} {source : Handle}
    (listed : source ∈ incoming.map Prod.snd) : (incomingFor incoming source).isSome := by
  obtain ⟨entry, inside, rfl⟩ := List.mem_map.1 listed
  rw [incomingFor, Option.isSome_map, List.find?_isSome]
  exact ⟨entry, inside, by simp⟩

@[simp]
theorem assign_nil {α : Type} (values : Handle → α) : assign [] values = values := rfl

theorem assign_cons {α : Type} (h k : Handle) (a : α) (assigned : List (Handle × α))
    (values : Handle → α) :
    assign ((h, a) :: assigned) values k = if h = k then a else assign assigned values k := by
  by_cases same : h = k
  · simp [assign, same]
  · simp [assign, List.lookup_cons, same, beq_eq_false_iff_ne.2 (Ne.symm same)]

namespace Block

variable {b : Block} {steps : List Step} {source h : Handle} {incoming : List (Handle × Handle)}

theorem through_phi_cons (own : b.steps = ⟨h, .phi incoming⟩ :: steps) (k : Handle) :
    b.through source k =
      if h = k then (incomingFor incoming source).getD k
      else { b with steps }.through source k := by
  by_cases same : h = k
  · simp [through, own, same]
  · simp [through, own, same]

theorem phis_phi_cons (own : b.steps = ⟨h, .phi incoming⟩ :: steps) :
    b.phis = (h, incoming) :: { b with steps }.phis := by
  rw [phis, own]
  rfl

/--
If a block has nothing but phis, then what it assigns to a value along an edge is the old value of
what flows in there.
-/
theorem inflow?_of_phis {α : Type} (own : b.steps = steps)
    (only : ∀ step ∈ steps, step.op.isPhi = true)
    (fed : ∀ phi ∈ b.phis, source ∈ phi.2.map Prod.snd) (values : Handle → α) :
    ∃ assigned, b.inflow? source values = some assigned ∧
      assign assigned values = fun k => values (b.through source k) := by
  induction steps generalizing b with
  | nil => exact ⟨[], by simp [inflow?, phis, own], by simp [through, own]⟩
  | cons step steps ih =>
      obtain ⟨h, op⟩ := step
      cases op with
      | call | compare | cast => simp [Op.isPhi] at only
      | phi incoming =>
          rw [phis_phi_cons own, List.forall_mem_cons] at fed
          obtain ⟨v, entry⟩ := Option.isSome_iff_exists.1 (incomingFor_isSome fed.1)
          obtain ⟨assigned, inflow, same⟩ :=
            ih (b := { b with steps }) rfl (fun step inside => only step (.tail _ inside)) fed.2
          refine ⟨(h, values v) :: assigned, ?_, funext fun k => ?_⟩
          · rw [inflow?] at inflow ⊢
            simp [phis_phi_cons own, entry, inflow]
          · rw [assign_cons, through_phi_cons own, entry, congrFun same k]
            split <;> rfl

theorem steps_of_isForwarding (forwards : b.isForwarding = true) :
    ∀ step ∈ b.steps, step.op.isPhi = true := by
  rw [isForwarding, Bool.and_eq_true] at forwards
  exact List.all_eq_true.1 forwards.1

end Block

namespace Routine

variable {α : Type} {r : Routine} {b next : Block} {t : Handle}

/-- After a jump into a forwarding block, each value is the old one of what flows into it. -/
theorem FeedsPhis.enter?_eq (feeds : r.FeedsPhis) (numbered : r.Numbered) (inside : b ∈ r.blocks)
    (jumps : b.terminator = .jump t) (found : r.block? t = some next)
    (forwards : next.isForwarding = true) (values : Handle → α) :
    r.enter? b t values = some (.within next [] fun k => values (next.through b.handle k)) := by
  have entered : next ∈ r.blocks := List.mem_of_find?_eq_some found
  have only := Block.steps_of_isForwarding forwards
  have before : b ∈ r.predecessors next := by
    have edge : t ∈ r.graph.succs b.handle :=
      numbered.mem_succs_of_successor inside (by simp [jumps, Terminator.successors])
    refine List.mem_filterMap.2 ⟨b.handle, ?_, numbered.block?_handle inside⟩
    rw [handle_of_block? found]
    exact (numbered.coherent _ _).2 edge
  obtain ⟨assigned, inflow, same⟩ :=
    Block.inflow?_of_phis rfl only (feeds next entered b before) values
  have nothing : (next.steps.filter fun step => !step.op.isPhi) = [] := by simpa using only
  simp [enter?, found, inflow, same, nothing]

/-- Once execution has returned, it has done all it ever does from where it was. -/
theorem Runs.begins {behaviour : Behaviour α} {start point : Point α} {whole events : List Event}
    {value : Option α} (run : r.Runs behaviour start whole (.returned value))
    (other : r.Runs behaviour start events point) : events <+: whole := by
  induction other generalizing whole with
  | here => exact List.nil_prefix
  | step once _ ih =>
      cases run with
      | here => cases once
      | step once' rest =>
          obtain ⟨rfl, rfl⟩ := Prod.mk.inj (Option.some.inj (once.symm.trans once'))
          exact List.cons_prefix_cons.2 ⟨rfl, ih rest⟩

/-- Execution from the end of a block with one returned value jumps until it returns this value. -/
theorem FeedsPhis.runs_of_returnAfter? (feeds : r.FeedsPhis) (numbered : r.Numbered)
    {fresh : List Handle} (inside : b ∈ r.blocks) {v : Handle}
    (returned : r.returnAfter? fresh b = some v) (behaviour : Behaviour α) (values : Handle → α) :
    ∃ targets : List Handle, r.Runs behaviour (.within b [] values)
      (targets.map Event.jump ++ [Event.ret]) (.returned (some (values v))) := by
  fun_induction returnAfter? r fresh b generalizing v values with
  | case1 fresh b w ret =>
      subst returned
      exact ⟨[], .step (by simp [step?, ret]) (.here _)⟩
  | case2 fresh b t jumps isFresh next found forwards ih =>
      obtain ⟨w, after, rfl⟩ := Option.map_eq_some_iff.1 returned
      have entry := feeds.enter?_eq numbered inside jumps found forwards values
      -- what is returned from `next` is read off the values with which it is entered
      obtain ⟨targets, rest⟩ := ih (List.mem_of_find?_eq_some found) after
        fun k => values (next.through b.handle k)
      exact ⟨t :: targets, .step (by simp only [step?, jumps, entry, Option.map_some]) rest⟩
  | case3 | case4 | case5 | case6 => cases returned

/--
If one value is returned after the end of a block, then execution from there, whatever the values
are, is a finite number of jumps into blocks of phis and a return of what this value is at the end
of the block.  The collected values are this value alone.
-/
theorem runs_of_blockReturn? {m : Module} {edits : List Edit} {f : Handle}
    (built : m = Module.build {} edits) (read : ofFunction m f = .ok r) (feeds : r.FeedsPhis)
    (inside : b ∈ r.blocks) {v : Handle} (returned : r.blockReturn? b = some v) :
    (∀ {α : Type} (behaviour : Behaviour α) (values : Handle → α),
      ∃ targets : List Handle,
        r.Runs behaviour (.within b [] values) (targets.map Event.jump ++ [Event.ret])
            (.returned (some (values v))) ∧
          ∀ events point, r.Runs behaviour (.within b [] values) events point →
            events <+: targets.map Event.jump ++ [Event.ret]) ∧
      r.blockReturns b = [v] := by
  subst built
  have numbered := numbered_of_read read
  have after := (Option.filter_eq_some_iff.1 returned).1
  refine ⟨fun behaviour values => ?_, blockReturns_of_blockReturn? returned⟩
  obtain ⟨targets, run⟩ := feeds.runs_of_returnAfter? numbered inside after behaviour values
  exact ⟨targets, run, fun _ _ other => run.begins other⟩

end Routine

/-- A function in which `turn` has two phis; along the edge from `left`, `q` takes what `p` was. -/
def turning : Module :=
  Module.build {}
    [.external "read" .i32,
      .function "f" .i32 [],
      .block 2 "entry", .block 2 "left", .block 2 "right", .block 2 "turn", .block 2 "out",
      .call (some 3) 1 [] "t" none,
      .compare (some 3) .slt (.value 8) (.literal 0) "c", .branch (some 3) (.value 9) 4 5,
      .jump (some 4) 6, .jump (some 5) 6,
      .phi (some 6) .i32 [(.literal 1, 4), (.literal 2, 5)] "p",
      .phi (some 6) .i32 [(.value 14, 4), (.value 8, 5)] "q", .jump (some 6) 7,
      .phi (some 7) .i32 [(.value 17, 6)] "s", .ret (some 7) (some (.value 19))]

/-- From `left` on, the value of `p` before `turn` is returned, although `turn` gives it another. -/
theorem runs_of_blockReturn?_turning :
    ∃ r left, Routine.ofFunction turning 2 = .ok r ∧ r.FeedsPhis ∧ left ∈ r.blocks ∧
      r.blockReturn? left = some 14 ∧ left.terminator = .jump 6 ∧ r.blockReturns left = [14] ∧
      ∃ targets : List Handle,
        r.Runs ⟨fun _ values => values, fun _ _ => true⟩ (.within left [] fun h => (h : Int))
          (targets.map Event.jump ++ [Event.ret]) (.returned (some 14)) := by
  have checked : (Routine.ofFunction turning 2).toOption.any (fun r => r.FeedsPhis ∧
      ∃ b ∈ r.blocks, r.blockReturn? b = some 14 ∧ b.terminator = .jump 6) = true := by
    decide +kernel
  obtain ⟨r, read, facts⟩ := Routine.exists_read checked
  obtain ⟨feeds, left, inside, returned, jumps⟩ := of_decide_eq_true facts
  have result := Routine.runs_of_blockReturn? (m := turning) rfl read feeds inside returned
  obtain ⟨targets, run, -⟩ :=
    result.1 ⟨fun _ values => values, fun _ _ => true⟩ fun h => (h : Int)
  exact ⟨r, left, read, feeds, inside, returned, jumps, result.2, targets, run⟩

end ErrorContracts
