import ErrorContracts.Proofs.Building
import ErrorContracts.Proofs.Provenance
import ErrorContracts.Proofs.ReturnedValues

/-!
# What stands behind a mark

A block is marked by two rules that look at it in different ways, and one mark may replace another.
Whatever the order, a mark keeps its reasons: a success block returns nothing but one success code of
its function, and an error block returns one learned code and keeps the values that its calls take.
Each of these is seen move by move, and later moves only add to what they rest on.
-/

namespace ErrorContracts

variable {σ : Type}

/-- The instruction calls a named function and takes the value, directly or under casts. -/
def Module.TakenBy (m : Module) (step : Step) (v : Handle) : Prop :=
  ∃ callee arguments f, step.op = .call callee arguments ∧ m.calledFunction? callee = some f ∧
    ∃ a ∈ arguments, v = a ∨ v = m.ignoreCasts a

theorem Module.mem_reportingActions_cons {m : Module} {step : Step} {steps : List Step}
    {v : Handle} : v ∈ (m.reportingActions (step :: steps)).2 ↔
      m.TakenBy step v ∨ v ∈ (m.reportingActions steps).2 := by
  simp only [reportingActions, TakenBy]
  cases step.op with
  | call callee arguments =>
      cases called : m.calledFunction? callee with
      | none => simp [called]
      | some f =>
          simp [called, or_comm]
  | _ => simp

/-- What the calls of a block take is what is kept with its mark. -/
theorem Module.mem_reportingActions {m : Module} {steps : List Step} {v : Handle} :
    v ∈ (m.reportingActions steps).2 ↔ ∃ step ∈ steps, m.TakenBy step v := by
  induction steps with
  | nil => simp [reportingActions]
  | cons step steps ih => simp [mem_reportingActions_cons, ih]

/-- What a mark of the block says, by what has been learned. -/
def Fact.Justified (m : Module) (k : Knowledge) (r : Routine) (b : Block) : Fact → Prop
  | .success => ∃ v c, r.blockReturns b = [v] ∧ m.constantValue? v = some c ∧
      c ∈ k.successCodesOf r.handle
  | .error taken => ∃ v c, r.blockReturn? b = some v ∧ m.constantValue? v = some c ∧
      (∀ a, a ∈ taken ↔ ∃ step ∈ b.steps, m.TakenBy step a) ∧
      (m.returnsPointer r.handle = false → c ∈ k.codes)

section Evidence

variable {m : Module} {k l : Knowledge} {r : Routine} {b : Block} {c : Int}

theorem Fact.Justified.mono {fact : Fact} (justified : fact.Justified m k r b) (below : k.Below l) :
    fact.Justified m l r b := by
  cases fact with
  | success =>
      obtain ⟨v, c, returned, constant, success⟩ := justified
      exact ⟨v, c, returned, constant, below.successCodes r.handle c success⟩
  | error taken =>
      obtain ⟨v, c, returned, constant, exactly, code⟩ := justified
      exact ⟨v, c, returned, constant, exactly, fun integer => below.codes c (code integer)⟩

/-- The same value on every way is one value, as none is listed twice. -/
theorem Routine.blockReturns_of_uniformConstant? (uniform : uniformConstant? m r b = some c) :
    ∃ v, r.blockReturns b = [v] ∧ m.constantValue? v = some c := by
  have once := nodup_blockReturns r b
  unfold uniformConstant? at uniform
  split at uniform
  · cases uniform
  · rename_i v rest listed
    split at uniform
    · rename_i same
      rw [listed] at once
      have alone : rest = [] := by
        rw [List.eq_nil_iff_forall_not_mem]
        intro w other
        have again : w = v := by simpa using List.all_eq_true.1 same w other
        exact (List.nodup_cons.1 once).1 (again ▸ other)
      exact ⟨v, by rw [listed, alone], uniform⟩
    · cases uniform

theorem Fact.justified_success (constant : Routine.uniformConstant? m r b = some c)
    (success : c ∈ k.successCodesOf r.handle) : Fact.success.Justified m k r b := by
  obtain ⟨v, returned, value⟩ := Routine.blockReturns_of_uniformConstant? constant
  exact ⟨v, c, returned, value, success⟩

/-- A block that returns one constant returns it on every way. -/
theorem Routine.uniformConstant?_of_returnedConstant? (constant : returnedConstant? m r b = some c) :
    uniformConstant? m r b = some c := by
  obtain ⟨v, returned, value⟩ := Option.bind_eq_some_iff.1 constant
  rw [uniformConstant?, blockReturns_of_blockReturn? returned]
  simpa using value

/-- What the descriptor of a block returns. -/
theorem Routine.returns_of_blockDescriptor? {d : Descriptor} {taken : SortedSet Handle}
    (described : blockDescriptor? m r b = some (d, taken)) :
    ∃ code, returnedConstant? m r b = some code ∧ d.returns = signal m r code := by
  obtain ⟨code, constant, same⟩ := Option.map_eq_some_iff.1 described
  cases same
  exact ⟨code, constant, rfl⟩

theorem Fact.justified_error {d : Descriptor} {taken : SortedSet Handle}
    (described : Routine.blockDescriptor? m r b = some (d, taken))
    (known : d.isInteger = true → ∀ c ∈ d.returns.codes, c ∈ k.codes) :
    (Fact.error taken).Justified m k r b := by
  obtain ⟨code, constant, same⟩ := Option.map_eq_some_iff.1 described
  cases same
  obtain ⟨v, returned, value⟩ := Option.bind_eq_some_iff.1 constant
  refine ⟨v, code, returned, value, fun a => Module.mem_reportingActions, fun integer => ?_⟩
  apply known
  · simp [Descriptor.isInteger, Returns.isInteger, Routine.signal, Returns.single, integer]
  · simp [Routine.signal, Returns.single]

end Evidence

/-- A handle is that of one routine only, and that of one block in one of the routines. -/
structure Routine.Distinct (routines : List Routine) : Prop where
  routine : ∀ r ∈ routines, ∀ r' ∈ routines, r.handle = r'.handle → r = r'
  block : ∀ r ∈ routines, ∀ r' ∈ routines, ∀ b ∈ r.blocks, ∀ b' ∈ r'.blocks,
    b.handle = b'.handle → r = r' ∧ b = b'

theorem Routine.distinct_of_read {m : Module} {edits : List Edit} (built : m = Module.build {} edits)
    {routines : List Routine} (read : ∀ r ∈ routines, ofFunction m r.handle = .ok r) :
    Distinct routines := by
  subst built
  have same : ∀ r ∈ routines, ∀ r' ∈ routines, r.handle = r'.handle → r = r' := by
    intro r listed r' listed' handle
    have own := read r listed
    rw [handle, read r' listed'] at own
    exact (Except.ok.inj own).symm
  refine ⟨same, fun r listed r' listed' b inside b' inside' handle => ?_⟩
  obtain rfl := same r listed r' listed'
    (eq_of_shared_block (read r listed) (read r' listed') inside inside' handle)
  exact ⟨rfl, List.inj_on_of_nodup_map (numbered_of_read (read r listed)).nodup inside inside' handle⟩

/-- Every mark is on a block of an analysed routine and has its reasons there. -/
def Run.Justified (ctx : Context σ) (routines : List Routine) (a : Run σ) : Prop :=
  ∀ h fact, a.summary.factOf? h = some fact →
    ∃ r ∈ routines, ∃ b ∈ r.blocks, b.handle = h ∧ fact.Justified ctx.program a.knowledge r b

namespace Run

variable {ctx : Context σ} {routines : List Routine} {a b : Run σ}

theorem Justified.mono (justified : a.Justified ctx routines)
    (facts : b.summary.facts = a.summary.facts) (below : a.knowledge.Below b.knowledge) :
    b.Justified ctx routines := by
  intro h fact marked
  rw [Summary.factOf?, facts] at marked
  obtain ⟨r, routine, block, inside, same, holds⟩ := justified h fact marked
  exact ⟨r, routine, block, inside, same, holds.mono below⟩

/-- A block may be marked for a reason that the run has then. -/
theorem Justified.mark (justified : a.Justified ctx routines)
    (below : a.knowledge.Below b.knowledge) {r : Routine} {block : Block} {fact : Fact}
    (routine : r ∈ routines) (inside : block ∈ r.blocks)
    (facts : b.summary.facts = (a.summary.setFact block.handle fact).facts)
    (reason : fact.Justified ctx.program b.knowledge r block) : b.Justified ctx routines := by
  intro h found marked
  rw [Summary.factOf?, facts, ← Summary.factOf?, Summary.factOf?_setFact] at marked
  split at marked
  · rename_i same
    cases marked
    exact ⟨r, routine, block, inside, same.symm, reason⟩
  · obtain ⟨r', routine', block', inside', same, holds⟩ := justified h found marked
    exact ⟨r', routine', block', inside', same, holds.mono below⟩

theorem mem_codes_addError (a : Run σ) (f : Handle) {d : Descriptor} (integer : d.isInteger = true)
    {c : Int} (returned : c ∈ d.returns.codes) : c ∈ (a.addError f d).knowledge.codes := by
  rw [addError, if_pos integer]
  exact SortedSet.mem_union.2 (.inr returned)

theorem Move.justified (move : Move ctx routines a b) (justified : a.Justified ctx routines) :
    b.Justified ctx routines := by
  have below := move.below
  cases move with
  | @succeed r block p code target isError facts routine inside behind constant checked kept
      refuted =>
      have success : code ∈ (a.knowledge.addSuccess r.handle code).successCodesOf r.handle := by
        simp [Knowledge.successCodesOf_addSuccess]
      exact justified.mark below routine inside rfl (Fact.justified_success constant success)
  | withdraw routine inside evidence described fits =>
      obtain ⟨code, constant, returns⟩ := Routine.returns_of_blockDescriptor? described
      have success := successCodes_of_fits described fits code
        (by simp [returns, Routine.signal, Returns.single])
      -- the single value of the block is also all that is collected for it
      have uniform := Routine.uniformConstant?_of_returnedConstant? constant
      exact justified.mark below routine inside (Summary.facts_retract _ _ _)
        (Fact.justified_success uniform success)
  | report routine inside evidence described unfit =>
      refine justified.mark below routine inside rfl (Fact.justified_error described ?_)
      intro integer c returned
      apply mem_codes_addError
      · exact integer
      · exact returned
  | _ => exact justified.mono rfl below

theorem Moves.justified (moves : Moves ctx routines a b) (justified : a.Justified ctx routines) :
    b.Justified ctx routines := by
  induction moves with
  | refl => exact justified
  | tail _ move ih => exact move.justified ih

theorem justified_after (ctx : Context σ) (routines : List Routine) (oracle : σ) (n : Nat) :
    ((initial oracle).after ctx routines n).Justified ctx routines := by
  refine (moves_rounds ctx routines (initial oracle) n).justified ?_
  intro h fact marked
  cases marked

/--
However many rounds are made from an empty summary, with whatever oracle and classifier, a marked
block is a block of an analysed function, a success block returns nothing but one success code of its
function, and an error block returns one constant, which is learned unless the function returns a
pointer, and keeps just the values that its calls to named functions take.
-/
theorem after_justified {edits : List Edit} (built : ctx.program = Module.build {} edits)
    (read : ∀ r ∈ routines, Routine.ofFunction ctx.program r.handle = .ok r) (oracle : σ) (n : Nat)
    {h : Handle} {fact : Fact}
    (marked : ((initial oracle).after ctx routines n).summary.factOf? h = some fact) :
    (∃ r ∈ routines, ∃ b ∈ r.blocks, b.handle = h) ∧
      ∀ r ∈ routines, ∀ b ∈ r.blocks, b.handle = h →
        fact.Justified ctx.program ((initial oracle).after ctx routines n).knowledge r b := by
  obtain ⟨r, routine, b, inside, same, holds⟩ := justified_after ctx routines oracle n h fact marked
  refine ⟨⟨r, routine, b, inside, same⟩, fun r' routine' b' inside' same' => ?_⟩
  obtain ⟨rfl, rfl⟩ := (Routine.distinct_of_read built read).block r routine r' routine' b inside
    b' inside' (same.trans same'.symm)
  exact holds

end Run

/--
A function that passes the result of a failed call on to `log`, under a cast.  The oracle first finds
that an error may reach the failing block, and in the next round that none does.
-/
def loggedFailure : Context Nat where
  program := Module.build {}
    [.external "check" .i32, .external "log" .i32, .function "f" .i32 [], .block 3 "entry",
      .block 3 "fail", .block 3 "done", .call (some 4) 1 [] "k" none,
      .compare (some 4) .slt (.value 7) (.literal 0) "c", .branch (some 4) (.value 8) 5 6,
      .cast (some 5) .bitcast (.value 7) .i32 "w", .call (some 5) 2 [.value 11] "l" none,
      .ret (some 5) (some (.literal (-1))), .ret (some 6) (some (.literal 0))]
  dependencies := [("check", [.reports ⟨∅, .single .integer (-1)⟩])]
  oracle := .scripted [.ok .sat, .ok .sat, .ok .sat, .ok .unsat, .ok .unsat]

def loggedRoutines : List Routine := (routinesOf loggedFailure.program [3]).toOption.getD []

theorem loggedFailure_read : routinesOf loggedFailure.program [3] = .ok loggedRoutines :=
  eq_ok_of_isOk [] (by decide +kernel)

/-- The failing block keeps the result and its cast, and then becomes a success block. -/
theorem loggedFailure_marked :
    ((Run.initial 0).after loggedFailure loggedRoutines 1).summary.factOf? 5 =
        some (.error (SortedSet.ofList [7, 11])) ∧
      ((Run.initial 0).after loggedFailure loggedRoutines 2).summary.factOf? 5 = some .success := by
  have marked : (((Run.initial 0).after loggedFailure loggedRoutines 1).summary.factOf? 5,
      ((Run.initial 0).after loggedFailure loggedRoutines 2).summary.factOf? 5) =
        (some (.error (SortedSet.ofList [7, 11])), some .success) := by
    cbv
  simpa only [Prod.mk.injEq] using marked

theorem after_justified_loggedFailure :
    (∃ r ∈ loggedRoutines, ∃ b ∈ r.blocks, b.handle = 5) ∧
      ∀ r ∈ loggedRoutines, ∀ b ∈ r.blocks, b.handle = 5 →
        (Fact.error (SortedSet.ofList [7, 11])).Justified loggedFailure.program
            ((Run.initial 0).after loggedFailure loggedRoutines 1).knowledge r b ∧
          Fact.success.Justified loggedFailure.program
            ((Run.initial 0).after loggedFailure loggedRoutines 2).knowledge r b := by
  have read := (routinesOf_ok loggedFailure_read).2
  obtain ⟨first, second⟩ := loggedFailure_marked
  obtain ⟨placed, failed⟩ := Run.after_justified rfl read 0 1 first
  obtain ⟨-, done⟩ := Run.after_justified rfl read 0 2 second
  exact ⟨placed, fun r listed b inside same =>
    ⟨failed r listed b inside same, done r listed b inside same⟩⟩

end ErrorContracts
