import ErrorContracts.Proofs.Defects
import ErrorContracts.Proofs.Lookups
import ErrorContracts.Proofs.VisitOrder

/-!
# Inference never breaks off

Inference refuses exactly the lists in which some function has a defect.  Over all other lists every
round succeeds, for any oracle that answers combinations of comparisons.  The oracle is asked nothing
else, since path conditions are such combinations and the codes that are asked about are never none.
Nor does a construction fail: each rule makes codes, and contracts of descriptors, only where there
are some.  On the way every block, function, position and mark that is looked up is found.
-/

namespace ErrorContracts

variable {σ : Type}

/-! ## Runs that ask about comparisons -/

namespace Run

/--
All path conditions that a run keeps are about comparisons, and so is all that its oracle has been asked
since the state `start`.
-/
structure Comparative (ctx : Context σ) (start : σ) (a : Run σ) : Prop where
  kept : ∀ place f, a.conditions.get? place = some (some f) → f.Comparative
  asked : ∃ asked, a.memory = ctx.oracle.after start asked ∧ ∀ f ∈ asked, f.Comparative

theorem comparative_initial (ctx : Context σ) (oracle : σ) :
    (initial oracle).Comparative ctx oracle where
  kept place f known := by cases known
  asked := ⟨[], rfl, by simp⟩

variable {ctx : Context σ} {routines : List Routine} {start : σ} {a b : Run σ}

theorem Question.comparative {f : Formula} (question : a.Question f)
    (ha : a.Comparative ctx start) : f.Comparative := by
  cases question with
  | errors some_code kept =>
      exact (Formula.Comparative.anyOf some_code).conjoin_pair (ha.kept _ _ kept)
  | code c kept => exact (Formula.Comparative.compare .eq c).conjoin_pair (ha.kept _ _ kept)

/-- One more question. -/
theorem Comparative.ask (ha : a.Comparative ctx start) {f : Formula} (question : a.Question f)
    (conditions : b.conditions = a.conditions) (memory : b.memory = (ctx.oracle.ask f a.memory).2) :
    b.Comparative ctx start where
  kept place g known := ha.kept place g (conditions ▸ known)
  asked := by
    obtain ⟨asked, reached, all⟩ := ha.asked
    refine ⟨asked ++ [f], ?_, ?_⟩
    · rw [memory, reached, Oracle.after_append]
      rfl
    · rw [List.forall_mem_append]
      exact ⟨all, by simpa using question.comparative ha⟩

theorem Move.comparative (move : Move ctx routines a b) (ha : a.Comparative ctx start) :
    b.Comparative ctx start := by
  cases move with
  | ask undecided question => exact ha.ask question rfl rfl
  | succeed routine block behind constant checked kept refuted =>
      exact ha.ask (Inference.question_of_checkOf? checked kept) rfl rfl
  | withdraw routine block evidence described fits =>
      exact ha.ask (Inference.question_of_checkOf? evidence.checked evidence.kept) rfl rfl
  | report routine block evidence described unfit =>
      exact ha.ask (Inference.question_of_checkOf? evidence.checked evidence.kept) rfl rfl
  | keep routine block fresh =>
      refine ⟨fun place f known => ?_, ha.asked⟩
      rw [SortedMap.get?_insert] at known
      split at known
      · exact Routine.comparative_pathCondition? (Option.some.inj known)
      · exact ha.kept place f known
  | _ => exact ⟨ha.kept, ha.asked⟩

theorem Moves.comparative (moves : Moves ctx routines a b) (ha : a.Comparative ctx start) :
    b.Comparative ctx start := by
  induction moves with
  | refl => exact ha
  | tail _ move ih => exact move.comparative ih

/-- An oracle that answers combinations of comparisons is asked nothing else, so no round fails. -/
theorem lasts_comparative (answers : ctx.oracle.AnswersComparisons start) :
    Lasts ctx routines (Comparative ctx start) := by
  intro a ha
  have answered : ∀ b, Moves ctx routines a b → ∀ f, b.Question f →
      ∃ verdict, (ctx.oracle.ask f b.memory).1 = .ok verdict := by
    intro b moves f question
    have hb := moves.comparative ha
    obtain ⟨asked, reached, -⟩ := hb.asked
    rw [reached]
    exact answers asked f (question.comparative hb)
  obtain ⟨_, next, done, moves, -⟩ := (Inference.leads_round a).succeeds_of_answers answered
  exact ⟨next, done, moves, moves.comparative ha⟩

end Run

/-! ## Visits -/

/-- The order of a visit is found without a failing look-up of a number, a mark or a routine. -/
def VisitResolved (ctx : Context σ) (routines : List Routine) : Prop :=
  let graph := CallGraph.ofFunctions ctx.program ctx.indirect (routines.map Routine.handle)
  ctx.options.calleesFirst = true →
    graph.components? = some graph.components ∧
      graph.bottomUp.mapM (fun f => routines.find? fun r => r.handle = f) =
        some (visitOrder ctx routines)

theorem visitResolved (ctx : Context σ) (routines : List Routine) : VisitResolved ctx routines := by
  intro first
  constructor
  · exact CallGraph.components?_eq CallGraph.closed_ofFunctions
  · rw [visitOrder, if_pos first]
    apply mapM_eq_filterMap
    exact fun f visited => find?_handle_isSome (CallGraph.mem_bottomUp.1 visited)

/-! ## Inference -/

theorem exists_malformed_iff {ctx : Context σ} {functions : List Handle} {limit : Nat} {oracle : σ} :
    (∃ cause, infer ctx functions limit oracle = .error (.malformed cause)) ↔
      ¬∃ routines, routinesOf ctx.program functions = .ok routines := by
  constructor
  · rintro ⟨cause, refused⟩ ⟨routines, read⟩
    rw [infer_eq read] at refused
    split at refused <;> cases refused
  · intro unread
    cases read : routinesOf ctx.program functions with
    | error cause => exact ⟨cause, by rw [infer, read]⟩
    | ok routines => exact absurd ⟨routines, read⟩ unread

theorem infer_ne_failed {ctx : Context σ} {functions : List Handle} {routines : List Routine}
    {oracle : σ} (answers : ctx.oracle.AnswersComparisons oracle)
    (read : routinesOf ctx.program functions = .ok routines) (limit : Nat) (fault : StepFault) :
    infer ctx functions limit oracle ≠ .error (.failed fault) := by
  have lasts : Run.Lasts ctx (visitOrder ctx routines) (Run.Comparative ctx oracle) :=
    Run.lasts_comparative answers
  have advances := lasts.advance_ne_failed (Run.comparative_initial ctx oracle) (max 1 limit) 0
  rw [infer_eq read, Run.refine]
  split
  · intro ended
    cases ended
  · intro ended
    cases ended
  · rename_i failed
    split at failed
    · rename_i reached
      exact absurd reached (advances _ _)
    · rename_i unfailed
      exact absurd failed (advances _ _)

/--
Inference over functions of a built program, with an oracle that answers combinations of comparisons,
refuses a list exactly if one of its functions has a defect.  For every other list all look-ups
succeed, every round does, and under no limit the oracle or the construction of codes or contracts
fails.  Between and within the rounds the oracle has been asked about combinations of comparisons only,
in which nothing keeps a solver from reading them.
-/
theorem infer_safe {ctx : Context σ} {edits : List Edit} {oracle : σ}
    (built : ctx.program = Module.build {} edits)
    (answers : ctx.oracle.AnswersComparisons oracle) {functions : List Handle}
    (_ : ∀ f ∈ functions, ctx.program.isFunction f = true) :
    (∀ limit, (∃ cause, infer ctx functions limit oracle = .error (.malformed cause)) ↔
      ∃ f ∈ functions, ctx.program.Defective f) ∧
    ((∀ f ∈ functions, ¬ctx.program.Defective f) →
      (∀ limit fault, infer ctx functions limit oracle ≠ .error (.failed fault)) ∧
      ∃ routines, routinesOf ctx.program functions = .ok routines ∧
        (∀ r ∈ routines, r.Resolved) ∧ VisitResolved ctx routines ∧
        ∀ n, (Inference.round ctx (visitOrder ctx routines)).run
            ((Run.initial oracle).after ctx (visitOrder ctx routines) n) =
              (.ok (), (Run.initial oracle).after ctx (visitOrder ctx routines) (n + 1)) ∧
          ∀ a, Run.Moves ctx (visitOrder ctx routines)
              ((Run.initial oracle).after ctx (visitOrder ctx routines) n) a →
            ∃ asked, a.memory = ctx.oracle.after oracle asked ∧
              ∀ f ∈ asked, f.Comparative ∧ f.obstacle = none) := by
  have tidy : ctx.program.Tidy [] := by
    rw [built]
    exact Module.tidy_build edits
  constructor
  · intro limit
    rw [exists_malformed_iff, exists_routinesOf_iff tidy]
    simp only [not_forall, not_not, exists_prop]
  · intro sound
    obtain ⟨routines, read⟩ := (exists_routinesOf_iff tidy).2 sound
    have start := Run.comparative_initial ctx oracle
    have lasts : Run.Lasts ctx (visitOrder ctx routines) (Run.Comparative ctx oracle) :=
      Run.lasts_comparative answers
    refine ⟨infer_ne_failed answers read, routines, read, ?_, visitResolved ctx routines,
      fun n => ⟨lasts.round_ok start n, fun a moves => ?_⟩⟩
    · intro r listed
      have own := (routinesOf_ok read).2 r listed
      rw [built] at own
      exact (Routine.numbered_of_read own).resolved
    · obtain ⟨-, -, reached⟩ := lasts.rounds_ok start n
      obtain ⟨asked, memory, all⟩ := (moves.comparative reached).asked
      exact ⟨asked, memory, fun f listed =>
        ⟨all f listed, Formula.obstacle_eq_none_iff.2 (all f listed).complete⟩⟩

/-! ## A function and four that cannot be read -/

/--
The first function returns -1 where its call fails.  The second has no block, the block of the third
does not end in a terminator, that of the fourth has two, and that of the fifth leads to a block of the
first.  The oracle keeps what it is asked.
-/
def flawed : Context (List Formula) where
  program := Module.build {}
    [.external "check" .i32, .function "f" .i32 [], .function "bare" .i32 [],
      .function "open" .i32 [], .function "early" .i32 [], .function "stray" .i32 [],
      .block 2 "entry", .block 2 "fail", .block 2 "done", .block 4 "entry", .block 5 "entry",
      .block 6 "entry", .call (some 7) 1 [] "k" none,
      .compare (some 7) .slt (.value 13) (.literal 0) "c", .branch (some 7) (.value 14) 8 9,
      .ret (some 8) (some (.literal (-1))), .ret (some 9) (some (.literal 0)),
      .call (some 10) 1 [] "u" none, .ret (some 11) none, .ret (some 11) none,
      .jump (some 12) 8]
  dependencies := [("check", [.reports ⟨∅, .single .integer (-1)⟩])]
  oracle := { ask := fun f asked => (f.verdict, asked ++ [f]) }

theorem flawed_built : ∃ edits, flawed.program = Module.build {} edits := by
  dsimp only [flawed]
  exact ⟨_, rfl⟩

theorem after_flawed (s asked : List Formula) : flawed.oracle.after s asked = s ++ asked := by
  induction asked generalizing s with
  | nil => simp [Oracle.after]
  | cons f asked ih =>
      refine (ih (s ++ [f])).trans ?_
      simp

theorem flawed_answers : flawed.oracle.AnswersComparisons [] := by
  intro asked f comparative
  refine ⟨if f.satisfiable then .sat else .unsat, ?_⟩
  have whole := Formula.obstacle_eq_none_iff.2 comparative.complete
  exact (by rw [Formula.verdict, whole] : f.verdict = _)

/-- Each of the four has a defect of another kind. -/
theorem flawed_defective : ∀ f ∈ [3, 4, 5, 6], flawed.program.isFunction f = true ∧
    flawed.program.Defective f := by
  have functions : ∀ f ∈ [3, 4, 5, 6], flawed.program.isFunction f = true := by decide +kernel
  have bare : flawed.program.Defective 3 := .noBlock (by decide +kernel)
  have unended : flawed.program.Defective 4 :=
    .unterminated (show 10 ∈ flawed.program.blocksOf 4 by decide +kernel) (by decide +kernel)
  have early : flawed.program.Defective 5 :=
    .early (show 11 ∈ flawed.program.blocksOf 5 by decide +kernel)
      (show 21 ∈ (flawed.program.instructionsOf 11).dropLast by decide +kernel) (by decide +kernel)
  have stray : flawed.program.Defective 6 :=
    .foreign (show 12 ∈ flawed.program.blocksOf 6 by decide +kernel)
      (show flawed.program.terminatorOf? 12 = some 23 by decide +kernel)
      (show flawed.program.terminator? 23 = some (.jump 8) by decide +kernel)
      (show 8 ∈ Terminator.successors (.jump 8) by decide) (by decide +kernel)
  intro f listed
  refine ⟨functions f listed, ?_⟩
  simp only [List.mem_cons, List.not_mem_nil, or_false] at listed
  obtain rfl | rfl | rfl | rfl := listed
  · exact bare
  · exact unended
  · exact early
  · exact stray

def flawedRoutines : List Routine := (routinesOf flawed.program [2]).toOption.getD []

theorem flawed_read : routinesOf flawed.program [2] = .ok flawedRoutines :=
  eq_ok_of_isOk [] (by decide +kernel)

/--
A list is refused for each of the four.  Over the first function alone no round fails, and the four
questions of each round are about comparisons.
-/
theorem infer_safe_flawed :
    (∀ f ∈ [3, 4, 5, 6], flawed.program.isFunction f = true ∧
      ∃ cause, infer flawed [2, f] 3 [] = .error (.malformed cause)) ∧
    ¬flawed.program.Defective 2 ∧
    (∀ limit fault, infer flawed [2] limit [] ≠ .error (.failed fault)) ∧
    ((Run.initial []).after flawed (visitOrder flawed flawedRoutines) 2).memory.length = 8 ∧
    ∀ n, ∀ f ∈ ((Run.initial []).after flawed (visitOrder flawed flawedRoutines) n).memory,
      f.Comparative ∧ f.obstacle = none := by
  obtain ⟨edits, built⟩ := flawed_built
  have own : flawed.program.isFunction 2 = true := by decide +kernel
  have alone : ∀ f ∈ [2], flawed.program.isFunction f = true := by simpa using own
  have sound : ∀ f ∈ [2], ¬flawed.program.Defective f := by
    have tidy : flawed.program.Tidy [] := by
      rw [built]
      exact Module.tidy_build edits
    exact (exists_routinesOf_iff tidy).1 ⟨flawedRoutines, flawed_read⟩
  obtain ⟨faultless, routines, read, -, -, rounds⟩ := (infer_safe built flawed_answers alone).2 sound
  rw [flawed_read] at read
  cases read
  refine ⟨fun f listed => ?_, sound 2 (by simp), faultless, by cbv, fun n f asked => ?_⟩
  · obtain ⟨isFunction, defective⟩ := flawed_defective f listed
    refine ⟨isFunction, ?_⟩
    have both : ∀ g ∈ [2, f], flawed.program.isFunction g = true := by simp [own, isFunction]
    exact ((infer_safe built flawed_answers both).1 3).2 ⟨f, by simp, defective⟩
  · obtain ⟨questions, memory, all⟩ := (rounds n).2 _ .refl
    rw [memory, after_flawed] at asked
    exact all f (by simpa using asked)

end ErrorContracts
