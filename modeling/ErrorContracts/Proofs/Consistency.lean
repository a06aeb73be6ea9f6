import ErrorContracts.Proofs.BlockFacts
import ErrorContracts.Proofs.Forwarding

/-!
# Error blocks and the codes of their functions

The mark of an error block and the code that it returns are written together, but they are given up
apart: a code goes where any block that returns it turns out to report success, and a mark goes only
where its own block is checked again.  A mark that outlives its code is therefore left by another
block, which returns the same code and is marked as a success block for good.
-/

namespace ErrorContracts

variable {σ : Type}

/-- The block returns a success code of a function that returns integers, and is marked so. -/
structure Findings.Succeeds (ctx : Context σ) (s : Findings) (r : Routine) (b : Block) (c : Int) :
    Prop where
  integer : ctx.program.returnsPointer r.handle = false
  constant : Routine.returnedConstant? ctx.program r b = some c
  success : c ∈ s.knowledge.successCodesOf r.handle
  marked : s.summary.factOf? b.handle = some .success

variable {ctx : Context σ} {routines : List Routine} {r : Routine} {b : Block} {c : Int}

theorem Summary.hasCode_added (s : Summary) (f : Handle) {d : Descriptor}
    (returned : c ∈ d.returns.codes) : (s.addDescriptor f d).HasCode f d.returns.kind c := by
  refine ⟨d, ?_, rfl, returned⟩
  rw [descriptorsOf_addDescriptor, if_pos rfl]
  exact SortedSet.mem_insert.2 (.inl rfl)

/-- A block fits a success code only in a function that returns integers. -/
theorem Routine.constant_of_fits {k : Knowledge} {d : Descriptor} {taken : SortedSet Handle}
    (described : blockDescriptor? ctx.program r b = some (d, taken))
    (fits : k.fitsSuccess r.handle d = true) (returned : c ∈ d.returns.codes) :
    ctx.program.returnsPointer r.handle = false ∧ returnedConstant? ctx.program r b = some c := by
  obtain ⟨code, constant, returns⟩ := returns_of_blockDescriptor? described
  rw [returns, signal] at returned
  obtain rfl := SortedSet.mem_singleton.1 returned
  refine ⟨?_, constant⟩
  have integer : d.isInteger = true := (Bool.and_eq_true _ _ ▸ fits).1
  rw [Descriptor.isInteger, returns, signal] at integer
  cases pointer : ctx.program.returnsPointer r.handle with
  | false => rfl
  | true =>
      rw [pointer] at integer
      cases integer

/-- A block that returns a success code is not reported. -/
theorem Findings.Succeeds.fits {s : Findings} (succeeds : s.Succeeds ctx r b c) {d : Descriptor}
    {taken : SortedSet Handle}
    (described : Routine.blockDescriptor? ctx.program r b = some (d, taken)) :
    s.knowledge.fitsSuccess r.handle d = true := by
  obtain ⟨code, constant, returns⟩ := Routine.returns_of_blockDescriptor? described
  rw [succeeds.constant] at constant
  cases constant
  have signalled : d.returns = .single .integer c := by
    rw [returns, Routine.signal, succeeds.integer]
    rfl
  apply Knowledge.fitsSuccess_of_mem _ _ succeeds.success
  · rw [Descriptor.isInteger, signalled]
    rfl
  · rw [signalled]
    exact SortedSet.mem_singleton.2 rfl

namespace Run

variable {a a' : Run σ}

/-- No move takes away the mark of a block that returns a success code. -/
theorem Move.succeeds (distinct : Routine.Distinct routines) (move : Move ctx routines a a')
    (routine : r ∈ routines) (inside : b ∈ r.blocks) (succeeds : a.findings.Succeeds ctx r b c) :
    a'.findings.Succeeds ctx r b c where
  integer := succeeds.integer
  constant := succeeds.constant
  success := move.below.successCodes r.handle c succeeds.success
  marked := by
    have before : a.summary.factOf? b.handle = some .success := succeeds.marked
    have marking : ∀ place, (a.summary.setFact place .success).factOf? b.handle = some .success := by
      intro place
      rw [Summary.factOf?_setFact, before, ite_self]
    cases move with
    | succeed => exact marking _
    | withdraw =>
        rw [summary_findings, Summary.factOf?, Summary.facts_retract]
        exact marking _
    | @report r' b' _ _ _ _ _ _ routine' inside' evidence described unfit =>
        refine (Summary.factOf?_setFact a.summary b'.handle b.handle _).trans ?_
        split
        · rename_i same
          obtain ⟨rfl, rfl⟩ := distinct.block r routine r' routine' b inside b' inside' same
          have fits := succeeds.fits described
          rw [knowledge_findings, unfit] at fits
          cases fits
        · exact before
    | _ => exact before

/--
An error block returns a code of its function, or another block that returns the same constant is a
success block.
-/
def Consistent (ctx : Context σ) (routines : List Routine) (a : Run σ) : Prop :=
  ∀ r ∈ routines, ∀ b ∈ r.blocks, ∀ taken c, a.summary.factOf? b.handle = some (.error taken) →
    Routine.returnedConstant? ctx.program r b = some c →
    (∃ kind, a.summary.HasCode r.handle kind c) ∨
      ∃ other ∈ r.blocks, a.findings.Succeeds ctx r other c

/--
A move keeps the blocks consistent if a block that it marks returns a code, and if a code that it
takes away is that of a success block.
-/
theorem Consistent.of_move (consistent : a.Consistent ctx routines)
    (distinct : Routine.Distinct routines) (move : Move ctx routines a a')
    (marks : ∀ r ∈ routines, ∀ b ∈ r.blocks, ∀ taken,
      a'.summary.factOf? b.handle = some (.error taken) →
      a.summary.factOf? b.handle = some (.error taken) ∨
        ∀ c, Routine.returnedConstant? ctx.program r b = some c →
          ∃ kind, a'.summary.HasCode r.handle kind c)
    (codes : ∀ r ∈ routines, ∀ kind c, a.summary.HasCode r.handle kind c →
      a'.summary.HasCode r.handle kind c ∨ ∃ other ∈ r.blocks, a'.findings.Succeeds ctx r other c) :
    a'.Consistent ctx routines := by
  intro r routine b inside taken c marked constant
  rcases marks r routine b inside taken marked with before | coded
  · rcases consistent r routine b inside taken c before constant with
      ⟨kind, has⟩ | ⟨other, inside', succeeds⟩
    · rcases codes r routine kind c has with still | left
      · exact .inl ⟨kind, still⟩
      · exact .inr left
    · exact .inr ⟨other, inside', move.succeeds distinct routine inside' succeeds⟩
  · exact .inl (coded c constant)

theorem error_of_setFact_success {s : Summary} {place h : Handle} {taken : SortedSet Handle}
    (marked : (s.setFact place .success).factOf? h = some (.error taken)) :
    s.factOf? h = some (.error taken) := by
  rw [Summary.factOf?_setFact] at marked
  split at marked
  · cases marked
  · exact marked

theorem Move.consistent (distinct : Routine.Distinct routines) (move : Move ctx routines a a')
    (consistent : a.Consistent ctx routines) : a'.Consistent ctx routines := by
  have step := move
  cases move with
  | succeed =>
      exact consistent.of_move distinct step
        (fun _ _ _ _ _ marked => .inl (error_of_setFact_success marked))
        fun _ _ _ _ has => .inl has
  | @withdraw r₀ b₀ dep target isError facts d taken routine inside evidence described fits =>
      refine consistent.of_move distinct step (fun _ _ b _ _ marked => ?_) fun r listed kind c has => ?_
      · rw [Summary.factOf?, Summary.facts_retract] at marked
        exact .inl (error_of_setFact_success marked)
      · by_cases lost : r.handle = r₀.handle ∧ c ∈ d.returns.codes
        · obtain ⟨same, returned⟩ := lost
          obtain rfl := distinct.routine r listed r₀ routine same
          obtain ⟨integer, constant⟩ := Routine.constant_of_fits described fits returned
          refine .inr ⟨b₀, inside, integer, constant, successCodes_of_fits described fits c returned, ?_⟩
          rw [summary_findings, Summary.factOf?, Summary.facts_retract]
          exact (Summary.factOf?_setFact _ _ _ _).trans (if_pos rfl)
        · have marked : (a.summary.setFact b₀.handle .success).HasCode r.handle kind c := has
          exact .inl (marked.retract fun same returned => lost ⟨same, returned⟩)
  | @report r₀ b₀ dep target isError facts d taken routine inside evidence described unfit =>
      refine consistent.of_move distinct step (fun r listed b inside' taken' marked => ?_)
        fun _ _ _ _ has => .inl (has.addDescriptor _ _)
      by_cases same : b.handle = b₀.handle
      · obtain ⟨rfl, rfl⟩ := distinct.block r listed r₀ routine b inside' b₀ inside same
        refine .inr fun c constant => ?_
        obtain ⟨code, constant', returns⟩ := Routine.returns_of_blockDescriptor? described
        rw [constant] at constant'
        cases constant'
        refine ⟨d.returns.kind, Summary.hasCode_added _ _ ?_⟩
        rw [returns]
        exact SortedSet.mem_singleton.2 rfl
      · left
        rw [← marked]
        exact ((Summary.factOf?_setFact _ _ _ _).trans (if_neg same)).symm
  | generalize =>
      exact consistent.of_move distinct step (fun _ _ _ _ _ marked => .inl marked)
        fun _ _ _ _ has => .inl (has.addDescriptor _ _)
  | forward =>
      exact consistent.of_move distinct step (fun _ _ _ _ _ marked => .inl marked)
        fun _ _ _ _ has => .inl (has.addDescriptor _ _)
  | _ =>
      exact consistent.of_move distinct step (fun _ _ _ _ _ marked => .inl marked)
        fun _ _ _ _ has => .inl has

theorem Moves.consistent (distinct : Routine.Distinct routines) (moves : Moves ctx routines a a')
    (consistent : a.Consistent ctx routines) : a'.Consistent ctx routines := by
  induction moves with
  | refl => exact consistent
  | tail _ move ih => exact move.consistent distinct ih

theorem consistent_after (distinct : Routine.Distinct routines) (oracle : σ) (n : Nat) :
    ((initial oracle).after ctx routines n).Consistent ctx routines := by
  refine (moves_rounds ctx routines (initial oracle) n).consistent distinct ?_
  intro r _ b _ taken c marked
  cases marked

end Run

/-! ## Marks that are met again -/

namespace Findings

variable {s : Findings}

theorem factOf?_apply_success {f h : Handle} {changes : List Change}
    (only : ∀ change ∈ changes, ∀ fact, change.fact? = some (h, fact) → fact = .success)
    (marked : s.summary.factOf? h = some .success) :
    (s.apply f changes).summary.factOf? h = some .success := by
  induction changes generalizing s with
  | nil => exact marked
  | cons change changes ih =>
      obtain ⟨head, tail⟩ := List.forall_mem_cons.1 only
      refine ih tail ?_
      rw [factOf?_change]
      split
      · rename_i place fact written
        split
        · rename_i same
          rw [head fact (same ▸ written)]
        · exact marked
      · exact marked

/-- No check takes away the mark of a block that returns a success code. -/
theorem Succeeds.known (distinct : Routine.Distinct routines) (routine : r ∈ routines)
    (inside : b ∈ r.blocks) {r' : Routine} (routine' : r' ∈ routines) {b' : Block}
    (inside' : b' ∈ r'.blocks) {deed : Deed} (listed : deed ∈ knownPhase ctx r' b')
    (succeeds : s.Succeeds ctx r b c) : (s.apply r'.handle (deed s)).Succeeds ctx r b c where
  integer := succeeds.integer
  constant := succeeds.constant
  success := successCodesOf_apply succeeds.success
  marked := by
    unfold knownPhase at listed
    split at listed
    · obtain ⟨dep, -, rfl⟩ := List.mem_map.1 listed
      refine factOf?_apply_success (fun change made fact written => ?_) succeeds.marked
      rcases mem_knownChanges ctx made with
        ⟨_, rfl⟩ | ⟨d, taken, described, ⟨-, rfl⟩ | ⟨unfit, _, rfl⟩⟩
      · cases written
      · exact (Prod.mk.inj (Option.some.inj written)).2.symm
      · obtain ⟨same, -⟩ := Prod.mk.inj (Option.some.inj written)
        obtain ⟨rfl, rfl⟩ := distinct.block r routine r' routine' b inside b' inside' same.symm
        rw [succeeds.fits described] at unfit
        cases unfit
    · cases listed

/-- The check marks the block where an error may reach it. -/
theorem succeeds_of_check {dep : Block} {target : Handle} {question : Formula}
    (constant : Routine.returnedConstant? ctx.program r b = some c)
    (integer : ctx.program.returnsPointer r.handle = false)
    (asked : question? ctx s.summary r b dep.terminator = some (target, question))
    (possible : question.satisfiable = true) (success : c ∈ s.knowledge.successCodesOf r.handle) :
    (s.apply r.handle (knownChanges ctx r b dep s)).Succeeds ctx r b c where
  integer := integer
  constant := constant
  success := successCodesOf_apply success
  marked := by
    obtain ⟨codes, -, changes⟩ := knownChanges_of_success constant integer asked possible success
    rw [changes, apply_append]
    exact (factOf?_change _ _ _ (.withdraw b.handle codes)).trans (if_pos rfl)

theorem factOf?_round (h : Handle) :
    (s.round ctx routines).summary.factOf? h = (s.extract ctx routines).summary.factOf? h := by
  rw [Summary.factOf?, round, facts_conclude, learn_parts.1]
  rfl

end Findings

section Settled

variable {functions : List Handle} {limit : Nat} {oracle : σ} {final : Run σ}
  (exact : ctx.oracle.IsExact oracle) {edits : List Edit} (built : ctx.program = Module.build {} edits)
  (read : routinesOf ctx.program functions = .ok routines) (listed : r ∈ routines)
  (inside : b ∈ r.blocks) (ended : infer ctx functions limit oracle = .ok final)

include exact built read listed inside ended

/-- A block that an error reaches in the end is a success block if it returns a success code. -/
theorem success_of_letsErrorReach
    (constant : Routine.returnedConstant? ctx.program r b = some c)
    (integer : ctx.program.returnsPointer r.handle = false)
    (success : c ∈ final.knowledge.successCodesOf r.handle)
    (reached : final.LetsErrorReach ctx (visitOrder ctx routines) r b) :
    final.summary.factOf? b.handle = some .success := by
  have readAll : ∀ r ∈ visitOrder ctx routines, Routine.ofFunction ctx.program r.handle = .ok r :=
    read_of_mem_visitOrder read
  have distinct := Routine.distinct_of_read built readAll
  have visited := (mem_visitOrder_iff read).2 listed
  obtain ⟨n, rfl, alike⟩ := exists_settled_of_infer exact read ended
  have start := Run.sound_initial exact
  have next := Run.findings_after_succ readAll start n
  have sound := (Run.findings_after readAll start n).1
  obtain ⟨_, _, _, _, _, _, _, _, _, split, blocks, controls, asked, possible⟩ :=
    reached.asked readAll sound
  have succeeds := Findings.extract_induction (fun t => t.Succeeds ctx r b c) split blocks controls
    constant (fun _ routine' _ inside' _ deed _ => .known distinct visited inside routine' inside' deed)
    (Findings.succeeds_of_check constant integer asked possible
      (Findings.successCodesOf_extractUpTo success))
  rw [Summary.factOf?, alike.facts, ← Summary.factOf?, ← Run.summary_findings, next,
    Findings.factOf?_round]
  exact succeeds.marked

/--
An error block returns a code of its function, unless the code is a success code that has been
withdrawn for another block: this block is a success block then, and no error reaches the error block
in a further extraction.
-/
theorem error_block_coded {taken : SortedSet Handle}
    (marked : final.summary.factOf? b.handle = some (.error taken)) :
    ∃ c, Routine.returnedConstant? ctx.program r b = some c ∧
      ((∃ kind, final.summary.HasCode r.handle kind c) ∨
        ctx.program.returnsPointer r.handle = false ∧
          c ∈ final.knowledge.successCodesOf r.handle ∧
          (∃ other ∈ r.blocks, other ≠ b ∧
            Routine.returnedConstant? ctx.program r other = some c ∧
            final.summary.factOf? other.handle = some .success) ∧
          ¬final.LetsErrorReach ctx (visitOrder ctx routines) r b) := by
  have readAll : ∀ r ∈ visitOrder ctx routines, Routine.ofFunction ctx.program r.handle = .ok r :=
    read_of_mem_visitOrder read
  have distinct := Routine.distinct_of_read built readAll
  have visited := (mem_visitOrder_iff read).2 listed
  obtain ⟨n, rfl, -⟩ := exists_settled_of_infer exact read ended
  obtain ⟨r', visited', b', inside', same, v, c, returned, value, -⟩ :=
    Run.justified_after ctx (visitOrder ctx routines) oracle n b.handle _ marked
  obtain ⟨rfl, rfl⟩ := distinct.block r visited r' visited' b inside b' inside' same.symm
  have constant : Routine.returnedConstant? ctx.program r b = some c :=
    Option.bind_eq_some_iff.2 ⟨v, returned, value⟩
  refine ⟨c, constant, ?_⟩
  rcases Run.consistent_after distinct oracle n r visited b inside taken c marked constant with
    coded | ⟨other, inside'', succeeds⟩
  · exact .inl coded
  · refine .inr ⟨succeeds.integer, succeeds.success,
      ⟨other, inside'', ?_, succeeds.constant, succeeds.marked⟩, fun again => ?_⟩
    · rintro rfl
      have here : _ = some Fact.success := succeeds.marked
      rw [Run.summary_findings, marked] at here
      cases here
    · rw [success_of_letsErrorReach exact built read listed inside ended constant succeeds.integer
        succeeds.success again] at marked
      cases marked

end Settled

/-! ## A mark that outlives its code -/

/--
Two functions.  The first has the code -1 at once and gets -5 by forwarding.  The second returns 3 in
three places: where an indirect call to `check` or the first function fails, where a direct call to
the first function fails, and else.
-/
def outdated : Context (Recall Nat) where
  program := Module.build {}
    ([.external "check" .i32, .external "deep" .i32, .function "first" .i32 [],
      .function "f" .i32 [(some "p", .ptr)]] ++
      checkedEntry 3 1 6 ++
      [.ret (some 7) (some (.literal (-1))), .call (some 8) 2 [] "d" none,
        .ret (some 8) (some (.value 15))] ++
      checkedEntry 4 5 17 ++
      [.ret (some 18) (some (.literal 3)), .block 4 "again", .block 4 "done",
        .call (some 19) 3 [] "l" none, .compare (some 19) .slt (.value 27) (.literal 0) "e",
        .branch (some 19) (.value 28) 25 26, .ret (some 25) (some (.literal 3)),
        .ret (some 26) (some (.literal 3))])
  dependencies :=
    [("check", [.reports ⟨∅, .single .integer (-1)⟩]), ("deep", [.reports ⟨∅, .single .integer (-5)⟩])]
  indirect := [(5, [1, 3])]
  oracle := Oracle.exact.caching

theorem outdated_exact : outdated.oracle.IsExact (.fresh 0) := (Oracle.exact_isExact 0).caching

def outdatedRoutines : List Routine := (routinesOf outdated.program [3, 4]).toOption.getD []

def outdatedRun (n : Nat) : Run (Recall Nat) :=
  (Run.initial (.fresh 0)).after outdated (visitOrder outdated outdatedRoutines) n

theorem outdated_read : routinesOf outdated.program [3, 4] = .ok outdatedRoutines :=
  eq_ok_of_isOk [] (by decide +kernel)

set_option maxRecDepth 10000 in
/--
The third round is the first to change nothing.  Then the block 18 is an error block, and its function
has no codes.
-/
theorem outdatedRun_settles :
    (outdatedRun 0).settled (outdatedRun 1) = false ∧
      (outdatedRun 1).settled (outdatedRun 2) = false ∧
      (outdatedRun 2).settled (outdatedRun 3) = true ∧
      (outdatedRun 3).summary.factOf? 18 = some (.error ∅) ∧
      ((outdatedRun 3).summary.descriptorsOf 4).isEmpty = true := by
  have checked : (!(outdatedRun 0).settled (outdatedRun 1) &&
      !(outdatedRun 1).settled (outdatedRun 2) && (outdatedRun 2).settled (outdatedRun 3) &&
      (outdatedRun 3).summary.factOf? 18 = some (.error ∅) &&
      ((outdatedRun 3).summary.descriptorsOf 4).isEmpty) = true := by
    cbv
  simpa [and_assoc] using checked

theorem outdated_infer : infer outdated [3, 4] 3 (.fresh 0) = .ok (outdatedRun 3) := by
  obtain ⟨first, second, settled, -⟩ := outdatedRun_settles
  refine infer_eq_of_settled outdated_exact.answers outdated_read settled (fun k below => ?_)
    (by decide)
  obtain rfl | rfl : k = 0 ∨ k = 1 := by omega
  · exact first
  · exact second

theorem outdated_block : ∃ r ∈ outdatedRoutines, r.handle = 4 ∧ ∃ b ∈ r.blocks, b.handle = 18 ∧
    Routine.returnedConstant? outdated.program r b = some 3 := by
  have found : (outdatedRoutines.any fun r => r.handle = 4 && r.blocks.any fun b =>
      b.handle = 18 && Routine.returnedConstant? outdated.program r b = some 3) = true := by
    decide +kernel
  simpa using found

/-- The candidates come to disagree, so the error block is not met again when its code goes. -/
theorem outdated_error_block_uncoded :
    infer outdated [3, 4] 3 (.fresh 0) = .ok (outdatedRun 3) ∧
      ∃ r ∈ outdatedRoutines, ∃ b ∈ r.blocks,
        (outdatedRun 3).summary.factOf? b.handle = some (.error ∅) ∧
        Routine.returnedConstant? outdated.program r b = some 3 ∧
        ∀ kind c, ¬(outdatedRun 3).summary.HasCode r.handle kind c := by
  obtain ⟨r, listed, named, b, inside, place, constant⟩ := outdated_block
  obtain ⟨-, -, -, marked, uncoded⟩ := outdatedRun_settles
  rw [← place] at marked
  rw [← named] at uncoded
  refine ⟨outdated_infer, r, listed, b, inside, marked, constant, ?_⟩
  rintro kind c ⟨d, hd, -⟩
  exact SortedSet.isEmpty_iff.1 uncoded d hd

/-- The mark of the first error block of the second function. -/
theorem error_block_coded_outdated :
    ∃ r ∈ outdatedRoutines, ∃ b ∈ r.blocks,
      (outdatedRun 3).summary.factOf? b.handle = some (.error ∅) ∧
      ∃ c, Routine.returnedConstant? outdated.program r b = some c ∧
        ((∃ kind, (outdatedRun 3).summary.HasCode r.handle kind c) ∨
          outdated.program.returnsPointer r.handle = false ∧
            c ∈ (outdatedRun 3).knowledge.successCodesOf r.handle ∧
            (∃ other ∈ r.blocks, other ≠ b ∧
              Routine.returnedConstant? outdated.program r other = some c ∧
              (outdatedRun 3).summary.factOf? other.handle = some .success) ∧
            ¬(outdatedRun 3).LetsErrorReach outdated (visitOrder outdated outdatedRoutines) r b) := by
  obtain ⟨r, listed, -, b, inside, place, -⟩ := outdated_block
  obtain ⟨-, -, -, marked, -⟩ := outdatedRun_settles
  rw [← place] at marked
  have built : ∃ edits, outdated.program = Module.build {} edits := by
    dsimp only [outdated]
    exact ⟨_, rfl⟩
  obtain ⟨edits, built⟩ := built
  exact ⟨r, listed, b, inside, marked,
    error_block_coded outdated_exact built outdated_read listed inside outdated_infer marked⟩

end ErrorContracts
