import ErrorContracts.Oracle.Exact
import ErrorContracts.Program.Build
import ErrorContracts.Proofs.Agreement
import ErrorContracts.Proofs.Steps
import Mathlib

/-!
# Settled runs

A round reads the descriptors, the facts, what has been learned, the path conditions kept so far and
the answers of the oracle.  It never drops a condition, and a steady oracle stands by its verdicts.  So
a second round from a run that looks the same repeats the first one step by step, hears nothing new,
and ends where the first has ended.  A run that has come back to what it was therefore goes on for ever
in the same way; one that has settled stays as it is.
-/

namespace ErrorContracts

variable {σ : Type}

namespace Run

/-- Runs that differ in nothing that a rule reads, where facts are compared by `same`. -/
structure Alike (same : SortedMap Handle Fact → SortedMap Handle Fact → Prop) (a b : Run σ) :
    Prop where
  descriptors : a.summary.SameDescriptors b.summary
  facts : same a.summary.facts b.summary.facts
  knowledge : a.knowledge = b.knowledge

end Run

namespace Inference

variable {α β : Type} {oracle : Oracle σ}
  {same : SortedMap Handle Fact → SortedMap Handle Fact → Prop}

/--
A step that keeps what it has found, and that with a steady oracle does the same again from a later run
that looks the same.
-/
structure Repeatable (oracle : Oracle σ)
    (same : SortedMap Handle Fact → SortedMap Handle Fact → Prop) (p : Inference σ α) : Prop where
  grows : ∀ {a a' v}, p.run a = (.ok v, a') → a.Recalls oracle a'
  repeats : ∀ {a a' b v}, oracle.Steady a.memory → p.run a = (.ok v, a') → a.Alike same b →
    a'.Recalls oracle b → ∃ b', p.run b = (.ok v, b') ∧ a'.Alike same b'

namespace Repeatable

theorem pure (v : α) : Repeatable oracle same (pure v : Inference σ α) where
  grows done := by
    cases done
    exact .refl _
  repeats _ done alike _ := by
    cases done
    exact ⟨_, rfl, alike⟩

theorem bind {p : Inference σ α} {next : α → Inference σ β} (hp : Repeatable oracle same p)
    (hn : ∀ v, Repeatable oracle same (next v)) : Repeatable oracle same (p >>= next) where
  grows done := by
    obtain ⟨v, b, first, second⟩ := run_bind_ok done
    exact (hp.grows first).trans ((hn v).grows second)
  repeats steady done alike recalls := by
    obtain ⟨v, a', first, second⟩ := run_bind_ok done
    obtain ⟨asked, reached⟩ := (hp.grows first).memory
    have kept := ((hn v).grows second).trans recalls
    obtain ⟨b', first', alike'⟩ := hp.repeats steady first alike kept
    obtain ⟨b'', second', alike''⟩ :=
      (hn v).repeats (reached ▸ steady.after asked) second alike' (recalls.trans (hp.grows first'))
    refine ⟨b'', ?_, alike''⟩
    rw [run_bind_of_ok first', second']

/-- A step that reads of the run only what alike runs share. -/
theorem reading {next : Run σ → Inference σ β} (hn : ∀ a, Repeatable oracle same (next a))
    (shared : ∀ a b : Run σ, a.Alike same b → next a = next b) :
    Repeatable oracle same (get >>= next) where
  grows done := (hn _).grows done
  repeats {a a' b v} steady done alike recalls := by
    have done' : (next b).run a = (.ok v, a') := by
      rw [← shared a b alike]
      exact done
    exact (hn b).repeats steady done' alike recalls

theorem modifySummary {change : Summary → Summary}
    (descriptors : ∀ s t : Summary, s.SameDescriptors t → (change s).SameDescriptors (change t))
    (facts : ∀ s t : Summary, same s.facts t.facts → same (change s).facts (change t).facts) :
    Repeatable oracle same (modifySummary change : Inference σ Unit) where
  grows done := by
    cases done
    exact .of_eq rfl rfl
  repeats _ done alike _ := by
    cases done
    exact ⟨_, rfl, descriptors _ _ alike.descriptors, facts _ _ alike.facts, alike.knowledge⟩

theorem modifyKnowledge (change : Knowledge → Knowledge) :
    Repeatable oracle same (modifyKnowledge change : Inference σ Unit) where
  grows done := by
    cases done
    exact .of_eq rfl rfl
  repeats _ done alike _ := by
    cases done
    exact ⟨_, rfl, alike.descriptors, alike.facts, congrArg change alike.knowledge⟩

theorem emit (d : Diagnostic) : Repeatable oracle same (emit d : Inference σ Unit) where
  grows done := by
    cases done
    exact .of_eq rfl rfl
  repeats _ done alike _ := by
    cases done
    exact ⟨_, rfl, alike.descriptors, alike.facts, alike.knowledge⟩

theorem forM {f : α → Inference σ Unit} {l : List α} (hf : ∀ v, Repeatable oracle same (f v)) :
    Repeatable oracle same (l.forM f) := by
  induction l with
  | nil => exact .pure ()
  | cons v l ih => exact .bind (hf v) fun _ => ih

theorem filterM {f : α → Inference σ Bool} {l : List α} (hf : ∀ v, Repeatable oracle same (f v)) :
    Repeatable oracle same (l.filterM f) := by
  have auxiliary : ∀ kept : List α, Repeatable oracle same (List.filterAuxM f l kept) := by
    induction l with
    | nil => exact fun kept => .pure kept
    | cons v l ih => exact fun kept => .bind (hf v) fun _ => ih _
  exact .bind (auxiliary []) fun kept => .pure kept.reverse

/-- A steady oracle gives a verdict again. -/
theorem satisfiable? (ctx : Context σ) (f : Formula) :
    Repeatable ctx.oracle same (satisfiable? ctx f) where
  grows {a a' v} done := by
    rw [run_satisfiable?] at done
    cases asked : ctx.oracle.ask f a.memory with
    | mk answer memory =>
        rw [asked] at done
        cases answer with
        | error fault => cases done
        | ok verdict =>
            cases done
            exact .asked a f rfl (by rw [asked])
  repeats {a a' b v} steady done alike recalls := by
    rw [run_satisfiable?] at done
    cases asked : ctx.oracle.ask f a.memory with
    | mk answer memory =>
        rw [asked] at done
        cases answer with
        | error fault => cases done
        | ok verdict =>
            have stands := steady.knows (show (ctx.oracle.ask f a.memory).1 = .ok verdict by rw [asked])
            rw [asked] at stands
            cases done
            obtain ⟨more, reached⟩ := recalls.memory
            have again := stands more
            rw [← reached] at again
            rw [run_satisfiable?]
            cases asked' : ctx.oracle.ask f b.memory with
            | mk answer' memory' =>
                rw [asked'] at again
                cases again
                exact ⟨_, rfl, alike.descriptors, alike.facts, alike.knowledge⟩

/-- A path condition is kept from the first time on. -/
theorem condition? (ctx : Context σ) (r : Routine) (b target : Handle) :
    Repeatable ctx.oracle same (condition? ctx r b target) where
  grows {a a' v} done := by
    rw [run_condition?] at done
    cases known : a.conditions.get? ⟨r.handle, b, target⟩ with
    | some condition =>
        rw [known] at done
        cases done
        exact .refl a
    | none =>
        rw [known] at done
        cases done
        refine ⟨fun {place f} kept => ?_, [], rfl⟩
        have other : place ≠ ⟨r.handle, b, target⟩ := by
          rintro rfl
          rw [known] at kept
          cases kept
        rw [SortedMap.get?_insert, if_neg other]
        exact kept
  repeats {a a' c v} _ done alike recalls := by
    rw [run_condition?] at done
    cases known : a.conditions.get? ⟨r.handle, b, target⟩ with
    | some condition =>
        rw [known] at done
        cases done
        rw [run_condition?, recalls.condition known]
        exact ⟨_, rfl, alike⟩
    | none =>
        rw [known] at done
        cases done
        have noted := recalls.condition ((SortedMap.get?_insert _ _ _ _).trans (if_pos rfl))
        rw [run_condition?, noted]
        exact ⟨_, rfl, alike.descriptors, alike.facts, alike.knowledge⟩

end Repeatable

/-! ## The rules are repeatable -/

section Rules

variable (ctx : Context σ)

theorem repeatable_addError (f : Handle) (d : Descriptor) :
    Repeatable oracle same (addError f d : Inference σ Unit) := by
  refine .bind (.modifySummary (fun s t alike => alike.addDescriptor f d) ?_) fun _ => ?_
  · intro s t alike
    exact alike
  · split
    · exact .modifyKnowledge _
    · exact .pure ()

theorem repeatable_retract (f : Handle) (d : Descriptor) :
    Repeatable oracle same (retract f d : Inference σ Unit) := by
  rw [retract_eq]
  split
  · refine .modifySummary (fun s t alike => alike.retract f _) ?_
    intro s t alike
    rwa [Summary.facts_retract, Summary.facts_retract]
  · exact .pure ()

theorem repeatable_sharedCodes? (callees : List Handle) (call callee : Handle) :
    Repeatable ctx.oracle same (sharedCodes? ctx callees call callee) := by
  unfold sharedCodes?
  simp only [listedCodes?_eq_ok, ofContract_ok, pure_bind]
  refine .reading (fun a => ?_) fun a b alike => ?_
  · split
    · exact .pure none
    · exact .pure none
    · split
      · exact .pure _
      · split
        · exact .bind (.emit _) fun _ => .pure none
        · exact .pure none
  · simp only [alike.descriptors.knownClauses_eq ctx]

theorem repeatable_errorCheck? (t : Terminator) :
    Repeatable ctx.oracle same (errorCheck? ctx t) := by
  unfold errorCheck?
  split
  · exact .pure none
  · refine .bind (repeatable_sharedCodes? ctx _ _ _) fun codes? => ?_
    split
    · exact .pure none
    · exact .pure _

theorem repeatable_consistentCodes (condition : Formula) (codes : SortedSet Int) :
    Repeatable ctx.oracle same (consistentCodes ctx condition codes) := by
  refine .bind (.filterM fun c => ?_) fun kept => .pure _
  exact .bind (.satisfiable? ctx _) fun answer => .pure _

theorem repeatable_forwardFrom (r : Routine) (call : Handle) (condition? : Option Formula)
    (callee : Handle) : Repeatable ctx.oracle same (forwardFrom ctx r call condition? callee) := by
  have adding : ∀ (codes : SortedSet Int) (describe : Returns → Descriptor),
      Repeatable ctx.oracle same ((Returns.ofSet? .integer codes).elim (pure ())
        fun returns => addError r.handle (describe returns)) := by
    intro codes describe
    cases Returns.ofSet? .integer codes with
    | none => exact .pure ()
    | some returns => exact repeatable_addError _ _
  unfold forwardFrom
  simp only [clausesOf_eq_ok, ofContract_ok, pure_bind, ofSet_bind]
  refine .reading (fun a => ?_) fun a b alike => ?_
  · split
    · exact .pure ()
    · split
      · split
        · exact adding _ _
        · exact .bind (repeatable_consistentCodes ctx _ _) fun codes => adding codes _
      · exact .pure ()
  · simp only [alike.descriptors.knownClauses_eq ctx]

/-! The rules of an extraction read no facts, so they repeat however the facts are compared. -/

section Extraction

variable (insertion : ∀ {s t} (b : Handle) (fact : Fact), same s t →
  same (s.insert b fact) (t.insert b fact))

include insertion

theorem repeatable_setFact (b : Handle) (fact : Fact) :
    Repeatable oracle same (modifySummary fun s => s.setFact b fact : Inference σ Unit) := by
  refine .modifySummary (fun s t alike => alike.setFact b fact) ?_
  intro s t alike
  exact insertion b fact alike

theorem repeatable_reportsSuccess (r : Routine) (b : Block) :
    Repeatable ctx.oracle same (reportsSuccess ctx r b) := by
  unfold reportsSuccess
  split
  · exact .pure ()
  · split
    · exact .pure ()
    · refine .bind (repeatable_errorCheck? ctx _) fun check => ?_
      split
      · exact .pure ()
      · refine .bind (.condition? ctx r _ _) fun condition => ?_
        split
        · exact .pure ()
        · refine .bind (.satisfiable? ctx _) fun answer => ?_
          split
          · exact .bind (.modifyKnowledge _) fun _ => repeatable_setFact insertion _ _
          · exact .pure ()

theorem repeatable_classify (r : Routine) (b : Block) (d : Descriptor)
    (taken : SortedSet Handle) : Repeatable oracle same (classify r b d taken : Inference σ Unit) := by
  refine .reading (fun a => ?_) fun a b alike => ?_
  · split
    · exact .bind (repeatable_setFact insertion _ _) fun _ => repeatable_retract _ _
    · exact .bind (repeatable_setFact insertion _ _) fun _ => repeatable_addError _ _
  · simp only [alike.knowledge]

theorem repeatable_checkKnownError (r : Routine) (b : Block) (exit : Handle) (t : Terminator) :
    Repeatable ctx.oracle same (checkKnownError ctx r b exit t) := by
  refine .bind (repeatable_errorCheck? ctx t) fun check => ?_
  split
  · exact .pure ()
  · refine .bind (.condition? ctx r _ _) fun condition => ?_
    split
    · exact .pure ()
    · refine .bind (.satisfiable? ctx _) fun answer => ?_
      split
      · split
        · exact .pure ()
        · exact repeatable_classify insertion _ _ _ _
      · exact .pure ()

theorem repeatable_handlesKnownError (r : Routine) (b : Block) :
    Repeatable ctx.oracle same (handlesKnownError ctx r b) := by
  unfold handlesKnownError
  split
  · exact .forM fun dep => repeatable_checkKnownError ctx insertion r b _ _
  · exact .pure ()

theorem repeatable_extract (routines : List Routine) :
    Repeatable ctx.oracle same (extract ctx routines) := by
  refine .bind (.forM fun r => .forM fun b => ?_) fun _ => .forM fun r => .forM fun b => ?_
  · exact repeatable_reportsSuccess ctx insertion r b
  · exact repeatable_handlesKnownError ctx insertion r b

end Extraction

/-! The other rules read facts, so these have to be equal. -/

theorem repeatable_reporters (routines : List Routine) :
    Repeatable ctx.oracle Eq (reporters ctx routines) := by
  have learned : ∀ found, Repeatable ctx.oracle Eq
      (reporters.learn found : Inference σ (SortedSet String)) := by
    intro found
    refine .bind (.modifyKnowledge _) fun _ => .reading (fun a => .pure _) ?_
    intro a b alike
    rw [alike.knowledge]
  refine .reading (fun a => ?_) fun a b alike => ?_
  · dsimp only
    split
    · exact .pure _
    · exact learned _
    · exact learned _
  · simp only [alike.descriptors.soleReporters_eq, alike.facts]

theorem repeatable_generalize (r : Routine) (b : Block) (names : SortedSet String)
    (successCodes : SortedSet Int) :
    Repeatable ctx.oracle Eq (generalize ctx r b names successCodes) := by
  refine .reading (fun a => ?_) fun a c alike => ?_
  · split
    · exact .pure ()
    · split
      · exact .pure ()
      · split
        · exact .pure ()
        · split
          · exact .pure ()
          · exact repeatable_addError _ _
  · rw [Summary.factOf?, alike.facts, ← Summary.factOf?]

theorem repeatable_forwardError (r : Routine) (b : Block) :
    Repeatable ctx.oracle Eq (forwardError ctx r b) := by
  refine .reading (fun a => ?_) fun a c alike => ?_
  · split
    · exact .pure ()
    · split
      · exact .pure ()
      · split
        · refine .bind (.condition? ctx r _ _) fun condition => .forM fun callee => ?_
          exact repeatable_forwardFrom ctx r _ _ callee
        · exact .pure ()
  · rw [Summary.factOf?, alike.facts, ← Summary.factOf?]

theorem repeatable_round (routines : List Routine) :
    Repeatable ctx.oracle Eq (round ctx routines) := by
  refine .bind (repeatable_extract ctx (fun b fact alike => congrArg (·.insert b fact) alike) _)
    fun _ => .bind (repeatable_reporters ctx routines) fun names => .reading (fun a => ?_) ?_
  · refine .bind (.forM fun r => .forM fun b => ?_) fun _ => .forM fun r => .forM fun b => ?_
    · exact repeatable_generalize ctx r b _ _
    · exact repeatable_forwardError ctx r b
  · intro a b alike
    simp only [alike.knowledge]

end Rules

/-! ## Rounds after rounds -/

/-- Some rounds, one after the other. -/
def rounds (ctx : Context σ) (routines : List Routine) : Nat → Inference σ Unit
  | 0 => pure ()
  | n + 1 => do
      round ctx routines
      rounds ctx routines n

end Inference

namespace Run

open Inference (Repeatable)

namespace Alike

theorem refl (a : Run σ) : a.Alike Eq a := ⟨fun _ => rfl, rfl, rfl⟩

theorem symm {a b : Run σ} (alike : a.Alike Eq b) : b.Alike Eq a :=
  ⟨alike.descriptors.symm, alike.facts.symm, alike.knowledge.symm⟩

theorem trans {a b c : Run σ} (first : a.Alike Eq b) (second : b.Alike Eq c) : a.Alike Eq c where
  descriptors f := (first.descriptors f).trans (second.descriptors f)
  facts := first.facts.trans second.facts
  knowledge := first.knowledge.trans second.knowledge

end Alike

/-- A run has settled if it looks as before. -/
theorem settled_iff {before after : Run σ} :
    before.settled after = true ↔ before.Alike Eq after := by
  simp only [settled, Bool.and_eq_true, Summary.agrees_iff, decide_eq_true_eq]
  constructor
  · rintro ⟨⟨descriptors, facts⟩, knowledge⟩
    exact ⟨fun f => (descriptors f).symm, facts.symm, knowledge⟩
  · rintro ⟨descriptors, facts, knowledge⟩
    exact ⟨⟨fun f => (descriptors f).symm, facts.symm⟩, knowledge⟩

/-- A step that has led back to a run of the same look does so again from there. -/
theorem Alike.recurs {oracle : Oracle σ} {p : Inference σ Unit} (again : Repeatable oracle Eq p)
    {a b c : Run σ} (steady : oracle.Steady a.memory) (done : p.run a = (.ok (), b))
    (back : a.Alike Eq b) (alike : b.Alike Eq c) (recalls : b.Recalls oracle c) :
    ∃ d, p.run c = (.ok (), d) ∧ b.Alike Eq d ∧ b.Recalls oracle d := by
  obtain ⟨d, done', alike'⟩ := again.repeats steady done (back.trans alike) recalls
  exact ⟨d, done', alike', recalls.trans (again.grows done')⟩

/-- The run after some rounds. -/
def after (ctx : Context σ) (routines : List Routine) (start : Run σ) (n : Nat) : Run σ :=
  ((Inference.rounds ctx routines n).run start).2

theorem after_succ {ctx : Context σ} {routines : List Routine} {start next : Run σ}
    (done : (Inference.round ctx routines).run start = (.ok (), next)) (n : Nat) :
    start.after ctx routines (n + 1) = next.after ctx routines n := by
  unfold after
  rw [Inference.rounds, Inference.run_bind_of_ok done]

/-- The last round of a series that settles has led back to a run of the same look. -/
theorem exists_last_round {ctx : Context σ} {routines : List Routine} {limit rounds total : Nat}
    {start final : Run σ}
    (ended : advance ctx routines limit rounds start = (.settled total, final)) :
    ∃ n, (Inference.round ctx routines).run (start.after ctx routines n) = (.ok (), final) ∧
      (start.after ctx routines n).Alike Eq final := by
  induction limit generalizing rounds start with
  | zero => cases ended
  | succ limit ih =>
      unfold advance at ended
      split at ended
      · cases ended
      · rename_i next done
        split at ended
        · rename_i settled
          cases ended
          exact ⟨0, done, settled_iff.1 settled⟩
        · obtain ⟨n, last, back⟩ := ih ended
          refine ⟨n + 1, ?_, ?_⟩
          · rw [after_succ done]
            exact last
          · rw [after_succ done]
            exact back

theorem advance_of_refine {ctx : Context σ} {routines : List Routine} {limit total : Nat}
    {start final : Run σ} (ended : refine ctx routines limit start = (.settled total, final)) :
    advance ctx routines (max 1 limit) 0 start = (.settled total, final) := by
  unfold refine at ended
  split at ended
  · cases ended
  · exact ended

/--
Once a series of rounds has settled whose oracle recalls its answers, any number of further rounds
succeeds and changes neither the descriptors and facts nor what has been learned.
-/
theorem rounds_after_settled {inner : Oracle σ} {ctx : Context (Recall σ)}
    (caching : ctx.oracle = inner.caching) {routines : List Routine} {limit total : Nat}
    {start final : Run (Recall σ)}
    (ended : refine ctx routines limit start = (.settled total, final)) (n : Nat) :
    ∃ next, (Inference.rounds ctx routines n).run final = (.ok (), next) ∧
      next.summary.agrees final.summary = true ∧ next.knowledge = final.knowledge := by
  obtain ⟨_, done, back⟩ := exists_last_round (advance_of_refine ended)
  have steady : ∀ memory, ctx.oracle.Steady memory := caching ▸ inner.caching_steady
  have again := Inference.repeatable_round ctx routines
  have onward : ∀ n c, final.Alike Eq c → final.Recalls ctx.oracle c →
      ∃ next, (Inference.rounds ctx routines n).run c = (.ok (), next) ∧ final.Alike Eq next := by
    intro n
    induction n with
    | zero => exact fun c alike _ => ⟨c, rfl, alike⟩
    | succ n ih =>
        intro c alike recalls
        obtain ⟨d, first, alike', recalls'⟩ := back.recurs again (steady _) done alike recalls
        obtain ⟨next, rest, alike''⟩ := ih d alike' recalls'
        refine ⟨next, ?_, alike''⟩
        rw [Inference.rounds, Inference.run_bind_of_ok first, rest]
  obtain ⟨next, run, alike⟩ := onward n final (.refl final) (.refl final)
  have same := settled_iff.2 alike
  simp only [settled, Bool.and_eq_true, decide_eq_true_eq] at same
  exact ⟨next, run, same.1, same.2.symm⟩

end Run

/-- A function that returns -1 where its call of an external function fails, and else 0. -/
def checkedCall : Context (Recall Nat) where
  program := Module.build {}
    [.external "check" .i32, .function "f" .i32 [], .block 2 "entry", .block 2 "fail",
      .block 2 "done", .call (some 3) 1 [] "k" none,
      .compare (some 3) .slt (.value 6) (.literal 0) "c", .branch (some 3) (.value 7) 4 5,
      .ret (some 4) (some (.literal (-1))), .ret (some 5) (some (.literal 0))]
  dependencies := [("check", [.reports ⟨∅, .single .integer (-1)⟩])]
  oracle := Oracle.exact.caching

def checkedRoutines : List Routine := (routinesOf checkedCall.program [2]).toOption.getD []

theorem eq_ok_of_isOk {ε α : Type} {result : Except ε α} (fallback : α)
    (ok : result.isOk = true) : result = .ok (result.toOption.getD fallback) := by
  cases result with
  | error cause => cases ok
  | ok value => rfl

theorem checkedCall_read : routinesOf checkedCall.program [2] = .ok checkedRoutines :=
  eq_ok_of_isOk [] (by decide +kernel)

/-- The function settles in two rounds, with one code, and three further rounds change nothing. -/
theorem rounds_after_settled_checkedCall :
    (Run.refine checkedCall checkedRoutines 5 { memory := .fresh 0 }).1 = .settled 2 ∧
      ∃ next, (Inference.rounds checkedCall checkedRoutines 3).run
          (Run.refine checkedCall checkedRoutines 5 { memory := .fresh 0 }).2 = (.ok (), next) ∧
        next.summary.agrees
          (Run.refine checkedCall checkedRoutines 5 { memory := .fresh 0 }).2.summary = true ∧
        next.knowledge =
          (Run.refine checkedCall checkedRoutines 5 { memory := .fresh 0 }).2.knowledge := by
  have caching : checkedCall.oracle = Oracle.exact.caching := rfl
  have ended : (Run.refine checkedCall checkedRoutines 5 { memory := .fresh 0 }).1 = .settled 2 := by
    cbv
  exact ⟨ended, Run.rounds_after_settled caching (Prod.ext ended rfl) 3⟩

end ErrorContracts
