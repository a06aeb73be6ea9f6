import ErrorContracts.Oracle.Recall

/-!
# Verdicts that stand

Questions lead an oracle from state to state, and what it answers may depend on all that it has been
asked before.  It is steady if it stands by every verdict that it gives.  An oracle that recalls its
answers is steady, whatever it recalls them from, and it gives no answer that the inner oracle has not
given on the same formula.
-/

namespace ErrorContracts

variable {σ : Type}

namespace Oracle

/-- The state of an oracle after some questions. -/
def after (oracle : Oracle σ) (s : σ) (asked : List Formula) : σ :=
  asked.foldl (fun s f => (oracle.ask f s).2) s

theorem after_append (oracle : Oracle σ) (s : σ) (asked more : List Formula) :
    oracle.after s (asked ++ more) = oracle.after (oracle.after s asked) more :=
  List.foldl_append

/-- From a state on the oracle answers as `fits` says, whatever it is asked. -/
def Replies (oracle : Oracle σ) (s : σ)
    (fits : Formula → Except OracleFault Verdict → Prop) : Prop :=
  ∀ asked f, fits f (oracle.ask f (oracle.after s asked)).1

theorem Replies.after {oracle : Oracle σ} {s : σ} {fits : Formula → Except OracleFault Verdict → Prop}
    (replies : oracle.Replies s fits) (asked : List Formula) :
    oracle.Replies (oracle.after s asked) fits := by
  intro more f
  rw [← after_append]
  exact replies (asked ++ more) f

/-- From a state on the oracle gives one verdict on a formula, whatever it is asked besides. -/
def Knows (oracle : Oracle σ) (s : σ) (f : Formula) (v : Verdict) : Prop :=
  ∀ asked, (oracle.ask f (oracle.after s asked)).1 = .ok v

/-- From a state on the oracle stands by the verdicts that it gives. -/
def Steady (oracle : Oracle σ) (s : σ) : Prop :=
  ∀ asked f v, (oracle.ask f (oracle.after s asked)).1 = .ok v →
    oracle.Knows (oracle.ask f (oracle.after s asked)).2 f v

theorem Steady.after {oracle : Oracle σ} {s : σ} (steady : oracle.Steady s)
    (asked : List Formula) : oracle.Steady (oracle.after s asked) := by
  intro more f v given
  rw [← after_append] at given ⊢
  exact steady (asked ++ more) f v given

theorem Steady.knows {oracle : Oracle σ} {s : σ} (steady : oracle.Steady s) {f : Formula}
    {v : Verdict} (given : (oracle.ask f s).1 = .ok v) : oracle.Knows (oracle.ask f s).2 f v :=
  steady [] f v given

end Oracle

/-! ## An oracle that recalls its answers -/

namespace Recall

theorem answer?_check_of_answer? (oracle : Oracle σ) (f : Formula) {memory : Recall σ}
    {g : Formula} {verdict : Verdict} (known : memory.answer? g = some verdict) :
    (check oracle f memory).2.answer? g = some verdict := by
  unfold check
  split
  · exact known
  · rename_i fresh
    split
    · have other : f ≠ g := by
        rintro rfl
        rw [fresh] at known
        cases known
      simpa [answer?, other] using known
    · exact known

theorem answer?_after (oracle : Oracle σ) {memory : Recall σ} {g : Formula} {verdict : Verdict}
    (known : memory.answer? g = some verdict) (asked : List Formula) :
    (oracle.caching.after memory asked).answer? g = some verdict := by
  induction asked generalizing memory with
  | nil => exact known
  | cons f asked ih => exact ih (answer?_check_of_answer? oracle f known)

/--
The inner oracle is in a state that it may be in after the state `s`, and has given all remembered
answers from `s` on.
-/
structure Reflects (oracle : Oracle σ) (s : σ) (memory : Recall σ) : Prop where
  inner : ∃ asked, memory.inner = oracle.after s asked
  answers : ∀ f v, memory.answer? f = some v →
    ∃ asked, (oracle.ask f (oracle.after s asked)).1 = .ok v

theorem reflects_fresh (oracle : Oracle σ) (s : σ) : (fresh s).Reflects oracle s where
  inner := ⟨[], rfl⟩
  answers f v known := by cases known

/-- An answer is one that the inner oracle gives on the same formula in some state. -/
theorem Reflects.asked {oracle : Oracle σ} {s : σ} {memory : Recall σ}
    (reflects : memory.Reflects oracle s) (f : Formula) :
    (∃ asked, (check oracle f memory).1 = (oracle.ask f (oracle.after s asked)).1) ∧
      (check oracle f memory).2.Reflects oracle s := by
  obtain ⟨asked, inner⟩ := reflects.inner
  unfold check
  split
  · rename_i verdict known
    obtain ⟨before, given⟩ := reflects.answers f verdict known
    exact ⟨⟨before, given.symm⟩, reflects.inner, reflects.answers⟩
  · have next : (oracle.ask f memory.inner).2 = oracle.after s (asked ++ [f]) := by
      rw [inner, Oracle.after_append]
      rfl
    split
    · rename_i verdict state answered
      rw [answered] at next
      have given : (oracle.ask f (oracle.after s asked)).1 = .ok verdict := by
        rw [← inner, answered]
      refine ⟨⟨asked, given.symm⟩, ⟨_, next⟩, fun g v known => ?_⟩
      by_cases same : f = g
      · subst same
        obtain rfl : verdict = v := by simpa [answer?] using known
        exact ⟨asked, given⟩
      · exact reflects.answers g v (by simpa [answer?, same] using known)
    · rename_i fault state failed
      rw [failed] at next
      refine ⟨⟨asked, ?_⟩, ⟨_, next⟩, reflects.answers⟩
      rw [← inner, failed]

theorem Reflects.after {oracle : Oracle σ} {s : σ} {memory : Recall σ}
    (reflects : memory.Reflects oracle s) (asked : List Formula) :
    (oracle.caching.after memory asked).Reflects oracle s := by
  induction asked generalizing memory with
  | nil => exact reflects
  | cons f asked ih => exact ih (reflects.asked f).2

end Recall

namespace Oracle

/-- An oracle that recalls its answers is steady, also if the inner one is not. -/
theorem caching_steady (oracle : Oracle σ) (memory : Recall σ) : oracle.caching.Steady memory := by
  intro asked f v given more
  have known := Recall.answer?_after oracle (Recall.answer?_check given) more
  exact congrArg Prod.fst (Recall.check_of_answer known)

/-- As long as it has been asked nothing, it answers as the inner oracle does. -/
theorem Replies.caching {oracle : Oracle σ} {s : σ}
    {fits : Formula → Except OracleFault Verdict → Prop} (replies : oracle.Replies s fits) :
    oracle.caching.Replies (.fresh s) fits := by
  intro asked f
  obtain ⟨⟨before, same⟩, -⟩ := ((Recall.reflects_fresh oracle s).after asked).asked f
  have own := replies before f
  rw [← same] at own
  exact own

end Oracle

end ErrorContracts
