import ErrorContracts.Oracle.Basic

/-!
# An oracle that remembers its answers

Each formula is put to the inner oracle until it gets a verdict; that verdict is recalled from then
on.  Failures are not remembered.
-/

namespace ErrorContracts

/-- The state of an oracle together with the answers it has given. -/
structure Recall (σ : Type) where
  inner : σ
  answers : List (Formula × Verdict) := []
  queries : Nat := 0
  hits : Nat := 0

namespace Recall

variable {σ : Type}

def answer? (memory : Recall σ) (f : Formula) : Option Verdict :=
  (memory.answers.find? fun entry => entry.1 = f).map Prod.snd

/-- Puts a question. -/
def check (oracle : Oracle σ) (f : Formula) (memory : Recall σ) :
    Except OracleFault Verdict × Recall σ :=
  match memory.answer? f with
  | some verdict =>
      (.ok verdict, { memory with queries := memory.queries + 1, hits := memory.hits + 1 })
  | none =>
      match oracle.ask f memory.inner with
      | (.ok verdict, inner) =>
          (.ok verdict,
            { memory with
              inner := inner
              answers := (f, verdict) :: memory.answers
              queries := memory.queries + 1 })
      | (.error fault, inner) =>
          (.error fault, { memory with inner := inner, queries := memory.queries + 1 })

theorem check_of_answer {oracle : Oracle σ} {f : Formula} {memory : Recall σ} {verdict : Verdict}
    (known : memory.answer? f = some verdict) :
    check oracle f memory =
      (.ok verdict, { memory with queries := memory.queries + 1, hits := memory.hits + 1 }) := by
  unfold check
  rw [known]

theorem answer?_check {oracle : Oracle σ} {f : Formula} {memory : Recall σ} {verdict : Verdict}
    (answered : (check oracle f memory).1 = .ok verdict) :
    (check oracle f memory).2.answer? f = some verdict := by
  unfold check at answered ⊢
  split at answered
  · rename_i known
    cases answered
    exact known
  · split at answered
    · cases answered
      simp [answer?]
    · cases answered

theorem queries_check (oracle : Oracle σ) (f : Formula) (memory : Recall σ) :
    (check oracle f memory).2.queries = memory.queries + 1 := by
  unfold check
  split
  · rfl
  · split <;> rfl

/-- Nothing has been asked yet. -/
def fresh (inner : σ) : Recall σ := { inner }

/-- Forgets the answers, not the counts. -/
def clear (memory : Recall σ) : Recall σ := { memory with answers := [] }

/-- The number of distinct formulas whose answers are remembered. -/
def cached (memory : Recall σ) : Nat := memory.answers.length

end Recall

/-- The oracle that recalls what another one has answered. -/
def Oracle.caching {σ : Type} (oracle : Oracle σ) : Oracle (Recall σ) where
  ask f memory := memory.check oracle f

end ErrorContracts
