import ErrorContracts.Inference.Fixpoint
import ErrorContracts.Proofs.Guards
import ErrorContracts.Proofs.Verdicts

/-!
# Running steps

What a composed step of an inference does, said through what its parts do.  A failed part ends the
whole step and keeps the run it has reached.  The path conditions that a run keeps are never dropped,
and its oracle is changed by questions only.
-/

namespace ErrorContracts

variable {σ α β : Type}

namespace Run

/-- Every path condition that `a` keeps is kept in `b`. -/
def Retains (a b : Run σ) : Prop :=
  ∀ {place f}, a.conditions.get? place = some f → b.conditions.get? place = some f

/-- What `a` keeps is kept in `b`, and only questions have changed the oracle. -/
structure Recalls (oracle : Oracle σ) (a b : Run σ) : Prop where
  condition : a.Retains b
  memory : ∃ asked, b.memory = oracle.after a.memory asked

namespace Recalls

variable {oracle : Oracle σ}

/-- A run with the same conditions and the same oracle. -/
theorem of_eq {a b : Run σ} (conditions : b.conditions = a.conditions)
    (memory : b.memory = a.memory) : a.Recalls oracle b :=
  ⟨fun known => conditions ▸ known, [], memory⟩

theorem refl (a : Run σ) : a.Recalls oracle a := of_eq rfl rfl

theorem trans {a b c : Run σ} (first : a.Recalls oracle b) (second : b.Recalls oracle c) :
    a.Recalls oracle c where
  condition known := second.condition (first.condition known)
  memory := by
    obtain ⟨asked, reached⟩ := first.memory
    obtain ⟨more, reached'⟩ := second.memory
    exact ⟨asked ++ more, by rw [reached', reached, Oracle.after_append]⟩

/-- A question changes the oracle only. -/
theorem asked (a : Run σ) (f : Formula) {b : Run σ} (conditions : b.conditions = a.conditions)
    (memory : b.memory = (oracle.ask f a.memory).2) : a.Recalls oracle b :=
  ⟨fun known => conditions ▸ known, [f], memory⟩

end Recalls

end Run

namespace Inference

theorem run_bind (p : Inference σ α) (next : α → Inference σ β) (a : Run σ) :
    (p >>= next).run a =
      match p.run a with
      | (.ok v, b) => (next v).run b
      | (.error fault, b) => (.error fault, b) := by
  simp only [ExceptT.run, bind, ExceptT.bind, ExceptT.mk, StateT.bind, ExceptT.bindCont]
  cases p a with
  | mk result b => cases result <;> rfl

theorem run_bind_of_ok {p : Inference σ α} {a b : Run σ} {v : α} (done : p.run a = (.ok v, b))
    (next : α → Inference σ β) : (p >>= next).run a = (next v).run b := by
  rw [run_bind, done]

theorem run_bind_of_error {p : Inference σ α} {a b : Run σ} {fault : StepFault}
    (failed : p.run a = (.error fault, b)) (next : α → Inference σ β) :
    (p >>= next).run a = (.error fault, b) := by
  rw [run_bind, failed]

/-- A composed step that succeeds has succeeded in both parts. -/
theorem run_bind_ok {p : Inference σ α} {next : α → Inference σ β} {a c : Run σ} {w : β}
    (done : (p >>= next).run a = (.ok w, c)) :
    ∃ v b, p.run a = (.ok v, b) ∧ (next v).run b = (.ok w, c) := by
  rw [run_bind] at done
  cases first : p.run a with
  | mk result b =>
      rw [first] at done
      cases result with
      | ok v => exact ⟨v, b, rfl, done⟩
      | error fault => cases done

@[simp]
theorem run_get_bind (next : Run σ → Inference σ β) (a : Run σ) :
    ((get : Inference σ (Run σ)) >>= next).run a = (next a).run a := rfl

@[simp]
theorem run_modifySummary (change : Summary → Summary) (a : Run σ) :
    (modifySummary change : Inference σ Unit).run a =
      (.ok (), { a with summary := change a.summary }) := rfl

/-- A question changes the oracle and the count of open answers only. -/
theorem run_satisfiable? (ctx : Context σ) (f : Formula) (a : Run σ) :
    (satisfiable? ctx f).run a =
      match ctx.oracle.ask f a.memory with
      | (.ok verdict, memory) =>
          (.ok verdict.definite?,
            { a with
              memory
              undecided := if verdict = .unknown then a.undecided + 1 else a.undecided })
      | (.error fault, memory) => (.error (.oracle fault), { a with memory }) := by
  rw [satisfiable?, run_get_bind]
  cases ctx.oracle.ask f a.memory with
  | mk answer memory =>
      cases answer with
      | error fault => rfl
      | ok verdict => cases verdict <;> rfl

/-- A path condition is computed where it is not kept yet. -/
theorem run_condition? (ctx : Context σ) (r : Routine) (b target : Handle) (a : Run σ) :
    (condition? ctx r b target).run a =
      match a.conditions.get? ⟨r.handle, b, target⟩ with
      | some known => (.ok known, a)
      | none =>
          let condition := Routine.pathCondition? ctx.program r b target
          (.ok condition,
            { a with conditions := a.conditions.insert ⟨r.handle, b, target⟩ condition }) := by
  rw [condition?, run_get_bind]
  cases a.conditions.get? ⟨r.handle, b, target⟩ with
  | none => rfl
  | some known => rfl

end Inference

end ErrorContracts
