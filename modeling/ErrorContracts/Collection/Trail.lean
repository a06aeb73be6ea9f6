/-!
# Following and exploring

Three ways of walking through finitely many elements.  Each carries the list of elements that are
still fresh and strikes out those it has met, so it ends on every input.
-/

namespace ErrorContracts

variable {α : Type} [DecidableEq α]

theorem length_erase_lt {a : α} {l : List α} (h : a ∈ l) : (l.erase a).length < l.length := by
  rw [List.length_erase_of_mem h]
  have := List.length_pos_of_mem h
  omega

/--
The elements met when `next` is followed from `a`.  The walk ends where `next` is undefined and at
an element that is not fresh, which is still listed if it was met again.
-/
def trail (next : α → Option α) (fresh : List α) (a : α) : List α :=
  if _h : a ∈ fresh then
    match next a with
    | some b => b :: trail next (fresh.erase a) b
    | none => []
  else []
termination_by fresh.length
decreasing_by exact length_erase_lt _h

/-- The fresh elements that the pending ones lead to, in the order of discovery. -/
def explore (next : α → List α) (fresh : List α) : List α → List α
  | [] => []
  | a :: pending =>
      if _h : a ∈ fresh then a :: explore next (fresh.erase a) (next a ++ pending)
      else explore next fresh pending
termination_by pending => (fresh.length, pending.length)
decreasing_by
  · exact Prod.Lex.left _ _ (length_erase_lt _h)
  · exact Prod.Lex.right _ (by simp)

theorem mem_fresh_of_mem_explore {next : α → List α} {fresh pending : List α} {a : α}
    (h : a ∈ explore next fresh pending) : a ∈ fresh := by
  fun_induction explore next fresh pending with
  | case1 => cases h
  | case2 fresh b pending hb ih =>
      rcases List.mem_cons.1 h with rfl | h
      · exact hb
      · exact List.mem_of_mem_erase (ih h)
  | case3 fresh b pending hb ih => exact ih h

theorem nodup_explore {next : α → List α} {fresh pending : List α} (h : fresh.Nodup) :
    (explore next fresh pending).Nodup := by
  fun_induction explore next fresh pending with
  | case1 => exact List.nodup_nil
  | case2 fresh b pending hb ih =>
      refine List.nodup_cons.2 ⟨fun again => ?_, ih (h.erase b)⟩
      exact h.not_mem_erase (mem_fresh_of_mem_explore again)
  | case3 fresh b pending hb ih => exact ih h

/-- The work left in the frames of a depth-first walk: each is left once, after its successors. -/
def workLeft {β : Type} : List (β × List β) → Nat
  | [] => 0
  | (_, untried) :: rest => untried.length + 1 + workLeft rest

/--
The fresh elements that a depth-first walk finishes, the one finished last in front.  A frame holds
an element and those of its successors that remain to be tried.
-/
def finishing (next : α → List α) (fresh : List α) (frames : List (α × List α))
    (finished : List α) : List α :=
  match frames with
  | [] => finished
  | (a, []) :: rest => finishing next fresh rest (a :: finished)
  | (a, b :: untried) :: rest =>
      if _h : b ∈ fresh then
        finishing next (fresh.erase b) ((b, next b) :: (a, untried) :: rest) finished
      else finishing next fresh ((a, untried) :: rest) finished
termination_by (fresh.length, workLeft frames)
decreasing_by
  · exact Prod.Lex.right _ (by simp [workLeft])
  · exact Prod.Lex.left _ _ (length_erase_lt _h)
  · exact Prod.Lex.right _ (by simp [workLeft])

end ErrorContracts
