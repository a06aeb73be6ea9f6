import ErrorContracts.Routine.Basic

/-!
# Returned values

Two summaries of what a routine returns once control is at the end of a block.  `blockReturn?` gives
the value if nothing but jumps and phis can intervene.  `blockReturns` collects the values of all
paths that repeat no block.  In both, a returned phi is replaced by what flows into it along the
path.
-/

namespace ErrorContracts.Routine

/-- The value returned after the end of a block, through fresh forwarding blocks only. -/
def returnAfter? (r : Routine) (fresh : List Handle) (b : Block) : Option Handle :=
  match b.terminator with
  | .ret v => v
  | .jump t =>
      if _h : t ∈ fresh then
        match r.block? t with
        | some next =>
            if next.isForwarding then
              (r.returnAfter? (fresh.erase t) next).map (next.through b.handle)
            else none
        | none => none
      else none
  | _ => none
termination_by fresh.length
decreasing_by exact length_erase_lt _h

/-- The single value returned after the end of a block, unless it is a phi of that block. -/
def blockReturn? (r : Routine) (b : Block) : Option Handle :=
  (r.returnAfter? ((r.blocks.map Block.handle).erase b.handle) b).filter fun v => !b.hasPhi v

/-- Adds the values that are not there yet, in order. -/
def extend (collected : List Handle) (values : List Handle) : List Handle :=
  values.foldl (fun l v => if v ∈ l then l else l ++ [v]) collected

@[simp]
theorem mem_extend {collected values : List Handle} {v : Handle} :
    v ∈ extend collected values ↔ v ∈ collected ∨ v ∈ values := by
  induction values generalizing collected with
  | nil => simp [extend]
  | cons w values ih =>
      have step : extend collected (w :: values) =
          extend (if w ∈ collected then collected else collected ++ [w]) values := rfl
      rw [step, ih]
      grind

theorem nodup_extend {collected : List Handle} (values : List Handle) (h : collected.Nodup) :
    (extend collected values).Nodup := by
  induction values generalizing collected with
  | nil => exact h
  | cons w values ih =>
      refine ih ?_
      dsimp only
      split
      · exact h
      · rename_i fresh
        exact List.nodup_append.2 ⟨h, by simp, by grind⟩

/--
Collects what is returned through the successors `untried` of a block.  `known` holds the values
found so far for blocks that are done; a block on the way to the present one is not fresh and adds
nothing.
-/
def returnsThrough (r : Routine) (fresh : List Handle) (b : Block) (untried : List Handle)
    (collected : List Handle) (known : SortedMap Handle (List Handle)) :
    List Handle × SortedMap Handle (List Handle) :=
  match untried with
  | [] => (collected, known)
  | s :: untried =>
      match r.block? s with
      | none => r.returnsThrough fresh b untried collected known
      | some next =>
          match known.get? s with
          | some values =>
              r.returnsThrough fresh b untried
                (extend collected (values.map (next.through b.handle))) known
          | none =>
              if _h : s ∈ fresh then
                let (values, known) :=
                  match next.terminator with
                  | .ret v => (v.toList, known)
                  | t => r.returnsThrough (fresh.erase s) next t.successors [] known
                r.returnsThrough fresh b untried
                  (extend collected (values.map (next.through b.handle)))
                  (known.insert s values)
              else r.returnsThrough fresh b untried collected known
termination_by (fresh.length, untried.length)
decreasing_by
  · exact Prod.Lex.right _ (by simp)
  · exact Prod.Lex.right _ (by simp)
  · exact Prod.Lex.left _ _ (length_erase_lt _h)
  · exact Prod.Lex.right _ (by simp)
  · exact Prod.Lex.right _ (by simp)

/-- Every value that may be returned after the end of a block. -/
def blockReturns (r : Routine) (b : Block) : List Handle :=
  match b.terminator with
  | .ret v => v.toList
  | t =>
      (r.returnsThrough ((r.blocks.map Block.handle).erase b.handle) b t.successors [] ∅).1

end ErrorContracts.Routine
