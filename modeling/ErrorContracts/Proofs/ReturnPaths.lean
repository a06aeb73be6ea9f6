import ErrorContracts.Proofs.Admission
import ErrorContracts.Proofs.Dependence
import ErrorContracts.Proofs.Lookups
import ErrorContracts.Proofs.ReturnedValues

/-!
# Values returned along paths

A path from a block to a return gives a value: the returned one, where along each edge a phi of the
target is replaced by what flows into it.  The search for the values of a block keeps those of every
block that it has left, and uses them again.  They were collected while the blocks on the way there
could not be entered, so they miss the paths through these.

Nothing is missed on a path of which no step leads back, that is, from a block `s` to one that some
way from the start to `s` passes.  Where a step leads back, nothing is missed either if the value is
no phi any more.  If every cycle is entered at one block, then no path that repeats no block has a
step that leads back.
-/

namespace ErrorContracts

theorem Block.through_of_not_hasPhi {b : Block} {source v : Handle} (settled : b.hasPhi v = false) :
    b.through source v = v := by
  unfold through
  split
  · rename_i h incoming found
    have here := List.find?_some found
    have inside := List.mem_of_find?_eq_some found
    simp only [hasPhi, List.any_eq_false, Bool.and_eq_true] at settled
    exact absurd ⟨here, rfl⟩ (settled _ inside)
  · rfl

theorem Block.mem_targets {b : Block} {s : Nat} (target : s ∈ b.targets) :
    s = exitNode ∨ s ∈ b.terminator.successors := by
  unfold targets at target
  split at target
  · exact .inl (List.mem_singleton.1 target)
  · exact .inl (List.mem_singleton.1 target)
  · exact .inr target

/-- A list is a chain, or a chain behind the last place where it is not. -/
theorem isChain_or_exists_last {α : Type} (R : α → α → Prop) (l : List α) :
    l.IsChain R ∨
      ∃ before a b after, l = before ++ a :: b :: after ∧ ¬R a b ∧ (b :: after).IsChain R := by
  induction l with
  | nil => exact .inl .nil
  | cons a l ih =>
      rcases ih with chain | ⟨before, b, c, after, rfl, broken, chain⟩
      · cases l with
        | nil => exact .inl (.singleton a)
        | cons b l =>
            by_cases related : R a b
            · exact .inl (.cons_cons related chain)
            · exact .inr ⟨[], a, b, l, rfl, related, chain⟩
      · exact .inr ⟨a :: before, b, c, after, rfl, broken, chain⟩

namespace Routine

/-! ## Values along a path -/

/-- What a value is at the end of `source`, in front of the edge to `target`. -/
def through (r : Routine) (source target v : Handle) : Handle :=
  ((r.block? target).map fun b => b.through source v).getD v

/-- What a value at the end of a path is at the end of its first block. -/
def carried (r : Routine) : List Handle → Handle → Handle
  | source :: target :: rest, v => r.through source target (r.carried (target :: rest) v)
  | _, v => v

/-- The path leads from `b` to a block that returns `v`. -/
def ReturnsAlong (r : Routine) (passed : List Handle) (b v : Handle) : Prop :=
  ∃ e ∈ r.blocks, e.terminator = .ret (some v) ∧ r.graph.Path b e.handle passed

/-- Whether a value is a phi of a block. -/
def isPhi (r : Routine) (v : Handle) : Bool := r.blocks.any fun b => b.hasPhi v

/-- Some way from `root` to `s`, on which no block is repeated, passes `w`. -/
def LeadsBack (r : Routine) (root s w : Handle) : Prop :=
  ∃ way, r.graph.Path root s way ∧ way.Nodup ∧ w ∈ way

/-- No step of the path leads back. -/
def Onward (r : Routine) (root : Handle) (passed : List Handle) : Prop :=
  passed.IsChain fun s w => ¬r.LeadsBack root s w

/-- Where a step of the path leads back, the value is no phi any more. -/
def Steady (r : Routine) (root : Handle) (passed : List Handle) (v : Handle) : Prop :=
  ∀ before s w after, passed = before ++ s :: w :: after → r.LeadsBack root s w →
    r.isPhi (r.carried (w :: after) v) = false

variable {r : Routine} {v : Handle} {passed : List Handle}

theorem through_of_not_isPhi (settled : r.isPhi v = false) (source target : Handle) :
    r.through source target v = v := by
  unfold through
  cases found : r.block? target with
  | none => rfl
  | some b =>
      simp only [isPhi, List.any_eq_false, Bool.not_eq_true] at settled
      exact Block.through_of_not_hasPhi (settled b (List.mem_of_find?_eq_some found))

theorem carried_of_not_isPhi (settled : r.isPhi v = false) (passed : List Handle) :
    r.carried passed v = v := by
  fun_induction carried r passed v with
  | case1 source target rest v ih =>
      rw [ih settled]
      exact through_of_not_isPhi settled source target
  | case2 => rfl

theorem carried_append (r : Routine) (before after : List Handle) (w v : Handle) :
    r.carried (before ++ w :: after) v = r.carried (before ++ [w]) (r.carried (w :: after) v) := by
  induction before with
  | nil => rfl
  | cons a before ih =>
      cases before with
      | nil => rfl
      | cons b before =>
          rw [List.cons_append, List.cons_append, carried, ← List.cons_append, ih]
          rfl

theorem Numbered.ne_exit_of_path (numbered : r.Numbered) {a : Handle} {e : Block}
    (inside : e ∈ r.blocks) (path : r.graph.Path a e.handle passed) : a ≠ exitNode := by
  rintro rfl
  have inner : e.handle ≠ exitNode := numbered.inside e inside
  generalize e.handle = k at path inner
  cases path with
  | here => exact inner rfl
  | step edge _ =>
      obtain ⟨d, listed, zero, -⟩ := exists_block_of_mem_succs edge
      exact numbered.inside d listed zero

/-- A path to a return ends where it starts, or goes on to a successor of the block. -/
theorem ReturnsAlong.cases (numbered : r.Numbered) {b : Block} (inside : b ∈ r.blocks)
    (along : r.ReturnsAlong passed b.handle v) :
    passed = [b.handle] ∧ b.terminator = .ret (some v) ∨
      ∃ w rest, w ∈ b.terminator.successors ∧ passed = b.handle :: w :: rest ∧
        r.ReturnsAlong (w :: rest) w v := by
  obtain ⟨e, last, returned, path⟩ := along
  generalize start : b.handle = h at path
  generalize stop : e.handle = k at path
  cases path with
  | here =>
      rw [List.inj_on_of_nodup_map numbered.nodup inside last (start.trans stop.symm)]
      exact .inl ⟨rfl, returned⟩
  | @step _ w _ rest edge path =>
      subst start stop
      have starts : rest = w :: rest.tail := by cases path <;> rfl
      have inner : w ≠ exitNode := numbered.ne_exit_of_path last path
      refine .inr ⟨w, rest.tail, ?_, by rw [← starts], e, last, returned, starts ▸ path⟩
      rw [numbered.succs_handle inside] at edge
      exact (Block.mem_targets edge).resolve_left inner

/-! ## The search -/

section Search

variable {root n s : Handle} {b : Block} {fresh way untried collected values : List Handle}
  {known : SortedMap Handle (List Handle)}

/-- The values have those of all paths from `s` of which no step leads back. -/
def Complete (r : Routine) (root s : Handle) (values : List Handle) : Prop :=
  ∀ passed v, r.ReturnsAlong passed s v → r.Onward root passed → r.carried passed v ∈ values

/-- The values have those of all such paths from `n` through one of the given successors. -/
def Collects (r : Routine) (root n : Handle) (untried values : List Handle) : Prop :=
  ∀ s ∈ untried, ¬r.LeadsBack root n s → ∀ passed v, r.ReturnsAlong passed s v →
    r.Onward root passed → r.through n s (r.carried passed v) ∈ values

/-- The search has come to `n` on the given way, and the blocks off this way are fresh. -/
structure Standing (r : Routine) (root : Handle) (fresh : List Handle) (n : Handle)
    (way : List Handle) : Prop where
  path : r.graph.Path root n way
  once : way.Nodup
  distinct : fresh.Nodup
  apart : ∀ k ∈ fresh, k ∉ way
  whole : ∀ k ∈ r.blocks.map Block.handle, k ∈ fresh ∨ k ∈ way

theorem Standing.enter (standing : r.Standing root fresh n way) (edge : s ∈ r.graph.succs n)
    (isFresh : s ∈ fresh) : r.Standing root (fresh.erase s) s (way ++ [s]) where
  path := standing.path.snoc edge
  once := by
    have new := standing.apart s isFresh
    exact List.nodup_append.2 ⟨standing.once, List.nodup_singleton s, by grind⟩
  distinct := standing.distinct.erase s
  apart k member := by
    obtain ⟨other, old⟩ := standing.distinct.mem_erase_iff.1 member
    simp [standing.apart k old, other]
  whole k listed := by
    rcases standing.whole k listed with old | passed
    · by_cases same : k = s
      · exact .inr (by simp [same])
      · exact .inl ((List.mem_erase_of_ne same).2 old)
    · exact .inr (List.mem_append_left _ passed)

theorem Numbered.standing (numbered : r.Numbered) (b : Block) :
    r.Standing b.handle ((r.blocks.map Block.handle).erase b.handle) b.handle [b.handle] where
  path := .here b.handle
  once := List.nodup_singleton _
  distinct := numbered.nodup.erase _
  apart k member := by simpa using (numbered.nodup.mem_erase_iff.1 member).1
  whole k listed := by
    by_cases same : k = b.handle
    · exact .inr (by simp [same])
    · exact .inl ((List.mem_erase_of_ne same).2 listed)

theorem Numbered.mem_succs_of_successor (numbered : r.Numbered) (inside : b ∈ r.blocks)
    (successor : s ∈ b.terminator.successors) : s ∈ r.graph.succs b.handle := by
  rw [numbered.succs_handle inside, Block.targets]
  cases exit : b.terminator with
  | ret | unreachable => rw [exit] at successor; cases successor
  | jump | branch => rwa [exit] at successor

theorem through_of_block? {next : Block} (found : r.block? s = some next) (source v : Handle) :
    r.through source s v = next.through source v := by
  rw [through, found]
  rfl

theorem mem_returnsAfter : v ∈ (r.returnsAfter fresh b known).1 ↔
    b.terminator = .ret (some v) ∨
      v ∈ (r.returnsThrough fresh b b.terminator.successors [] known).1 := by
  unfold returnsAfter
  cases b.terminator with
  | ret w => simp [Terminator.successors, returnsThrough]
  | _ => simp

theorem returnsAfter_snd : (r.returnsAfter fresh b known).2 =
    (r.returnsThrough fresh b b.terminator.successors [] known).2 := by
  unfold returnsAfter
  cases b.terminator with
  | ret w => simp [Terminator.successors, returnsThrough]
  | _ => rfl

theorem subset_returnsThrough :
    collected ⊆ (r.returnsThrough fresh b untried collected known).1 := by
  fun_induction returnsThrough r fresh b untried collected known with
  | case1 fresh b collected known => exact fun _ member => member
  | case2 fresh b collected known s untried missing ih => exact ih
  | case3 fresh b collected known s untried next found values finished ih =>
      exact fun v member => ih (mem_extend.2 (.inl member))
  | case4 fresh b collected known s untried next found unfinished isFresh values known' entered
      inner ih => exact fun v member => ih (mem_extend.2 (.inl member))
  | case5 fresh b collected known s untried next found unfinished taken ih => exact ih

/-- The values of a successor are passed on along the edge to it. -/
theorem through_mem_returnsThrough {next : Block} (found : r.block? s = some next)
    (member : v ∈ values) : r.through n s v ∈
      (r.returnsThrough fresh b untried
        (extend collected (values.map (next.through n))) known).1 := by
  refine subset_returnsThrough (mem_extend.2 (.inr ?_))
  rw [through_of_block? found]
  exact List.mem_map_of_mem member

/-- What is collected through all successors of a block is complete for it. -/
theorem Collects.complete (numbered : r.Numbered) (inside : b ∈ r.blocks)
    (collects : r.Collects root b.handle b.terminator.successors
      (r.returnsThrough fresh b b.terminator.successors [] known).1) :
    r.Complete root b.handle (r.returnsAfter fresh b known).1 := by
  intro passed v along onward
  rw [mem_returnsAfter]
  rcases along.cases numbered inside with ⟨rfl, returned⟩ | ⟨w, rest, successor, rfl, after⟩
  · exact .inl returned
  · obtain ⟨ahead, onward⟩ := List.isChain_cons_cons.1 onward
    exact .inr (collects w successor ahead (w :: rest) v after onward)

/--
What is known stays complete, and what is collected is.  A successor that is neither known nor
fresh stands on the way, so the step to it leads back.
-/
theorem collects_returnsThrough (numbered : r.Numbered) (inside : b ∈ r.blocks)
    (listed : untried ⊆ b.terminator.successors)
    (standing : r.Standing root fresh b.handle way)
    (complete : ∀ s values, known.get? s = some values → r.Complete root s values) :
    (∀ s values, (r.returnsThrough fresh b untried collected known).2.get? s = some values →
        r.Complete root s values) ∧
      r.Collects root b.handle untried
        (r.returnsThrough fresh b untried collected known).1 := by
  fun_induction returnsThrough r fresh b untried collected known generalizing way with
  | case1 fresh b collected known => exact ⟨complete, by simp [Collects]⟩
  | case2 fresh b collected known s untried missing ih =>
      have owned := block?_isSome (r.closed b inside s (listed List.mem_cons_self))
      rw [missing] at owned
      cases owned
  | case3 fresh b collected known s untried next found values finished ih =>
      obtain ⟨kept, collects⟩ := ih inside (List.cons_subset.1 listed).2 standing complete
      refine ⟨kept, List.forall_mem_cons.2 ⟨fun ahead passed v along onward => ?_, collects⟩⟩
      exact through_mem_returnsThrough found (complete s values finished passed v along onward)
  | case4 fresh b collected known s untried next found unfinished isFresh values known' entered
      inner ih =>
      obtain rfl : (r.returnsAfter (fresh.erase s) next known).1 = values :=
        congrArg Prod.fst entered
      obtain rfl : (r.returnsAfter (fresh.erase s) next known).2 = known' :=
        congrArg Prod.snd entered
      obtain rfl := handle_of_block? found
      obtain ⟨successor, listed⟩ := List.cons_subset.1 listed
      have edge := numbered.mem_succs_of_successor inside successor
      have member := List.mem_of_find?_eq_some found
      obtain ⟨kept, collects⟩ := inner next.terminator member (fun _ h => h)
        (standing.enter edge isFresh) complete
      -- the values that are kept for the block when it is left
      have whole := collects.complete numbered member
      rw [← returnsAfter_snd] at kept
      refine (ih inside listed standing fun k vs => ?_).imp_right fun collects =>
        List.forall_mem_cons.2 ⟨fun ahead passed v along onward => ?_, collects⟩
      · rw [SortedMap.get?_insert]
        split
        · rename_i here
          rintro ⟨⟩
          exact here ▸ whole
        · exact kept k vs
      · exact through_mem_returnsThrough found (whole passed v along onward)
  | case5 fresh b collected known s untried next found unfinished taken ih =>
      obtain ⟨kept, collects⟩ := ih inside (List.cons_subset.1 listed).2 standing complete
      refine ⟨kept, List.forall_mem_cons.2 ⟨fun ahead => ?_, collects⟩⟩
      have back := (standing.whole s (mem_handles_of_block? found)).resolve_left taken
      exact absurd ⟨way, standing.path, standing.once, back⟩ ahead

/-- A value that is no phi is collected, wherever the search has found it. -/
theorem settled_returnsThrough
    (found : (r.returnsThrough fresh b untried collected known).2.get? n = some values) :
    known.get? n = some values ∨ ∀ v ∈ values, r.isPhi v = false →
      v ∈ (r.returnsThrough fresh b untried collected known).1 := by
  fun_induction returnsThrough r fresh b untried collected known generalizing n values with
  | case1 fresh b collected known => exact .inl found
  | case2 fresh b collected known s untried missing ih => exact ih found
  | case3 fresh b collected known s untried next listed others finished ih => exact ih found
  | case4 fresh b collected known s untried next listed unfinished isFresh others known' entered
      inner ih =>
      obtain rfl : (r.returnsAfter (fresh.erase s) next known).1 = others :=
        congrArg Prod.fst entered
      obtain rfl : (r.returnsAfter (fresh.erase s) next known).2 = known' :=
        congrArg Prod.snd entered
      rcases ih found with old | new
      · rw [SortedMap.get?_insert] at old
        split at old
        · cases old
          refine .inr fun v member settled => ?_
          rw [← through_of_not_isPhi settled b.handle s]
          exact through_mem_returnsThrough listed member
        · rw [returnsAfter_snd] at old
          refine (inner next.terminator old).imp_right fun new v member settled => ?_
          rw [← through_of_not_isPhi settled b.handle s]
          exact through_mem_returnsThrough listed
            (mem_returnsAfter.2 (.inr (new v member settled)))
      · exact .inr new
  | case5 fresh b collected known s untried next listed unfinished taken ih => exact ih found

theorem contains_returnsThrough (old : known.contains n = true) :
    (r.returnsThrough fresh b untried collected known).2.contains n = true := by
  fun_induction returnsThrough r fresh b untried collected known with
  | case1 fresh b collected known => exact old
  | case2 fresh b collected known s untried missing ih => exact ih old
  | case3 fresh b collected known s untried next found values finished ih => exact ih old
  | case4 fresh b collected known s untried next found unfinished isFresh values known' entered
      inner ih =>
      obtain rfl : (r.returnsAfter (fresh.erase s) next known).2 = known' :=
        congrArg Prod.snd entered
      refine ih (SortedMap.contains_insert.2 (.inr ?_))
      rw [returnsAfter_snd]
      exact inner next.terminator old
  | case5 fresh b collected known s untried next found unfinished taken ih => exact ih old

/-- The successors of a block that is known are known, but for those that were not fresh. -/
def Followed (r : Routine) (fresh : List Handle) (known : SortedMap Handle (List Handle)) : Prop :=
  ∀ b ∈ r.blocks, known.contains b.handle = true → ∀ s ∈ b.terminator.successors,
    known.contains s = true ∨ s ∉ fresh

theorem Followed.erase (followed : r.Followed fresh known) (n : Handle) :
    r.Followed (fresh.erase n) known := fun b inside done s step =>
  (followed b inside done s step).imp_right fun stale => stale ∘ List.mem_of_mem_erase

/-- A block that is left is known, and may be a successor of others then. -/
theorem Followed.insert (numbered : r.Numbered) (inside : b ∈ r.blocks)
    (followed : r.Followed (fresh.erase b.handle) known)
    (met : ∀ s ∈ b.terminator.successors, known.contains s = true ∨ s ∉ fresh.erase b.handle)
    (values : List Handle) : r.Followed fresh (known.insert b.handle values) := by
  intro k listed done s step
  have next : known.contains s = true ∨ s ∉ fresh.erase b.handle := by
    rcases SortedMap.contains_insert.1 done with same | done
    · rw [List.inj_on_of_nodup_map numbered.nodup listed inside same] at step
      exact met s step
    · exact followed k listed done s step
  by_cases here : s = b.handle
  · exact .inl (SortedMap.contains_insert.2 (.inl here))
  · rw [List.mem_erase_of_ne here] at next
    exact next.imp_left fun known => SortedMap.contains_insert.2 (.inr known)

theorem followed_returnsThrough (numbered : r.Numbered)
    (listed : untried ⊆ r.blocks.map Block.handle) (followed : r.Followed fresh known) :
    r.Followed fresh (r.returnsThrough fresh b untried collected known).2 ∧
      ∀ s ∈ untried, (r.returnsThrough fresh b untried collected known).2.contains s = true ∨
        s ∉ fresh := by
  fun_induction returnsThrough r fresh b untried collected known with
  | case1 fresh b collected known => exact ⟨followed, by simp⟩
  | case2 fresh b collected known s untried missing ih =>
      have owned := block?_isSome (listed List.mem_cons_self)
      rw [missing] at owned
      cases owned
  | case3 fresh b collected known s untried next found values finished ih =>
      obtain ⟨kept, met⟩ := ih (List.cons_subset.1 listed).2 followed
      have old : known.contains s = true := by simp [SortedMap.contains, finished]
      exact ⟨kept, List.forall_mem_cons.2 ⟨.inl (contains_returnsThrough old), met⟩⟩
  | case4 fresh b collected known s untried next found unfinished isFresh values known' entered
      inner ih =>
      obtain rfl : (r.returnsAfter (fresh.erase s) next known).2 = known' :=
        congrArg Prod.snd entered
      obtain rfl := handle_of_block? found
      have member := List.mem_of_find?_eq_some found
      obtain ⟨kept, met⟩ := inner next.terminator (r.closed next member) (followed.erase _)
      rw [← returnsAfter_snd] at kept met
      obtain ⟨kept, met⟩ := ih (List.cons_subset.1 listed).2 (kept.insert numbered member met _)
      refine ⟨kept, List.forall_mem_cons.2 ⟨.inl (contains_returnsThrough ?_), met⟩⟩
      exact SortedMap.contains_insert.2 (.inl rfl)
  | case5 fresh b collected known s untried next found unfinished taken ih =>
      obtain ⟨kept, met⟩ := ih (List.cons_subset.1 listed).2 followed
      exact ⟨kept, List.forall_mem_cons.2 ⟨.inr taken, met⟩⟩

end Search

/-! ## Values of a block -/

variable {b : Block}

/-- What the search from a block collects, and what it knows of other blocks in the end. -/
def searched (r : Routine) (b : Block) : List Handle × SortedMap Handle (List Handle) :=
  r.returnsAfter ((r.blocks.map Block.handle).erase b.handle) b ∅

theorem searched_fst (r : Routine) (b : Block) : (r.searched b).1 = r.blockReturns b :=
  (r.blockReturns_eq b).symm

/-- The search knows the values of every block that it can come to. -/
theorem Numbered.contains_of_reaches (numbered : r.Numbered) (inside : b ∈ r.blocks) {n : Handle}
    (reached : r.graph.Reaches b.handle n) :
    n = b.handle ∨ n = exitNode ∨ (r.searched b).2.contains n = true := by
  obtain ⟨followed, met⟩ :
      r.Followed ((r.blocks.map Block.handle).erase b.handle) (r.searched b).2 ∧
        ∀ s ∈ b.terminator.successors, (r.searched b).2.contains s = true ∨
          s ∉ (r.blocks.map Block.handle).erase b.handle := by
    unfold searched
    rw [returnsAfter_snd]
    exact followed_returnsThrough numbered (r.closed b inside) fun _ _ done => by cases done
  obtain ⟨passed, path⟩ := reached
  refine path.induction_snoc (motive := fun n _ => n = b.handle ∨ n = exitNode ∨
    (r.searched b).2.contains n = true) (.inl rfl) fun c d passed path edge ih => ?_
  obtain ⟨k, listed, rfl, target⟩ := exists_block_of_mem_succs edge
  rcases Block.mem_targets target with rfl | successor
  · exact .inr (.inl rfl)
  have next : (r.searched b).2.contains d = true ∨
      d ∉ (r.blocks.map Block.handle).erase b.handle := by
    rcases ih with start | leaving | done
    · rw [List.inj_on_of_nodup_map numbered.nodup listed inside start] at successor
      exact met d successor
    · exact absurd leaving (numbered.inside k listed)
    · exact followed k listed done d successor
  by_cases start : d = b.handle
  · exact .inl start
  · rw [List.mem_erase_of_ne start] at next
    exact .inr (.inr (next.resolve_right fun foreign => foreign (r.closed k listed d successor)))

theorem Numbered.complete_searched (numbered : r.Numbered) (inside : b ∈ r.blocks) :
    (∀ s values, (r.searched b).2.get? s = some values → r.Complete b.handle s values) ∧
      r.Complete b.handle b.handle (r.searched b).1 := by
  unfold searched
  rw [returnsAfter_snd]
  exact (collects_returnsThrough numbered inside (fun _ h => h) (numbered.standing b)
    (fun _ _ found => by cases found)).imp_right (Collects.complete numbered inside)

/-- A value that is no phi is not missed, wherever on the way the search has found it. -/
theorem Numbered.carried_mem_of_settled (numbered : r.Numbered) (inside : b ∈ r.blocks) {w : Handle}
    (reached : r.graph.Reaches b.handle w) (along : r.ReturnsAlong passed w v)
    (onward : r.Onward b.handle passed) (settled : r.isPhi (r.carried passed v) = false) :
    r.carried passed v ∈ (r.searched b).1 := by
  obtain ⟨complete, whole⟩ := numbered.complete_searched inside
  rcases numbered.contains_of_reaches inside reached with rfl | leaving | done
  · exact whole passed v along onward
  · obtain ⟨e, last, -, path⟩ := along
    exact absurd leaving (numbered.ne_exit_of_path last path)
  · obtain ⟨values, found⟩ := Option.isSome_iff_exists.1 done
    have member := complete w values found passed v along onward
    unfold searched at found ⊢
    rw [returnsAfter_snd] at found
    rcases settled_returnsThrough found with none | passes
    · cases none
    · exact mem_returnsAfter.2 (.inr (passes _ member settled))

/-- The search collects the value of a path on which it is no phi where a step leads back. -/
theorem Numbered.carried_mem_of_steady (numbered : r.Numbered) (inside : b ∈ r.blocks)
    (along : r.ReturnsAlong passed b.handle v) (steady : r.Steady b.handle passed v) :
    r.carried passed v ∈ (r.searched b).1 := by
  rcases isChain_or_exists_last (fun s w => ¬r.LeadsBack b.handle s w) passed with
    onward | ⟨before, s, w, after, rfl, back, onward⟩
  · exact (numbered.complete_searched inside).2 passed v along onward
  · -- behind the last step that leads back, the value does not change any more
    have settled := steady before s w after rfl (not_not.1 back)
    obtain ⟨e, last, returned, path⟩ := along
    rw [List.append_cons] at path ⊢
    obtain ⟨first, second⟩ := path.split
    rw [carried_append, carried_of_not_isPhi settled]
    exact numbered.carried_mem_of_settled inside ⟨_, first⟩ ⟨e, last, returned, second⟩ onward
      settled

end Routine

/-- Each cycle that can be reached from `a` has a node that all ways from `a` into it pass. -/
def Graph.Headed {ν : Type} [DecidableEq ν] (g : Graph ν) (a : ν) : Prop :=
  ∀ n s cycle, g.Reaches a n → s ∈ g.succs n → g.Path s n cycle →
    ∃ h ∈ cycle, ∀ k ∈ cycle, ∀ way, g.Path a k way → h ∈ way

/-- Where every cycle has such a node, no step of a path without repeats leads back. -/
theorem Graph.Headed.steady {r : Routine} {b e : Handle} (headed : r.graph.Headed b)
    {passed : List Handle} (path : r.graph.Path b e passed) (once : passed.Nodup) (v : Handle) :
    r.Steady b passed v := by
  rintro before s w after rfl ⟨way, there, distinct, back⟩
  obtain ⟨straight, onward⟩ := path.split
  have edge : w ∈ r.graph.succs s := by
    cases onward with
    | step edge rest => cases rest <;> exact edge
  obtain ⟨first, last, rfl⟩ := List.append_of_mem back
  obtain ⟨enter, round⟩ := there.split
  -- the way enters the cycle at `w`, the path at another block
  obtain ⟨h, inside, through⟩ := headed s w (w :: last) ⟨_, straight⟩ edge round
  have same : h = w := by
    rcases List.mem_append.1 (through w List.mem_cons_self _ enter) with early | here
    · exact absurd inside (List.disjoint_of_nodup_append distinct early)
    · exact List.mem_singleton.1 here
  subst same
  rw [List.append_cons] at once
  have onPath := through s round.end_mem _ straight
  exact (List.disjoint_of_nodup_append once onPath List.mem_cons_self).elim

/-- Cycles lead through `a` itself if the nodes can be ranked so that all other edges go up. -/
theorem Graph.Headed.of_rank {ν : Type} [DecidableEq ν] {g : Graph ν} {a : ν} (rank : ν → Nat)
    (ascends : ∀ n ∈ g.nodes, ∀ s ∈ g.succs n, s ≠ a → rank n < rank s) : g.Headed a := by
  rintro n s cycle - edge path
  refine ⟨a, ?_, fun k _ way start => start.start_mem⟩
  by_contra off
  have upward : rank s ≤ rank n := by
    clear edge
    induction path with
    | here => exact le_rfl
    | step edge path ih =>
        obtain ⟨-, off⟩ := not_or.1 (mt List.mem_cons.2 off)
        have other := ne_of_mem_of_not_mem path.start_mem off
        exact (ascends _ (mem_nodes_of_mem_succs edge) _ edge other).le.trans (ih off)
  have up := ascends n (mem_nodes_of_mem_succs edge) s edge
    (ne_of_mem_of_not_mem path.start_mem off)
  exact absurd upward (not_le_of_gt up)

/--
The value of a path to a return that repeats no block is one of the values of its first block, if it
is no phi any more wherever a step of the path leads back or if every cycle is entered at one block.
-/
theorem Routine.mem_blockReturns {m : Module} {edits : List Edit} {f : Handle} {r : Routine}
    (built : m = Module.build {} edits) (read : ofFunction m f = .ok r) {b e : Block}
    (inside : b ∈ r.blocks) (last : e ∈ r.blocks) {v : Handle}
    (returned : e.terminator = .ret (some v)) {passed : List Handle}
    (path : r.graph.Path b.handle e.handle passed) (once : passed.Nodup)
    (apt : r.Steady b.handle passed v ∨ r.graph.Headed b.handle) :
    r.carried passed v ∈ r.blockReturns b := by
  subst built
  have numbered := numbered_of_read read
  have steady : r.Steady b.handle passed v := apt.elim id fun headed => headed.steady path once v
  rw [← r.searched_fst]
  exact numbered.carried_mem_of_steady inside ⟨e, last, returned, path⟩ steady

/-! ## A cycle with two entries -/

/-- A function in which the blocks `a` and `b` lead to each other, and `entry` to both. -/
def crossed : Module :=
  Module.build {}
    [.external "read" .i32,
      .function "f" .i32 [],
      .block 2 "entry", .block 2 "a", .block 2 "b", .block 2 "out", .block 2 "stop",
      .call (some 3) 1 [] "t" none,
      .compare (some 3) .slt (.value 8) (.literal 0) "c", .branch (some 3) (.value 9) 4 5,
      .phi (some 4) .i32 [(.literal 1, 3), (.literal 2, 5)] "p", .branch (some 4) (.value 9) 5 6,
      .branch (some 5) (.value 9) 4 7,
      .ret (some 6) (some (.value 12)),
      .ret (some 7) (some (.literal 0))]

/-- The flow graph of the function in `crossed`. -/
def crossedGraph : Graph Nat :=
  ⟨3, [(3, [4, 5]), (4, [5, 6]), (5, [4, 7]), (6, [0]), (7, [0]), (0, [])]⟩

/-- The values of its blocks: 10 is the constant 0, 12 the phi of `a`, 13 and 14 flow into it. -/
theorem crossed_read :
    ∃ r entry b out stop, Routine.ofFunction crossed 2 = .ok r ∧ r.graph = crossedGraph ∧
      (entry ∈ r.blocks ∧ entry.handle = 3 ∧ r.blockReturns entry = [10, 13]) ∧
      (b ∈ r.blocks ∧ b.handle = 5) ∧
      (out ∈ r.blocks ∧ out.handle = 6 ∧ out.terminator = .ret (some 12)) ∧
      (stop ∈ r.blocks ∧ stop.handle = 7 ∧ stop.terminator = .ret (some 10)) ∧
      r.isPhi 10 = false ∧ r.carried [3, 5, 4, 6] 12 = 14 := by
  have checked : (Routine.ofFunction crossed 2).toOption.any (fun r =>
      r.graph = crossedGraph ∧ r.isPhi 10 = false ∧ r.carried [3, 5, 4, 6] 12 = 14 ∧
        (∃ b ∈ r.blocks, b.handle = 3 ∧ r.blockReturns b = [10, 13]) ∧
        (∃ b ∈ r.blocks, b.handle = 5) ∧
        (∃ b ∈ r.blocks, b.handle = 6 ∧ b.terminator = .ret (some 12)) ∧
        (∃ b ∈ r.blocks, b.handle = 7 ∧ b.terminator = .ret (some 10))) = true := by
    cbv
  obtain ⟨r, read, facts⟩ := Routine.exists_read checked
  obtain ⟨graph, settled, carried, ⟨entry, first⟩, ⟨b, second⟩, ⟨out, third⟩, ⟨stop, fourth⟩⟩ :=
    of_decide_eq_true facts
  exact ⟨r, entry, b, out, stop, read, graph, first, second, third, fourth, settled, carried⟩

/--
The step from `a` to `b` leads back, but the constant that `stop` returns is no phi.  From `b` on,
the cycle has one entry, and what flows into the phi of `a` along the edge from `b` is found.
-/
theorem mem_blockReturns_crossed :
    ∃ r entry b, Routine.ofFunction crossed 2 = .ok r ∧ entry ∈ r.blocks ∧ b ∈ r.blocks ∧
      r.carried [3, 4, 5, 7] 10 ∈ r.blockReturns entry ∧
      r.carried [5, 4, 6] 12 ∈ r.blockReturns b := by
  obtain ⟨r, entry, b, out, stop, read, graph, ⟨inside, atEntry, -⟩, ⟨inside', atB⟩,
    ⟨last, atOut, returns⟩, ⟨last', atStop, returns'⟩, settled, -⟩ := crossed_read
  have long : r.graph.Path entry.handle stop.handle [3, 4, 5, 7] := by
    rw [graph, atEntry, atStop]
    exact .step (by decide) (.step (by decide) (.step (by decide) (.here 7)))
  have short : r.graph.Path b.handle out.handle [5, 4, 6] := by
    rw [graph, atB, atOut]
    exact .step (by decide) (.step (by decide) (.here 6))
  have steady : r.Steady entry.handle [3, 4, 5, 7] 10 := by
    intro before s w after _ _
    rw [Routine.carried_of_not_isPhi settled]
    exact settled
  have headed : r.graph.Headed b.handle := by
    rw [graph, atB]
    exact .of_rank (fun n => [3, 0, 0, 0, 1, 0, 2, 2].getD n 0) (by decide)
  refine ⟨r, entry, b, read, inside, inside', ?_, ?_⟩
  · exact Routine.mem_blockReturns (m := crossed) rfl read inside last' returns' long (by decide)
      (.inl steady)
  · exact Routine.mem_blockReturns (m := crossed) rfl read inside' last returns short (by decide)
      (.inr headed)

/--
From `entry`, the search comes to `b` through `a` first, and does not go back.  The path through `b`
to `a` has the value 2, which is missed.
-/
theorem not_mem_blockReturns_crossed :
    ∃ r entry out, Routine.ofFunction crossed 2 = .ok r ∧ entry ∈ r.blocks ∧ out ∈ r.blocks ∧
      out.terminator = .ret (some 12) ∧ r.graph.Path entry.handle out.handle [3, 5, 4, 6] ∧
      [3, 5, 4, 6].Nodup ∧ r.carried [3, 5, 4, 6] 12 ∉ r.blockReturns entry := by
  obtain ⟨r, entry, b, out, stop, read, graph, ⟨inside, atEntry, values⟩, -, ⟨last, atOut, returns⟩,
    -, -, carried⟩ := crossed_read
  have path : r.graph.Path entry.handle out.handle [3, 5, 4, 6] := by
    rw [graph, atEntry, atOut]
    exact .step (by decide) (.step (by decide) (.step (by decide) (.here 6)))
  refine ⟨r, entry, out, read, inside, last, returns, path, by decide, ?_⟩
  rw [values, carried]
  decide

end ErrorContracts
