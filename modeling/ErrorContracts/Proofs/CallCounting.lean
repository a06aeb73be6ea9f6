import ErrorContracts.Inference.Features
import ErrorContracts.Proofs.Postorder
import Mathlib.Algebra.BigOperators.Group.Finset.Basic
import Mathlib.Algebra.GroupWithZero.Nat

/-!
# Counting call sites

The features of called functions are counted in one pass over routines, blocks and instructions.  A
call site adds to the counts of its callee, which is entered behind all others when it is met first.
Which counts it adds to depends on the mark of its block, on what the block returns and on the
arguments.  Here the pass is given turn by turn.  No site is lost and none is counted twice, and the
counts of a function stay in step.
-/

namespace ErrorContracts

/-! ## The pass -/

/-- What has been counted for a function so far. -/
structure Tally where
  error : Nat := 0
  success : Nat := 0
  unclassified : Nat := 0
  callers : SortedSet Handle := ∅
  constantReturns : Nat := 0
  errorForwarding : Nat := 0
  literalArguments : Nat := 0

namespace Tally

def total (t : Tally) : Nat := t.error + t.success + t.unclassified

/-- Counts a site by what its block is known to do. -/
def classify (t : Tally) (site : CallSite) : Tally :=
  match site.fact with
  | some (.error _) =>
      { t with
        error := t.error + 1
        errorForwarding :=
          if site.passesArgument then t.errorForwarding + 1 else t.errorForwarding }
  | some .success => { t with success := t.success + 1 }
  | none => { t with unclassified := t.unclassified + 1 }

/-- Counts one more call site. -/
def count (t : Tally) (site : CallSite) : Tally :=
  let t := { t with callers := t.callers.insert site.caller }.classify site
  { t with
    constantReturns := if site.returnsConstant then t.constantReturns + 1 else t.constantReturns
    literalArguments := if site.passesLiteral then t.literalArguments + 1 else t.literalArguments }

/-- Counts a call site for its callee, which is entered at the end if it is new. -/
def record (table : List (Handle × Tally)) (site : CallSite) : List (Handle × Tally) :=
  match table with
  | [] => [(site.callee, count {} site)]
  | (f, t) :: rest =>
      if f = site.callee then (f, t.count site) :: rest else (f, t) :: record rest site

/-- Counts an instruction if it is a call site. -/
def visit (m : Module) (r : Routine) (fact : Option Fact) (returnsConstant : Bool)
    (table : List (Handle × Tally)) (step : Step) : List (Handle × Tally) :=
  match CallSite.ofStep? m r fact returnsConstant step with
  | some site => record table site
  | none => table

/-- The table after all instructions of all blocks of some routines. -/
def ofRoutines (m : Module) (facts : SortedMap Handle Fact) (routines : List Routine) :
    List (Handle × Tally) :=
  routines.foldl (fun table r =>
    r.blocks.foldl (fun table b =>
      b.steps.foldl
        (visit m r (facts.get? b.handle) (Routine.returnedConstant? m r b).isSome) table) table) []

def counts (t : Tally) : CallCounts where
  error := t.error
  success := t.success
  unclassified := t.unclassified
  callers := t.callers.toList.length
  constantReturns := t.constantReturns
  errorForwarding := t.errorForwarding
  literalArguments := t.literalArguments

/-! ## The counts of one function -/

/-- What one more call site adds to each count. -/
theorem count_eq (t : Tally) (site : CallSite) :
    t.count site =
      { error := t.error + if site.inErrorBlock then 1 else 0
        success := t.success + if site.inSuccessBlock then 1 else 0
        unclassified := t.unclassified + if site.isUnclassified then 1 else 0
        callers := t.callers.insert site.caller
        constantReturns := t.constantReturns + if site.returnsConstant then 1 else 0
        errorForwarding :=
          t.errorForwarding + if site.inErrorBlock && site.passesArgument then 1 else 0
        literalArguments := t.literalArguments + if site.passesLiteral then 1 else 0 } := by
  obtain ⟨callee, caller, fact, constant, argument, literal⟩ := site
  rcases fact with - | (forwarded | -) <;> cases constant <;> cases argument <;>
    cases literal <;> rfl

/-- The three kinds of blocks exclude each other, and there is no fourth. -/
theorem oneClass (site : CallSite) : (if site.inErrorBlock then 1 else 0) +
    (if site.inSuccessBlock then 1 else 0) + (if site.isUnclassified then 1 else 0) = 1 := by
  unfold CallSite.inErrorBlock CallSite.inSuccessBlock CallSite.isUnclassified
  rcases site.fact with - | (forwarded | -) <;> rfl

/-- The counts of a function after `n` of its call sites. -/
structure InStep (t : Tally) (n : Nat) : Prop where
  total : t.total = n
  forwarding : t.errorForwarding ≤ t.error
  constants : t.constantReturns ≤ n
  literals : t.literalArguments ≤ n
  callers : t.callers.toList.length ≤ n
  called : 0 < n → 0 < t.callers.toList.length

theorem inStep_zero : InStep {} 0 := by
  constructor <;> simp [total, EmptyCollection.emptyCollection, SortedSet.empty]

theorem length_insert_le (s : SortedSet Handle) (f : Handle) :
    (s.insert f).toList.length ≤ s.toList.length + 1 := by
  have within : (s.insert f).toList ⊆ f :: s.toList := fun g member =>
    List.mem_cons.2 (SortedSet.mem_insert.1 member)
  exact ((s.insert f).ascending.nodup.subperm within).length_le

/-- One more call site adds one to the total, and at most one to every other count. -/
theorem InStep.count {t : Tally} {n : Nat} (inStep : t.InStep n) (site : CallSite) :
    (t.count site).InStep (n + 1) := by
  rw [count_eq]
  constructor
  · have one := oneClass site
    have total := inStep.total
    simp only [Tally.total] at total ⊢
    omega
  · have forwarding := inStep.forwarding
    cases site.inErrorBlock <;> cases site.passesArgument <;> simp <;> omega
  · exact Nat.add_le_add inStep.constants (by split <;> decide)
  · exact Nat.add_le_add inStep.literals (by split <;> decide)
  · exact (length_insert_le _ _).trans (Nat.add_le_add_right inStep.callers 1)
  · exact fun _ => List.length_pos_of_mem (SortedSet.mem_insert.2 (.inl rfl))

/-- The counts over the call sites of one function. -/
def ofSites (sites : List CallSite) : Tally := sites.foldl count {}

theorem ofSites_concat (sites : List CallSite) (site : CallSite) :
    ofSites (sites ++ [site]) = (ofSites sites).count site := by
  simp [ofSites]

theorem inStep_ofSites (sites : List CallSite) : (ofSites sites).InStep sites.length := by
  induction sites using List.reverseRecOn with
  | nil => exact inStep_zero
  | append_singleton sites site ih =>
      rw [ofSites_concat, List.length_append, List.length_singleton]
      exact ih.count site

/-- A count to which each site adds one or nothing counts the sites that add one. -/
theorem ofSites_eq_countP {field : Tally → Nat} {adds : CallSite → Bool} (start : field {} = 0)
    (step : ∀ t site, field (t.count site) = field t + if adds site then 1 else 0)
    (sites : List CallSite) : field (ofSites sites) = sites.countP adds := by
  induction sites using List.reverseRecOn with
  | nil => exact start
  | append_singleton sites site ih =>
      rw [ofSites_concat, step, ih, List.countP_append, List.countP_singleton]

theorem callers_ofSites (sites : List CallSite) :
    (ofSites sites).callers = SortedSet.ofList (sites.map CallSite.caller) := by
  induction sites using List.reverseRecOn with
  | nil => rfl
  | append_singleton sites site ih =>
      rw [ofSites_concat, count_eq, ih]
      ext f
      simp [or_comm]

/-- Counting site by site gives what is counted at once. -/
theorem counts_ofSites (sites : List CallSite) :
    (ofSites sites).counts = CallCounts.ofSites sites := by
  simp only [counts, CallCounts.ofSites, CallCounts.mk.injEq]
  have callers := congrArg (fun s => s.toList.length) (callers_ofSites sites)
  refine ⟨?_, ?_, ?_, callers, ?_, ?_, ?_⟩ <;>
    exact ofSites_eq_countP rfl (fun t site => by rw [count_eq]) sites

/-! ## The table of all functions -/

variable {keys : List Handle} {tallies : Handle → Tally} {site : CallSite}

theorem record_of_not_mem (new : site.callee ∉ keys) :
    record (keys.map fun f => (f, tallies f)) site =
      (keys.map fun f => (f, tallies f)) ++ [(site.callee, count {} site)] := by
  induction keys with
  | nil => rfl
  | cons f keys ih =>
      obtain ⟨other, rest⟩ := not_or.1 (mt List.mem_cons.2 new)
      rw [List.map_cons, record, if_neg (Ne.symm other), ih rest, List.cons_append]

theorem record_of_mem (distinct : keys.Nodup) (met : site.callee ∈ keys) :
    record (keys.map fun f => (f, tallies f)) site =
      keys.map fun f => (f, if f = site.callee then (tallies f).count site else tallies f) := by
  induction keys with
  | nil => cases met
  | cons f keys ih =>
      obtain ⟨once, distinct⟩ := List.nodup_cons.1 distinct
      rw [List.map_cons, record, List.map_cons]
      split
      · rename_i same
        subst same
        congr 1
        refine List.map_congr_left fun g listed => ?_
        rw [if_neg (ne_of_mem_of_not_mem listed once)]
      · rename_i other
        rw [ih distinct ((List.mem_cons.1 met).resolve_left (Ne.symm other))]

end Tally

/-- An element that is listed again adds nothing to the first occurrences. -/
theorem eraseDups_concat {α : Type} [DecidableEq α] (l : List α) (a : α) :
    (l ++ [a]).eraseDups = if a ∈ l then l.eraseDups else l.eraseDups ++ [a] := by
  rw [List.eraseDups_append]
  by_cases listed : a ∈ l <;> simp [listed, List.removeAll, List.eraseDups_cons]

/-- First occurrences stand in the order of the first places. -/
theorem pairwise_eraseDups {α : Type} [DecidableEq α] (l : List α) :
    l.eraseDups.Pairwise fun a b => l.idxOf a < l.idxOf b := by
  induction l using List.reverseRecOn with
  | nil => simp
  | append_singleton l a ih =>
      have kept : l.eraseDups.Pairwise fun b c => (l ++ [a]).idxOf b < (l ++ [a]).idxOf c := by
        refine ih.imp_of_mem fun {b c} first second before => ?_
        rwa [List.idxOf_append_of_mem (List.mem_eraseDups.1 first),
          List.idxOf_append_of_mem (List.mem_eraseDups.1 second)]
      rw [eraseDups_concat]
      split
      · exact kept
      · rename_i new
        refine List.pairwise_append.2 ⟨kept, List.pairwise_singleton _ _, fun b listed c last => ?_⟩
        obtain rfl := List.mem_singleton.1 last
        have listed := List.mem_eraseDups.1 listed
        rw [List.idxOf_append_of_mem listed, List.idxOf_append_of_notMem new]
        exact Nat.lt_add_right _ (List.idxOf_lt_length_iff.2 listed)

/-- The elements of a list are counted by the counts of their first occurrences. -/
theorem sum_count_eraseDups {α : Type} [DecidableEq α] (l : List α) :
    (l.eraseDups.map fun a => l.count a).sum = l.length := by
  have perm : l.eraseDups.Perm l.dedup :=
    (List.perm_ext_iff_of_nodup (nodup_eraseDups l) l.nodup_dedup).2 fun a => by simp
  rw [(perm.map _).sum_eq]
  exact l.sum_map_count_dedup_eq_length

namespace Tally

/-- The table after some call sites. -/
theorem foldl_record (sites : List CallSite) :
    sites.foldl record [] = (sites.map CallSite.callee).eraseDups.map fun f =>
      (f, ofSites (sites.filter fun site => site.callee = f)) := by
  induction sites using List.reverseRecOn with
  | nil => rfl
  | append_singleton sites site ih =>
      rw [List.foldl_append, ih, List.map_append, List.map_singleton, eraseDups_concat]
      simp only [List.foldl_cons, List.foldl_nil, List.filter_append]
      by_cases met : site.callee ∈ sites.map CallSite.callee
      · rw [if_pos met, record_of_mem (nodup_eraseDups _) (List.mem_eraseDups.2 met)]
        refine List.map_congr_left fun f _ => ?_
        by_cases same : f = site.callee
        · simp [same, ofSites_concat]
        · simp [same, Ne.symm same]
      · rw [if_neg met, record_of_not_mem (mt List.mem_eraseDups.1 met), List.map_append]
        congr 1
        · refine List.map_congr_left fun f listed => ?_
          have other : site.callee ≠ f := fun same => met (same ▸ List.mem_eraseDups.1 listed)
          simp [other]
        · have none : (sites.filter fun other => other.callee = site.callee) = [] :=
            List.filter_eq_nil_iff.2 fun other listed same =>
              met (List.mem_map.2 ⟨other, listed, of_decide_eq_true same⟩)
          simp [none, ofSites]

theorem foldl_visit {m : Module} {r : Routine} {fact : Option Fact} {returnsConstant : Bool}
    (steps : List Step) (table : List (Handle × Tally)) :
    steps.foldl (visit m r fact returnsConstant) table =
      (steps.filterMap (CallSite.ofStep? m r fact returnsConstant)).foldl record table := by
  induction steps generalizing table with
  | nil => rfl
  | cons step steps ih =>
      rw [List.foldl_cons, ih, visit]
      cases site : CallSite.ofStep? m r fact returnsConstant step with
      | none => rw [List.filterMap_cons_none site]
      | some found => rw [List.filterMap_cons_some site, List.foldl_cons]

/-- The pass over routines, blocks and instructions ends with the counts of all functions. -/
theorem counts_ofRoutines (m : Module) (facts : SortedMap Handle Fact) (routines : List Routine) :
    ((ofRoutines m facts routines).map fun entry => (entry.1, entry.2.counts)) =
      callCounts m facts routines := by
  have flat : ofRoutines m facts routines =
      (CallSite.ofRoutines m facts routines).foldl record [] := by
    simp only [ofRoutines, CallSite.ofRoutines, List.foldl_flatMap, foldl_visit]
  rw [flat, foldl_record, List.map_map, callCounts]
  refine List.map_congr_left fun f _ => ?_
  rw [Function.comp_apply, counts_ofSites]

end Tally

/-! ## Conservation -/

/-- The function that an instruction calls, if it is a call whose callee is known. -/
def Module.calledBy? (m : Module) (step : Step) : Option Handle :=
  match step.op with
  | .call callee _ => m.calledFunction? callee
  | _ => none

/-- The callees of all call sites of some routines in program order, one for each site. -/
def Module.calleesIn (m : Module) (routines : List Routine) : List Handle :=
  routines.flatMap fun r => r.blocks.flatMap fun b => b.steps.filterMap m.calledBy?

/-- The counts of a function that is called at `n` sites. -/
structure CallCounts.Balanced (c : CallCounts) (n : Nat) : Prop where
  total : c.error + c.success + c.unclassified = n
  divisor : c.total ≠ 0
  shares : ∀ part, share part c.total = part.toFloat / c.total.toFloat
  forwarding : c.errorForwarding ≤ c.error
  constants : c.constantReturns ≤ c.total
  literals : c.literalArguments ≤ c.total
  called : 1 ≤ c.callers
  callers : c.callers ≤ c.total

theorem Tally.InStep.balanced {t : Tally} {n : Nat} (inStep : t.InStep n) (pos : 0 < n) :
    t.counts.Balanced n := by
  have total : t.counts.total = n := inStep.total
  have divisor : t.counts.total ≠ 0 := total.trans_ne pos.ne'
  refine ⟨total, divisor, fun part => ?_, inStep.forwarding, ?_, ?_, inStep.called pos, ?_⟩
  · rw [CallCounts.share, if_neg divisor]
  · exact total ▸ inStep.constants
  · exact total ▸ inStep.literals
  · exact total ▸ inStep.callers

theorem callee_ofStep? {m : Module} {r : Routine} {fact : Option Fact} {constant : Bool}
    (step : Step) :
    (CallSite.ofStep? m r fact constant step).map CallSite.callee = m.calledBy? step := by
  unfold CallSite.ofStep? Module.calledBy?
  cases step.op with
  | call callee arguments => simp [Function.comp_def]
  | _ => rfl

theorem callees_ofRoutines (m : Module) (facts : SortedMap Handle Fact) (routines : List Routine) :
    (CallSite.ofRoutines m facts routines).map CallSite.callee = m.calleesIn routines := by
  simp only [CallSite.ofRoutines, Module.calleesIn, List.map_flatMap, List.map_filterMap,
    callee_ofStep?]

theorem length_filter_callee (sites : List CallSite) (f : Handle) :
    (sites.filter fun site => site.callee = f).length = (sites.map CallSite.callee).count f := by
  rw [List.count, List.countP_map, List.countP_eq_length_filter]
  rfl

theorem balanced_of_mem_callCounts {m : Module} {facts : SortedMap Handle Fact}
    {routines : List Routine} {f : Handle} {c : CallCounts}
    (listed : (f, c) ∈ callCounts m facts routines) :
    c.Balanced ((m.calleesIn routines).count f) := by
  obtain ⟨g, member, same⟩ := List.mem_map.1 listed
  obtain ⟨rfl, rfl⟩ := Prod.mk.inj same
  rw [← callees_ofRoutines m facts, ← length_filter_callee, ← Tally.counts_ofSites]
  refine (Tally.inStep_ofSites _).balanced ?_
  rw [length_filter_callee]
  exact List.count_pos_iff.2 (List.mem_eraseDups.1 member)

/--
Whatever is known of the blocks and whichever routines are listed, how often and in which order, the
pass counts every call site once.  The functions are entered in the order of their first call sites,
the counts of each are balanced, and the totals add up to the number of all sites.
-/
theorem features_conserve_sites (m : Module) (facts : SortedMap Handle Fact)
    (routines : List Routine) :
    let callees := m.calleesIn routines
    let entries := callCounts m facts routines
    ((Tally.ofRoutines m facts routines).map fun entry => (entry.1, entry.2.counts)) = entries ∧
      (features m facts routines = entries.map fun entry =>
        (entry.1, entry.2.vector (m.isExternal entry.1) (m.returnType? entry.1 = some .void))) ∧
      (entries.map Prod.fst).Nodup ∧ (∀ f, f ∈ entries.map Prod.fst ↔ f ∈ callees) ∧
      ((entries.map Prod.fst).Pairwise fun f g => callees.idxOf f < callees.idxOf g) ∧
      (∀ f c, (f, c) ∈ entries → c.Balanced (callees.count f)) ∧
      (entries.map fun entry => entry.2.total).sum = callees.length := by
  intro callees entries
  have keys : entries.map Prod.fst = callees.eraseDups := by
    simp [entries, callCounts, callees_ofRoutines m facts routines, Function.comp_def, callees]
  have balanced : ∀ f c, (f, c) ∈ entries → c.Balanced (callees.count f) := fun f c listed =>
    balanced_of_mem_callCounts listed
  refine ⟨Tally.counts_ofRoutines m facts routines, rfl, ?_, ?_, ?_, balanced, ?_⟩
  · rw [keys]
    exact nodup_eraseDups callees
  · intro f
    rw [keys, List.mem_eraseDups]
  · rw [keys]
    exact pairwise_eraseDups callees
  · calc (entries.map fun entry => entry.2.total).sum
        = ((entries.map Prod.fst).map fun f => callees.count f).sum := by
          rw [List.map_map]
          exact congrArg List.sum
            (List.map_congr_left fun entry listed => (balanced entry.1 entry.2 listed).total)
      _ = callees.length := by rw [keys, sum_count_eraseDups]

end ErrorContracts
