import ErrorContracts.Proofs.Guards
import Mathlib.Logic.Basic

/-!
# Merging descriptors

A function exports one contract, merged from the set of its descriptors.  The order by sort keys
separates descriptors, so a set has one sorted list, however its elements are listed.  Codes and
actions are merged by a policy that asks for nothing but which descriptors there are.  Together this
makes the contract and the order of its witnesses a matter of the set alone.
-/

namespace ErrorContracts

/-! ## The order of descriptors -/

namespace Descriptor

section Keys

attribute [local instance] lexOrd

/-- The whole sort key: the kind and the codes, the keys of the actions, those of the witnesses. -/
def sortKey (d : Descriptor) :
    (Nat × List Int) × (List (String × List (Int × (Nat × (Int × String)))) × List (Nat × String)) :=
  (d.returns.key, d.actions.toList.map Action.key, d.witnesses.map Witness.key)

theorem sortKey_injective {d e : Descriptor} (h : d.sortKey = e.sortKey) : d = e := by
  simp only [sortKey, Prod.mk.injEq] at h
  obtain ⟨returns, actions, witnesses⟩ := h
  have listed : d.actions.toList = e.actions.toList :=
    (List.map_inj_right fun _ _ => Action.key_injective).1 actions
  exact key_injective (by rw [key, key, returns, listed, witnesses])

theorem compareLex_map {α β : Type} [Ord β] (key : α → β) (l k : List α) :
    List.compareLex compare (l.map key) (k.map key) =
      List.compareLex (fun a b => compare (key a) (key b)) l k := by
  induction l generalizing k with
  | nil => cases k <;> rfl
  | cons a l ih =>
      cases k with
      | nil => rfl
      | cons b k => simp only [List.map_cons, List.compareLex_cons_cons, ih]

/-- Descriptors are compared by their sort keys. -/
theorem compare_eq_sortKey (d e : Descriptor) : compare d e = compare d.sortKey e.sortKey := by
  have actions : compare (d.actions.toList.map Action.key) (e.actions.toList.map Action.key) =
      compare d.actions.toList e.actions.toList := compareLex_map Action.key _ _
  calc compare d e
      = (compare d.returns.key e.returns.key).then
          ((compare d.actions.toList e.actions.toList).then
            (compare (d.witnesses.map Witness.key) (e.witnesses.map Witness.key))) := rfl
    _ = compare d.sortKey e.sortKey := by
          rw [← actions]
          rfl

end Keys

variable {l k : List Descriptor}

theorem eq_of_isLE {d e : Descriptor} (below : (compare d e).isLE = true)
    (above : (compare e d).isLE = true) : d = e :=
  Std.compare_eq_iff_eq.1 (Std.OrientedCmp.isLE_antisymm below above)

theorem sort_perm (l : List Descriptor) : (sort l).Perm l := List.mergeSort_perm l _

theorem pairwise_sort (l : List Descriptor) :
    (sort l).Pairwise fun d e => (compare d e).isLE = true := by
  refine List.pairwise_mergeSort (fun d e f => Std.TransOrd.isLE_trans (a := d)) (fun d e => ?_) l
  rw [Std.OrientedOrd.eq_swap (a := d) (b := e)]
  cases compare e d <;> rfl

/-- A list of descriptors in ascending order is determined by its elements and their number. -/
theorem eq_of_perm (hl : l.Pairwise fun d e => (compare d e).isLE = true)
    (hk : k.Pairwise fun d e => (compare d e).isLE = true) (perm : l.Perm k) : l = k :=
  perm.eq_of_pairwise (fun _ _ _ _ => eq_of_isLE) hl hk

theorem sort_eq_of_perm (perm : l.Perm k) : sort l = sort k :=
  eq_of_perm (pairwise_sort l) (pairwise_sort k)
    (((sort_perm l).trans perm).trans (sort_perm k).symm)

/-- However the elements of a set are listed, sorting gives the list that the set is held as. -/
theorem sort_eq_toList {ds : SortedSet Descriptor} (once : l.Nodup)
    (listed : ∀ d, d ∈ l ↔ d ∈ ds) : sort l = ds.toList := by
  have ascends : ds.toList.Pairwise fun d e => (compare d e).isLE = true :=
    ds.ascending.imp fun below => by rw [below]; rfl
  have perm := (List.perm_ext_iff_of_nodup once ds.ascending.nodup).2 listed
  exact eq_of_perm (pairwise_sort l) ascends ((sort_perm l).trans perm)

end Descriptor

/-! ## Codes -/

namespace Returns

/-- The codes of some descriptors together: those of the integer descriptors, if there is one. -/
structure Gathers (r : Returns) (ds : List Descriptor) : Prop where
  kind : ∃ d ∈ ds, d.returns.kind = r.kind
  integer : ∀ d ∈ ds, d.returns.kind = .integer → r.kind = .integer
  codes : ∀ c, c ∈ r.codes ↔ ∃ d ∈ ds, d.returns.kind = r.kind ∧ c ∈ d.returns.codes

theorem kind_merge_cases (r s : Returns) :
    (r.merge s).kind = r.kind ∧ (s.kind = .integer → r.kind = .integer) ∨
      (r.merge s).kind = s.kind ∧ s.kind = .integer := by
  obtain ⟨kind, codes, nonempty⟩ := r
  obtain ⟨kind', codes', nonempty'⟩ := s
  cases kind <;> cases kind' <;> simp [merge]

theorem mem_codes_merge_iff (r s : Returns) (c : Int) :
    c ∈ (r.merge s).codes ↔
      r.kind = (r.merge s).kind ∧ c ∈ r.codes ∨ s.kind = (r.merge s).kind ∧ c ∈ s.codes := by
  obtain ⟨kind, codes, nonempty⟩ := r
  obtain ⟨kind', codes', nonempty'⟩ := s
  cases kind <;> cases kind' <;> simp [merge]

namespace Gathers

variable {r s : Returns} {d : Descriptor} {ds es : List Descriptor}

theorem unique (hr : r.Gathers ds) (hs : s.Gathers ds) : r = s := by
  have kinds : r.kind = s.kind := by
    obtain ⟨d, hd, own⟩ := hr.kind
    obtain ⟨e, he, own'⟩ := hs.kind
    -- integer codes win in both, so the kinds can only agree
    cases hk : r.kind with
    | integer => exact (hs.integer d hd (own.trans hk)).symm
    | pointer =>
        cases hk' : s.kind with
        | integer => exact absurd ((hr.integer e he (own'.trans hk')).symm.trans hk) (by simp)
        | pointer => rfl
  have codes : r.codes = s.codes := SortedSet.ext fun c => by rw [hr.codes, hs.codes, kinds]
  cases r
  cases s
  cases kinds
  cases codes
  rfl

theorem congr (same : ∀ d, d ∈ ds ↔ d ∈ es) (hr : r.Gathers ds) : r.Gathers es := by
  constructor
  · simpa only [same] using hr.kind
  · simpa only [same] using hr.integer
  · simpa only [same] using hr.codes

theorem single (d : Descriptor) : d.returns.Gathers [d] := by
  constructor <;> simp

/-- One descriptor more. -/
theorem merge (hr : r.Gathers ds) (d : Descriptor) :
    (r.merge d.returns).Gathers (ds ++ [d]) := by
  have members : ∀ {p : Descriptor → Prop}, (∃ e ∈ ds ++ [d], p e) ↔ (∃ e ∈ ds, p e) ∨ p d := by
    simp [or_and_right, exists_or]
  rcases kind_merge_cases r d.returns with ⟨first, loses⟩ | ⟨second, wins⟩
  · refine ⟨?_, fun e he integer => ?_, fun c => ?_⟩
    · rw [members, first]
      exact .inl hr.kind
    · rw [first]
      rcases List.mem_append.1 he with before | last
      · exact hr.integer e before integer
      · exact loses (List.mem_singleton.1 last ▸ integer)
    · rw [mem_codes_merge_iff, members, first, hr.codes c]
      simp
  · refine ⟨?_, fun e he integer => second.trans wins, fun c => ?_⟩
    · rw [members]
      exact .inr second.symm
    · rw [mem_codes_merge_iff, members, second, wins]
      refine or_congr ⟨?_, ?_⟩ Iff.rfl
      · rintro ⟨integer, member⟩
        obtain ⟨e, he, own, holds⟩ := (hr.codes c).1 member
        exact ⟨e, he, own.trans integer, holds⟩
      · rintro ⟨e, he, own, holds⟩
        have integer := hr.integer e he own
        exact ⟨integer, (hr.codes c).2 ⟨e, he, own.trans integer.symm, holds⟩⟩

theorem foldl (hr : r.Gathers ds) (es : List Descriptor) :
    (es.foldl (fun r e => r.merge e.returns) r).Gathers (ds ++ es) := by
  induction es generalizing r ds with
  | nil => rwa [List.append_nil]
  | cons e es ih =>
      have rest := ih (hr.merge e)
      rwa [List.append_assoc] at rest

end Gathers

end Returns

namespace Contract

/-- Unified codes are those that the descriptors gather. -/
theorem unifyReturns_eq_ok_iff {ds : List Descriptor} {r : Returns} :
    unifyReturns ds = .ok r ↔ r.Gathers ds := by
  cases ds with
  | nil =>
      refine ⟨fun h => (by cases h), fun gathers => ?_⟩
      obtain ⟨d, hd, -⟩ := gathers.kind
      cases hd
  | cons d ds =>
      have gathers := (Returns.Gathers.single d).foldl ds
      refine ⟨fun h => ?_, fun h => ?_⟩
      · cases h
        exact gathers
      · rw [h.unique gathers]
        rfl

theorem unifyReturns_congr {ds es : List Descriptor} (same : ∀ d, d ∈ ds ↔ d ∈ es)
    (filled : ds ≠ []) : ∃ r, unifyReturns ds = .ok r ∧ unifyReturns es = .ok r := by
  cases ds with
  | nil => exact absurd rfl filled
  | cons d ds =>
      have gathers := (Returns.Gathers.single d).foldl ds
      exact ⟨_, rfl, unifyReturns_eq_ok_iff.2 (gathers.congr same)⟩

/-! ## Actions -/

theorem soleAction?_eq_some_iff {d : Descriptor} {a : Action} :
    soleAction? d = some a ↔ d.actions = SortedSet.singleton a := by
  constructor
  · intro sole
    unfold soleAction? at sole
    split at sole
    · rename_i listed
      cases sole
      exact SortedSet.ext fun b => by rw [SortedSet.mem_singleton, SortedSet.mem_def, listed,
        List.mem_singleton]
    · cases sole
  · intro alone
    rw [soleAction?, alone]
    rfl

/--
The actions that stand for those of some descriptors: the ones that all have; where they differ, the
least action that some descriptor has alone; and none if no descriptor has one alone.
-/
inductive Unifies (ds : List Descriptor) : SortedSet Action → Prop where
  | vacant (none : ds = []) : Unifies ds ∅
  | agreed {d : Descriptor} (listed : d ∈ ds) (agree : ∀ e ∈ ds, e.actions = d.actions) :
      Unifies ds d.actions
  | sole {d e f : Descriptor} {a : Action} (hd : d ∈ ds) (he : e ∈ ds)
      (differ : d.actions ≠ e.actions) (listed : f ∈ ds)
      (alone : f.actions = SortedSet.singleton a)
      (least : ∀ g ∈ ds, ∀ b, g.actions = SortedSet.singleton b → (compare a b).isLE = true) :
      Unifies ds (SortedSet.singleton a)
  | mixed {d e : Descriptor} (hd : d ∈ ds) (he : e ∈ ds) (differ : d.actions ≠ e.actions)
      (several : ∀ g ∈ ds, ∀ b, g.actions ≠ SortedSet.singleton b) : Unifies ds ∅

variable {ds es : List Descriptor} {d e : Descriptor} {actions : SortedSet Action}

theorem unifyActions_of_agree (listed : d ∈ ds) (agree : ∀ e ∈ ds, e.actions = d.actions) :
    unifyActions ds = d.actions := by
  cases ds with
  | nil => cases listed
  | cons first rest =>
      have head : first.actions = d.actions := agree first List.mem_cons_self
      rw [unifyActions, if_pos]
      · exact head
      · simp only [List.all_eq_true, decide_eq_true_eq]
        exact fun e he => (agree e (List.mem_cons_of_mem first he)).trans head.symm

/-- The actions that stand alone in a descriptor. -/
def soleActions (ds : List Descriptor) : SortedSet Action :=
  SortedSet.ofList (ds.filterMap soleAction?)

theorem mem_soleActions {a : Action} :
    a ∈ soleActions ds ↔ ∃ d ∈ ds, d.actions = SortedSet.singleton a := by
  simp only [soleActions, SortedSet.mem_ofList, List.mem_filterMap, soleAction?_eq_some_iff]

theorem unifyActions_of_differ (hd : d ∈ ds) (he : e ∈ ds) (differ : d.actions ≠ e.actions) :
    unifyActions ds =
      match (soleActions ds).toList with
      | a :: _ => SortedSet.singleton a
      | [] => ∅ := by
  cases ds with
  | nil => cases hd
  | cons first rest =>
      rw [unifyActions, if_neg]
      · rfl
      · intro same
        have agree : ∀ g ∈ first :: rest, g.actions = first.actions := by
          simp only [List.all_eq_true, decide_eq_true_eq] at same
          exact List.forall_mem_cons.2 ⟨rfl, same⟩
        exact differ ((agree d hd).trans (agree e he).symm)

/-- The unified actions follow the policy. -/
theorem unifies_unifyActions (ds : List Descriptor) : Unifies ds (unifyActions ds) := by
  by_cases agree : ∀ d ∈ ds, ∀ e ∈ ds, e.actions = d.actions
  · cases ds with
    | nil => exact .vacant rfl
    | cons d ds =>
        have own := agree d List.mem_cons_self
        rw [unifyActions_of_agree List.mem_cons_self own]
        exact .agreed List.mem_cons_self own
  · simp only [not_forall] at agree
    obtain ⟨d, hd, e, he, differ⟩ := agree
    rw [unifyActions_of_differ he hd differ]
    split
    · rename_i a rest listed
      obtain ⟨f, hf, alone⟩ := mem_soleActions.1 (SortedSet.mem_def.2 (listed ▸ List.mem_cons_self))
      refine .sole he hd differ hf alone fun g hg b alone' => ?_
      have member : b ∈ (soleActions ds).toList := mem_soleActions.2 ⟨g, hg, alone'⟩
      have ascends := (soleActions ds).ascending
      rw [listed] at member ascends
      rcases List.mem_cons.1 member with rfl | later
      · simp
      · rw [(Ascending.cons_iff.1 ascends).1 b later]
        rfl
    · rename_i listed
      refine .mixed he hd differ fun g hg b alone => ?_
      have member : b ∈ (soleActions ds).toList := mem_soleActions.2 ⟨g, hg, alone⟩
      rw [listed] at member
      cases member

/-- The policy leaves no choice. -/
theorem unifyActions_eq_iff : unifyActions ds = actions ↔ Unifies ds actions := by
  refine ⟨fun h => h ▸ unifies_unifyActions ds, fun unifies => ?_⟩
  cases unifies with
  | vacant none => rw [none]; rfl
  | agreed listed agree => exact unifyActions_of_agree listed agree
  | @sole d e f a hd he differ listed alone least =>
      rw [unifyActions_of_differ hd he differ]
      have member : a ∈ (soleActions ds).toList := mem_soleActions.2 ⟨f, listed, alone⟩
      have ascends := (soleActions ds).ascending
      cases found : (soleActions ds).toList with
      | nil =>
          rw [found] at member
          cases member
      | cons b rest =>
          obtain ⟨g, hg, alone'⟩ :=
            mem_soleActions.1 (SortedSet.mem_def.2 (found ▸ List.mem_cons_self) : b ∈ _)
          rw [found] at member ascends
          rcases List.mem_cons.1 member with rfl | later
          · rfl
          · -- the head would be below `a`, which is the least
            have below := (Ascending.cons_iff.1 ascends).1 a later
            have above := least g hg b alone'
            rw [Std.OrientedOrd.eq_swap (a := a) (b := b), below] at above
            cases above
  | mixed hd he differ several =>
      rw [unifyActions_of_differ hd he differ]
      cases found : (soleActions ds).toList with
      | nil => rfl
      | cons b rest =>
          obtain ⟨g, hg, alone⟩ :=
            mem_soleActions.1 (SortedSet.mem_def.2 (found ▸ List.mem_cons_self) : b ∈ _)
          exact absurd alone (several g hg b)

theorem Unifies.congr (same : ∀ d, d ∈ ds ↔ d ∈ es) (unifies : Unifies ds actions) :
    Unifies es actions := by
  cases unifies with
  | vacant none =>
      refine .vacant (List.eq_nil_iff_forall_not_mem.2 fun d hd => ?_)
      rw [← same, none] at hd
      cases hd
  | agreed listed agree =>
      exact .agreed ((same _).1 listed) fun e he => agree e ((same e).2 he)
  | sole hd he differ listed alone least =>
      exact .sole ((same _).1 hd) ((same _).1 he) differ ((same _).1 listed) alone
        fun g hg => least g ((same g).2 hg)
  | mixed hd he differ several =>
      exact .mixed ((same _).1 hd) ((same _).1 he) differ fun g hg => several g ((same g).2 hg)

theorem Unifies.mem {a : Action} (unifies : Unifies ds actions) (member : a ∈ actions) :
    ∃ d ∈ ds, a ∈ d.actions := by
  cases unifies with
  | vacant none => cases member
  | agreed listed agree => exact ⟨_, listed, member⟩
  | sole hd he differ listed alone least => exact ⟨_, listed, alone ▸ member⟩
  | mixed hd he differ several => cases member

theorem unifyActions_congr (same : ∀ d, d ∈ ds ↔ d ∈ es) : unifyActions ds = unifyActions es :=
  unifyActions_eq_iff.2 ((unifies_unifyActions es).congr fun d => (same d).symm)

/-! ## Contracts -/

theorem merged?_of_unified {returns : Returns} (unified : unifyReturns ds = .ok returns) :
    (merged? ds).map Prod.fst =
      some ⟨unifyActions (ds.filter fun d => d.isInteger = returns.isInteger), returns⟩ := by
  cases ds with
  | nil => cases unified
  | cons d ds =>
      cases unified
      rfl

theorem exists_merged? (seen : d ∈ ds) : ∃ contract ws, merged? ds = some (contract, ws) := by
  cases ds with
  | nil => cases seen
  | cons d ds => exact ⟨_, _, rfl⟩

/-- The codes that all descriptors gather, and the actions of those that have codes of this kind. -/
structure Merges (contract : Contract) (ds : List Descriptor) : Prop where
  returns : contract.returns.Gathers ds
  actions :
    Unifies (ds.filter fun d => d.isInteger = contract.returns.isInteger) contract.actions

theorem Merges.congr {contract : Contract} (same : ∀ d, d ∈ ds ↔ d ∈ es)
    (merges : contract.Merges ds) : contract.Merges es where
  returns := merges.returns.congr same
  actions := merges.actions.congr fun d => by simp only [List.mem_filter, same d]

/-- The contract of a list is the merge of its descriptors. -/
theorem merges_of_merged? {contract : Contract} {ws : List Witness}
    (made : merged? ds = some (contract, ws)) : contract.Merges ds := by
  cases ds with
  | nil => cases made
  | cons d ds =>
      cases made
      exact ⟨unifyReturns_eq_ok_iff.1 rfl, unifies_unifyActions _⟩

theorem merged?_eq_some_iff {contract : Contract} :
    (merged? ds).map Prod.fst = some contract ↔ contract.Merges ds := by
  constructor
  · intro made
    obtain ⟨_, merged, rfl⟩ := Option.map_eq_some_iff.1 made
    exact merges_of_merged? merged
  · intro merges
    rw [merged?_of_unified (unifyReturns_eq_ok_iff.2 merges.returns),
      unifyActions_eq_iff.2 merges.actions]

section Listing

attribute [local instance] lexOrd

/--
Descriptors with the same sort key are equal, and sorting puts any listing of the same descriptors
into the same list, which ascends in the order of the keys.  The unified codes and actions depend on
which descriptors are listed, not on how often or where.  So the contract and the witnesses that are
exported come out the same from any listing of the descriptors of a function.
-/
theorem contract?_of_listing :
    (∀ d e : Descriptor, d.sortKey = e.sortKey → d = e) ∧
    (∀ l : List Descriptor, (Descriptor.sort l).Perm l ∧
      (Descriptor.sort l).Pairwise fun d e => (compare d.sortKey e.sortKey).isLE = true) ∧
    (∀ l k : List Descriptor, l.Perm k → Descriptor.sort l = Descriptor.sort k) ∧
    (∀ l k : List Descriptor, (∀ d, d ∈ l ↔ d ∈ k) →
      (l ≠ [] → ∃ r, unifyReturns l = .ok r ∧ unifyReturns k = .ok r) ∧
        unifyActions l = unifyActions k) ∧
    ∀ (s : Summary) (f : Handle) (l : List Descriptor), l.Nodup →
      (∀ d, d ∈ l ↔ d ∈ s.descriptorsOf f) →
        s.contract? f = .ok (merged? (Descriptor.sort l)) := by
  refine ⟨fun _ _ => Descriptor.sortKey_injective, fun l => ⟨Descriptor.sort_perm l, ?_⟩,
    fun _ _ => Descriptor.sort_eq_of_perm, ?_, ?_⟩
  · simpa only [Descriptor.compare_eq_sortKey] using Descriptor.pairwise_sort l
  · intro l k same
    exact ⟨unifyReturns_congr same, unifyActions_congr same⟩
  · intro s f l once listed
    rw [Summary.contract?_eq_ok, Summary.merged?, Descriptor.sort_eq_toList once listed]

end Listing

/-- Three ways of a function to report errors, one of them with a pointer. -/
def threeWays : List Descriptor :=
  [⟨SortedSet.singleton ⟨"abort", []⟩, .single .pointer 0, [⟨8, "return error code"⟩]⟩,
    ⟨SortedSet.singleton ⟨"warn", []⟩, .single .integer (-1), [⟨7, "check error return"⟩]⟩,
    ⟨SortedSet.singleton ⟨"bail", []⟩, .single .integer (-2), [⟨9, "transitive error"⟩]⟩]

/-- A function that was seen to report errors in three ways. -/
def threeWaysSeen : Summary := threeWays.foldl (fun s d => s.addDescriptor 2 d) {}

/-- The integer codes are exported, with the witness of the lesser code first. -/
theorem contract?_of_listing_threeWays :
    threeWays.Nodup ∧ threeWays ≠ [] ∧ (∀ d, d ∈ threeWays ↔ d ∈ threeWaysSeen.descriptorsOf 2) ∧
      Descriptor.sort threeWays = Descriptor.sort threeWays.reverse ∧
      (∃ r, unifyReturns threeWays = .ok r ∧ unifyReturns (threeWays ++ threeWays) = .ok r) ∧
      unifyActions threeWays = unifyActions (threeWays ++ threeWays) ∧
      threeWaysSeen.contract? 2 = .ok (merged? (Descriptor.sort threeWays)) ∧
      merged? (Descriptor.sort threeWays) =
        some (⟨SortedSet.singleton ⟨"bail", []⟩, .integer, SortedSet.ofList [-2, -1], rfl⟩,
          [⟨9, "transitive error"⟩, ⟨7, "check error return"⟩]) := by
  obtain ⟨-, -, sorting, unifying, exporting⟩ := contract?_of_listing
  have once : threeWays.Nodup := by decide +kernel
  have filled : threeWays ≠ [] := by decide
  have listed : ∀ d, d ∈ threeWays ↔ d ∈ threeWaysSeen.descriptorsOf 2 := by
    have held : (threeWaysSeen.descriptorsOf 2).toList = threeWays.reverse := by decide +kernel
    intro d
    rw [SortedSet.mem_def, held, List.mem_reverse]
  have doubled : ∀ d, d ∈ threeWays ↔ d ∈ threeWays ++ threeWays := by simp
  have exported := exporting threeWaysSeen 2 threeWays once listed
  refine ⟨once, filled, listed, sorting _ _ (List.reverse_perm _).symm,
    (unifying _ _ doubled).1 filled, (unifying _ _ doubled).2, exported, ?_⟩
  rw [Summary.contract?_eq_ok] at exported
  rw [← Except.ok.inj exported]
  decide +kernel

end Contract

end ErrorContracts
