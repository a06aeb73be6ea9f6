import ErrorContracts.Inference.Features
import ErrorContracts.Proofs.Guards

/-!
# Agreement of summaries

Finite maps are determined by their look-ups.  Two summaries agree if they have the same facts and
every function has the same descriptors; a function whose descriptors have all been taken away counts
like one that never had any.  Everything that the rules read off a summary is the same in summaries
that agree.
-/

namespace ErrorContracts

open Std (TransOrd LawfulEqOrd)

namespace Ascending

theorem not_mem_of_cons {α : Type} [Ord α] [TransOrd α] {a : α} {l : List α}
    (h : Ascending (a :: l)) : a ∉ l :=
  (List.nodup_cons.1 h.nodup).1

end Ascending

namespace Bindings

variable {κ ν : Type} [DecidableEq κ]

theorem find?_eq_none_iff {k : κ} {l : List (κ × ν)} :
    find? k l = none ↔ k ∉ l.map Prod.fst := by
  rw [← find?_isSome_iff]
  cases find? k l <;> simp

variable [Ord κ] [TransOrd κ]

omit [DecidableEq κ] [TransOrd κ] in
theorem Ordered.filter {l : List (κ × ν)} (hl : Ordered l) (p : κ × ν → Bool) :
    Ordered (l.filter p) :=
  List.Pairwise.sublist (List.filter_sublist.map Prod.fst) hl

theorem find?_filter {l : List (κ × ν)} (hl : Ordered l) (p : κ × ν → Bool) (k : κ) :
    find? k (l.filter p) = (find? k l).filter fun v => p (k, v) := by
  induction l with
  | nil => rfl
  | cons b l ih =>
      obtain ⟨j, v⟩ := b
      have rest := ih hl.tail
      by_cases same : k = j
      · subst same
        have fresh := find?_eq_none_iff.2 (Ascending.not_mem_of_cons hl)
        by_cases kept : p (k, v) = true
        · simp [find?, Option.filter, kept]
        · rw [List.filter_cons_of_neg kept, rest, fresh]
          simp [find?, Option.filter, kept]
      · by_cases kept : p (j, v) = true
        · rw [List.filter_cons_of_pos kept]
          simp [find?, same, rest]
        · rw [List.filter_cons_of_neg kept, rest]
          simp [find?, same]

variable [LawfulEqOrd κ]

/-- Bindings in ascending order of their keys are determined by their look-ups. -/
theorem eq_of_find?_eq {l m : List (κ × ν)} (hl : Ordered l) (hm : Ordered m)
    (same : ∀ k, find? k l = find? k m) : l = m := by
  have keys : l.map Prod.fst = m.map Prod.fst := by
    refine Ascending.eq_of_mem_iff hl hm fun k => ?_
    rw [← find?_isSome_iff, ← find?_isSome_iff, same k]
  induction l generalizing m with
  | nil =>
      cases m with
      | nil => rfl
      | cons b m => cases keys
  | cons b l ih =>
      cases m with
      | nil => cases keys
      | cons c m =>
          obtain ⟨k, v⟩ := b
          obtain ⟨j, w⟩ := c
          simp only [List.map_cons, List.cons.injEq] at keys
          obtain ⟨rfl, rest⟩ := keys
          have values := same k
          simp only [find?, if_true, Option.some.injEq] at values
          subst values
          congr 1
          refine ih hl.tail hm.tail (fun j => ?_) rest
          by_cases other : j = k
          · subst other
            rw [find?_eq_none_iff.2 (Ascending.not_mem_of_cons hl),
              find?_eq_none_iff.2 (Ascending.not_mem_of_cons hm)]
          · simpa [find?, other] using same j

end Bindings

namespace SortedMap

variable {κ ν : Type} [Ord κ] [DecidableEq κ] [TransOrd κ]

theorem ext [LawfulEqOrd κ] {s t : SortedMap κ ν} (same : ∀ k, s.get? k = t.get? k) : s = t := by
  cases s with
  | mk l hl =>
      cases t with
      | mk m hm =>
          congr
          exact Bindings.eq_of_find?_eq hl hm same

theorem mem_toList_iff {s : SortedMap κ ν} {k : κ} {v : ν} :
    (k, v) ∈ s.toList ↔ s.get? k = some v := by
  constructor
  · exact Bindings.find?_of_mem s.ordered.nodup
  · exact Bindings.mem_of_find?

end SortedMap

namespace SortedSet

variable {α : Type} [Ord α] [TransOrd α] [LawfulEqOrd α]

theorem eq_empty_of_isEmpty {s : SortedSet α} (h : s.isEmpty = true) : s = ∅ :=
  ext fun a => ⟨fun ha => absurd ha (isEmpty_iff.1 h a), fun ha => absurd ha (not_mem_empty a)⟩

end SortedSet

namespace Summary

theorem get?_of_present {s : Summary} {f : Handle} :
    Bindings.find? f s.present = (s.descriptors.get? f).filter fun ds => !ds.isEmpty :=
  Bindings.find?_filter s.descriptors.ordered _ f

theorem descriptorsOf_eq (s : Summary) (f : Handle) :
    s.descriptorsOf f = (Bindings.find? f s.present).getD ∅ := by
  rw [get?_of_present, descriptorsOf, SortedMap.getD]
  cases bound : s.descriptors.get? f with
  | none => rfl
  | some ds =>
      cases vacant : ds.isEmpty with
      | false => simp [Option.filter, vacant]
      | true =>
          obtain rfl := SortedSet.eq_empty_of_isEmpty vacant
          rfl

theorem find?_present (s : Summary) (f : Handle) :
    Bindings.find? f s.present =
      if (s.descriptorsOf f).isEmpty then none else some (s.descriptorsOf f) := by
  rw [get?_of_present, descriptorsOf, SortedMap.getD]
  cases bound : s.descriptors.get? f with
  | none => rfl
  | some ds => cases vacant : ds.isEmpty <;> simp [Option.filter, vacant]

/-- Agreement, function by function. -/
theorem agrees_iff {s t : Summary} :
    s.agrees t = true ↔ (∀ f, s.descriptorsOf f = t.descriptorsOf f) ∧ s.facts = t.facts := by
  simp only [agrees, Bool.and_eq_true, decide_eq_true_eq]
  refine and_congr ⟨fun same f => ?_, fun same => ?_⟩ Iff.rfl
  · rw [descriptorsOf_eq, descriptorsOf_eq, same]
  · refine Bindings.eq_of_find?_eq (s.descriptors.ordered.filter _)
      (t.descriptors.ordered.filter _) fun f => ?_
    exact (find?_present s f).trans ((same f).symm ▸ (find?_present t f).symm)

theorem mem_soleReporters {s : Summary} {name : String} :
    name ∈ s.soleReporters ↔
      ∃ f, ∃ d ∈ s.descriptorsOf f, ∃ action, Contract.soleAction? d = some action ∧
        action.name = name := by
  simp only [soleReporters, SortedSet.mem_ofList, List.mem_flatMap, List.mem_map,
    List.mem_filterMap]
  constructor
  · rintro ⟨⟨f, ds⟩, listed, action, ⟨d, hd, sole⟩, rfl⟩
    have bound := SortedMap.mem_toList_iff.1 listed
    have known : s.descriptorsOf f = ds := by simp [descriptorsOf, SortedMap.getD, bound]
    exact ⟨f, d, known ▸ hd, action, sole, rfl⟩
  · rintro ⟨f, d, hd, action, sole, rfl⟩
    cases bound : s.descriptors.get? f with
    | none => simp [descriptorsOf, SortedMap.getD, bound] at hd
    | some ds =>
        have known : s.descriptorsOf f = ds := by simp [descriptorsOf, SortedMap.getD, bound]
        exact ⟨(f, ds), SortedMap.mem_toList_iff.2 bound, action, ⟨d, known ▸ hd, sole⟩, rfl⟩

theorem descriptorsOf_retract (s : Summary) (f g : Handle) (codes : SortedSet Int) :
    (s.retract f codes).descriptorsOf g =
      if g = f then SortedSet.ofList ((s.descriptorsOf f).toList.filterMap (without codes))
      else s.descriptorsOf g := by
  unfold retract
  split
  · rename_i unbound
    have known : s.descriptorsOf f = ∅ := by simp [descriptorsOf, SortedMap.getD, unbound]
    rw [known]
    split
    · rename_i same
      rw [same, known]
      rfl
    · rfl
  · rename_i ds bound
    have known : s.descriptorsOf f = ds := by simp [descriptorsOf, SortedMap.getD, bound]
    rw [known]
    exact SortedMap.getD_insert s.descriptors f g _ ∅

@[simp]
theorem facts_retract (s : Summary) (f : Handle) (codes : SortedSet Int) :
    (s.retract f codes).facts = s.facts := by
  unfold retract
  split <;> rfl

@[simp]
theorem descriptorsOf_setFact (s : Summary) (b f : Handle) (fact : Fact) :
    (s.setFact b fact).descriptorsOf f = s.descriptorsOf f := rfl

end Summary

/-! ## What is read off a summary -/

/-- Two summaries in which every function has the same descriptors. -/
def Summary.SameDescriptors (s t : Summary) : Prop :=
  ∀ f, s.descriptorsOf f = t.descriptorsOf f

namespace Summary.SameDescriptors

variable {s t : Summary}

theorem symm (same : s.SameDescriptors t) : t.SameDescriptors s := fun f => (same f).symm

theorem knownClauses_eq {σ : Type} (same : s.SameDescriptors t) (ctx : Context σ)
    (callee : Handle) : knownClauses ctx s callee = knownClauses ctx t callee := by
  simp only [knownClauses, merged?, same callee]

theorem soleReporters_eq (same : s.SameDescriptors t) : s.soleReporters = t.soleReporters :=
  SortedSet.ext fun name => by
    rw [mem_soleReporters, mem_soleReporters]
    exact exists_congr fun f => by rw [same f]

theorem setFact (same : s.SameDescriptors t) (b : Handle) (fact : Fact) :
    (s.setFact b fact).SameDescriptors (t.setFact b fact) := same

theorem addDescriptor (same : s.SameDescriptors t) (f : Handle) (d : Descriptor) :
    (s.addDescriptor f d).SameDescriptors (t.addDescriptor f d) := fun g => by
  rw [descriptorsOf_addDescriptor, descriptorsOf_addDescriptor, same f, same g]

theorem retract (same : s.SameDescriptors t) (f : Handle) (codes : SortedSet Int) :
    (s.retract f codes).SameDescriptors (t.retract f codes) := fun g => by
  rw [descriptorsOf_retract, descriptorsOf_retract, same f, same g]

end Summary.SameDescriptors

end ErrorContracts
