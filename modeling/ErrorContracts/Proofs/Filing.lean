import ErrorContracts.Proofs.Listings
import Mathlib.Data.List.InsertIdx
import Mathlib.Data.List.Perm.Subperm

/-!
# Keeping lists in order

The actions of which edits are made, one by one: a handle is taken and reserved, a value is defined at
a reserved handle, a loose value is entered into its list, operands are overwritten.  Each of them
leads from a tidy module to an extension that is tidy.
-/

namespace ErrorContracts

section Leading

variable {α : Type} {p : α → Bool} {l : List α} {a : α}

theorem filter_append_leads (leads : l.filter p <+: l) (other : p a = false) :
    (l ++ [a]).filter p <+: l ++ [a] := by
  rw [List.filter_append, List.filter_singleton, other, cond_false, List.append_nil]
  exact leads.trans (List.prefix_append l [a])

theorem insertIdx_length_append (front rest : List α) (a : α) :
    (front ++ rest).insertIdx front.length a = front ++ a :: rest := by
  induction front with
  | nil => rfl
  | cons b front ih =>
      rw [List.cons_append, List.length_cons, List.insertIdx_succ_cons, ih, List.cons_append]

/-- An element that is put behind those that lead is one of them. -/
theorem filter_insertIdx_leads (leads : l.filter p <+: l) (own : p a = true) :
    (l.insertIdx (l.filter p).length a).filter p <+: l.insertIdx (l.filter p).length a := by
  obtain ⟨rest, split⟩ := leads
  have all : (l.filter p).filter p = l.filter p :=
    List.filter_eq_self.2 fun _ inside => (List.mem_filter.1 inside).2
  have none : rest.filter p = [] := by
    have again := congrArg (List.filter p) split
    rwa [List.filter_append, all, List.append_right_eq_self] at again
  have inserted : l.insertIdx (l.filter p).length a = l.filter p ++ a :: rest := by
    rw [← insertIdx_length_append, split]
  rw [inserted, List.filter_append, all, List.filter_cons_of_pos own, none]
  exact ⟨rest, by simp⟩

end Leading

namespace Module

/-! ## Handles and definitions -/

section

variable {m m' : Module} {reserved : List Handle} {h k : Handle} {v : Value} {l : Listing}

theorem Tidy.value?_of_le (tidy : m.Tidy reserved) (above : m.next ≤ h) : m.value? h = none := by
  rw [← Option.not_isSome_iff_eq_none]
  intro named
  exact Nat.not_lt.2 above ((tidy.given h).2 (.inl named)).2

/-- The values stay what they are, and every list has members that belong to it. -/
theorem Tidy.of_frames (tidy : m.Tidy reserved) (next : m'.next = m.next)
    (frames : ∀ k, m'.frame? k = m.frame? k)
    (placed : ∀ l, ∀ k ∈ m'.listed l, k ∈ m.listed l ∨ m.home? k = some l)
    (once : ∀ l, (m'.listed l).Nodup)
    (phisLead : ∀ b, (m'.instructionsOf b).filter m.isPhi <+: m'.instructionsOf b) :
    m'.Tidy reserved where
  positive := by
    rw [next]
    exact tidy.positive
  given k := by
    rw [next, ← isSome_frame?, frames, isSome_frame?]
    exact tidy.given k
  vacant k free := by
    have none := tidy.vacant k free
    rw [← Option.not_isSome_iff_eq_none, ← isSome_frame?] at none ⊢
    rwa [frames]
  distinct := tidy.distinct
  placed l k inside := by
    rw [home?_eq, frames, ← home?_eq]
    exact (placed l k inside).elim (tidy.placed l k) id
  once := once
  phisLead b := by
    have same : m'.isPhi = m.isPhi := by
      funext k
      rw [isPhi_eq, isPhi_eq, frames]
    rw [phisOf, same]
    exact phisLead b

theorem tidy_fresh : Builds (Tidy reserved) fresh fun h m => m.Tidy (h :: reserved) := by
  constructor
  intro m tidy
  refine ⟨⟨Nat.le_succ m.next, fun _ _ => id, fun _ _ _ => id⟩, ?_⟩
  have vacant : m.value? m.next = none := tidy.value?_of_le (Nat.le_refl _)
  have new : m.next ∉ reserved := fun inside =>
    Nat.lt_irrefl _ ((tidy.given m.next).2 (.inr inside)).2
  constructor
  · exact Nat.succ_pos m.next
  · intro k
    change (0 < k ∧ k < m.next + 1) ↔ (m.value? k).isSome = true ∨ k ∈ m.next :: reserved
    rw [List.mem_cons, or_left_comm, ← tidy.given k, Nat.lt_succ_iff_lt_or_eq]
    constructor
    · rintro ⟨positive, below | last⟩
      · exact .inr ⟨positive, below⟩
      · exact .inl last
    · rintro (rfl | ⟨positive, below⟩)
      · exact ⟨tidy.positive, .inr rfl⟩
      · exact ⟨positive, .inl below⟩
  · exact List.forall_mem_cons.2 ⟨vacant, tidy.vacant⟩
  · exact List.nodup_cons.2 ⟨new, tidy.distinct⟩
  · exact tidy.placed
  · exact tidy.once
  · exact tidy.phisLead

theorem run_modify (change : Module → Module) (m : Module) :
    ((modify change : StateM Module Unit).run m).2 = change m := rfl

theorem value?_define (m : Module) (h k : Handle) (v : Value) :
    ((define h v).run m).2.value? k = if k = h then some v else m.value? k := by
  rw [define, run_modify]
  exact SortedMap.get?_insert m.values h k v

theorem part_define (m : Module) (part : Kind → List Handle) (h k : Handle) (v : Value) :
    ((define h v).run m).2.part part k = if k = h then part v.kind else m.part part k := by
  unfold Module.part
  rw [value?_define]
  split <;> rfl

/-- A new value owns no blocks and instructions, and its arguments are values made for it. -/
structure Owns (m : Module) (h : Handle) (v : Value) : Prop where
  blocks : v.kind.blocks = []
  instructions : v.kind.instructions = []
  arguments : ∀ a ∈ v.kind.arguments, m.home? a = some (.arguments h)
  once : v.kind.arguments.Nodup

theorem owns_of_bare (arguments : v.kind.arguments = []) (blocks : v.kind.blocks = [])
    (instructions : v.kind.instructions = []) : m.Owns h v where
  blocks := blocks
  instructions := instructions
  arguments a inside := by
    rw [arguments] at inside
    cases inside
  once := by
    rw [arguments]
    exact List.nodup_nil

/-- Defining a value changes no list but that of its arguments. -/
theorem listed_define (vacant : m.value? h = none) (owns : m.Owns h v) (l : Listing) :
    ((define h v).run m).2.listed l =
      if l = .arguments h then v.kind.arguments else m.listed l := by
  have none (part : Kind → List Handle) : m.part part h = [] := by
    rw [Module.part, vacant]
    rfl
  cases l with
  | arguments f =>
      simp only [listed, argumentsOf_eq, part_define, Listing.arguments.injEq]
  | blocks f =>
      rw [if_neg (by simp), listed, listed, blocksOf_eq, blocksOf_eq, part_define]
      split
      · rename_i here
        rw [here, none, owns.blocks]
      · rfl
  | instructions b =>
      rw [if_neg (by simp), listed, listed, instructionsOf_eq, instructionsOf_eq, part_define]
      split
      · rename_i here
        rw [here, none, owns.instructions]
      · rfl
  | _ =>
      rw [if_neg (by simp)]
      rfl

theorem home?_define (other : k ≠ h) : ((define h v).run m).2.home? k = m.home? k := by
  rw [home?, home?, value?_define, if_neg other]

theorem isPhi_define (other : k ≠ h) : ((define h v).run m).2.isPhi k = m.isPhi k := by
  rw [isPhi_eq, isPhi_eq, frame?, frame?, value?_define, if_neg other]

theorem extends_define (vacant : m.value? h = none) : m.Extends ((define h v).run m).2 where
  next := Nat.le_refl m.next
  frames k w found := by
    have other : k ≠ h := by
      rintro rfl
      rw [frame?, vacant] at found
      cases found
    rw [frame?, value?_define, if_neg other]
    exact found
  constants _ _ _ := id

theorem ne_of_home? (vacant : m.value? h = none) (home : m.home? k = some l) : k ≠ h := by
  rintro rfl
  rw [home?, vacant] at home
  cases home

/-- What is listed after a definition belonged to its list before. -/
theorem Tidy.home?_of_listed_define (tidy : m.Tidy reserved) (vacant : m.value? h = none)
    (owns : m.Owns h v) (inside : k ∈ ((define h v).run m).2.listed l) : m.home? k = some l := by
  rw [listed_define vacant owns] at inside
  split at inside
  · rename_i here
    rw [here]
    exact owns.arguments k inside
  · exact tidy.placed l k inside

theorem Tidy.define (tidy : m.Tidy (h :: reserved)) (owns : m.Owns h v) :
    ((Module.define h v).run m).2.Tidy reserved := by
  have vacant : m.value? h = none := tidy.vacant h List.mem_cons_self
  obtain ⟨unreserved, distinct⟩ := List.nodup_cons.1 tidy.distinct
  have listed := listed_define vacant owns
  refine ⟨tidy.positive, fun k => ?_, fun k free => ?_, distinct, fun l k inside => ?_, fun l => ?_,
    fun b => ?_⟩
  · rw [value?_define]
    by_cases here : k = h
    · subst here
      rw [if_pos rfl]
      exact iff_of_true ((tidy.given k).2 (.inr List.mem_cons_self)) (.inl rfl)
    · rw [if_neg here]
      have given := tidy.given k
      rwa [List.mem_cons, or_iff_right here] at given
  · have other : k ≠ h := by
      rintro rfl
      exact unreserved free
    rw [value?_define, if_neg other]
    exact tidy.vacant k (List.mem_cons_of_mem h free)
  · have home := tidy.home?_of_listed_define vacant owns inside
    rw [home?_define (ne_of_home? vacant home)]
    exact home
  · rw [listed]
    split
    · exact owns.once
    · exact tidy.once l
  · have instructions : ((Module.define h v).run m).2.instructionsOf b = m.instructionsOf b :=
      (listed (.instructions b)).trans (if_neg (by simp))
    have same : ((Module.define h v).run m).2.phisOf b = m.phisOf b := by
      rw [phisOf, phisOf, instructions]
      exact List.filter_congr fun k inside =>
        isPhi_define (ne_of_home? vacant (tidy.placed (.instructions b) k inside))
    rw [same, instructions]
    exact tidy.phisLead b

/-- A value is defined at a reserved handle; it is not listed yet. -/
theorem tidy_define : Builds (fun m => m.Tidy (h :: reserved) ∧ m.Owns h v) (define h v)
    fun _ m => m.Tidy reserved ∧ m.Loose h v := by
  constructor
  rintro m ⟨tidy, owns⟩
  have vacant : m.value? h = none := tidy.vacant h List.mem_cons_self
  refine ⟨extends_define vacant, tidy.define owns, ?_, fun l inside => ?_⟩
  · rw [value?_define, if_pos rfl]
  · exact ne_of_home? vacant (tidy.home?_of_listed_define vacant owns inside) rfl

/-- A loose value is entered into the list to which it belongs. -/
theorem Tidy.enter (tidy : m.Tidy reserved) (loose : m.Loose h v) (belongs : v.listing? = some l)
    (next : m'.next = m.next) (frames : ∀ k, m'.frame? k = m.frame? k)
    (others : ∀ l', l' ≠ l → m'.listed l' = m.listed l')
    (entered : (m'.listed l).Subperm (h :: m.listed l))
    (phisLead : ∀ b, (m'.instructionsOf b).filter m.isPhi <+: m'.instructionsOf b) :
    m'.Tidy reserved := by
  have home : m.home? h = some l := by
    rw [home?, loose.value]
    exact belongs
  refine tidy.of_frames next frames (fun l' k inside => ?_) (fun l' => ?_) phisLead
  · by_cases own : l' = l
    · subst own
      rcases List.mem_cons.1 (entered.subset inside) with rfl | old
      · exact .inr home
      · exact .inl old
    · exact .inl (others l' own ▸ inside)
  · by_cases own : l' = l
    · subst own
      obtain ⟨kept, same, sub⟩ := entered
      exact same.nodup_iff.1 ((List.nodup_cons.2 ⟨loose.unlisted l', tidy.once l'⟩).sublist sub)
    · rw [others l' own]
      exact tidy.once l'

/-! ## Books -/

/-- The books are changed and nothing else. -/
structure Enters (change : Module → Module) (h : Handle) (l : Listing) : Prop where
  next : ∀ m, (change m).next = m.next
  values : ∀ m, (change m).values = m.values
  others : ∀ m l', l' ≠ l → (change m).listed l' = m.listed l'
  entered : ∀ m, ((change m).listed l).Subperm (h :: m.listed l)

/-- The only member of a list. -/
theorem enters_of_only {change : Module → Module} (next : ∀ m, (change m).next = m.next)
    (values : ∀ m, (change m).values = m.values)
    (others : ∀ m l', l' ≠ l → (change m).listed l' = m.listed l')
    (only : ∀ m, (change m).listed l = [h]) : Enters change h l where
  next := next
  values := values
  others := others
  entered m := by
    rw [only]
    exact (List.singleton_sublist.2 List.mem_cons_self).subperm

theorem Enters.tidy {change : Module → Module} (enters : Enters change h l) (tidy : m.Tidy reserved)
    (loose : m.Loose h v) (belongs : v.listing? = some l) : (change m).Tidy reserved := by
  refine tidy.enter loose belongs (enters.next m) (fun k => ?_) (enters.others m) (enters.entered m)
    fun b => ?_
  · rw [frame?, frame?, value?, value?, enters.values]
  · have same : (change m).instructionsOf b = m.instructionsOf b := by
      rw [instructionsOf_eq, instructionsOf_eq, part, part, value?, value?, enters.values]
    rw [same]
    exact tidy.phisLead b

theorem Enters.extends {change : Module → Module} (enters : Enters change h l)
    (vacant : ∀ n type, l = .constant n type → m.listed l = []) : m.Extends (change m) where
  next := Nat.le_of_eq (enters.next m).symm
  frames k w found := by
    rw [frame?, value?, enters.values]
    exact found
  constants n type k inside := by
    by_cases own : .constant n type = l
    · rw [own, vacant n type own.symm] at inside
      cases inside
    · rw [enters.others m _ own]
      exact inside

theorem tidy_modify {change : Module → Module} (enters : Enters change h l)
    (belongs : v.listing? = some l) (unshared : ∀ n type, l ≠ .constant n type) :
    Builds (fun m => m.Tidy reserved ∧ m.Loose h v) (modify change) fun _ => Tidy reserved := by
  constructor
  rintro m ⟨tidy, loose⟩
  exact ⟨enters.extends fun n type own => absurd own (unshared n type),
    enters.tidy tidy loose belongs⟩

/-- A value is made for a list that has no member yet. -/
theorem tidy_register {α : Type} {enter : Handle → Module → Module} {answer : Handle → α}
    (enters : ∀ h, Enters (enter h) h l) (entered : ∀ h m, h ∈ (enter h m).listed l)
    (belongs : v.listing? = some l) (proper : ∀ h, l ≠ .arguments h) (owns : ∀ h m, Owns m h v) :
    Builds (fun m => m.Tidy reserved ∧ m.listed l = [])
      (fresh >>= fun h => define h v >>= fun _ => modify (enter h) >>= fun _ => pure (answer h))
      fun a m => m.Tidy reserved ∧ ∃ h ∈ m.listed l, a = answer h := by
  constructor
  rintro m ⟨tidy, none⟩
  obtain ⟨extends₁, tidy₁⟩ := tidy_fresh.run m tidy
  obtain ⟨extends₂, tidy₂, loose⟩ := tidy_define.run _ ⟨tidy₁, owns m.next _⟩
  have vacant : ((define m.next v).run (fresh.run m).2).2.listed l = [] := by
    have unlisted := listed_define (tidy₁.vacant _ List.mem_cons_self) (owns m.next _) l
    rw [if_neg (proper _)] at unlisted
    exact unlisted.trans none
  have extends₃ := (enters m.next).extends fun _ _ _ => vacant
  exact ⟨(extends₁.trans extends₂).trans extends₃, (enters m.next).tidy tidy₂ loose belongs,
    m.next, entered _ _, rfl⟩

/-! ## Changes of values -/

theorem run_revise (m : Module) (h : Handle) (change : Kind → Kind) :
    ((revise h change).run m).2 = { m with
      values := (m.value? h).elim m.values fun v =>
        m.values.insert h { v with kind := change v.kind } } := by
  rw [revise, run_modify]
  split
  · rename_i v found
    rw [found]
    rfl
  · rename_i absent
    rw [absent]
    rfl

theorem value?_revise (m : Module) (h k : Handle) (change : Kind → Kind) :
    ((revise h change).run m).2.value? k =
      if k = h then (m.value? h).map fun v => { v with kind := change v.kind } else m.value? k := by
  rw [run_revise]
  cases found : m.value? h with
  | some v => exact SortedMap.get?_insert m.values h k _
  | none =>
      split
      · rename_i here
        rw [here]
        exact found
      · rfl

theorem part_revise (m : Module) (part : Kind → List Handle) (h k : Handle) (change : Kind → Kind) :
    ((revise h change).run m).2.part part k =
      if k = h then m.part (part ∘ change) h else m.part part k := by
  unfold Module.part
  rw [value?_revise]
  split
  · cases m.value? h <;> rfl
  · rfl

variable {change : Kind → Kind}

theorem frame?_revise (frames : ∀ kind, (change kind).frame = kind.frame) (m : Module) (h k : Handle) :
    ((revise h change).run m).2.frame? k = m.frame? k := by
  unfold frame?
  rw [value?_revise]
  split
  · rename_i here
    rw [here]
    cases m.value? h with
    | none => rfl
    | some v =>
        simp only [Option.map_some, Value.frame, frames]
  · rfl

/-- Only the blocks and the instructions of a value change. -/
theorem listed_revise (frames : ∀ kind, (change kind).frame = kind.frame) (m : Module) (h : Handle)
    (blocks : l ≠ .blocks h) (instructions : l ≠ .instructions h) :
    ((revise h change).run m).2.listed l = m.listed l := by
  cases l with
  | arguments f =>
      have same : Kind.arguments ∘ change = Kind.arguments := by
        funext kind
        rw [Function.comp_apply, ← Kind.arguments_frame, frames, Kind.arguments_frame]
      rw [listed, listed, argumentsOf_eq, argumentsOf_eq, part_revise, same]
      split
      · rename_i here
        rw [here]
      · rfl
  | blocks f =>
      rw [listed, listed, blocksOf_eq, blocksOf_eq, part_revise, if_neg]
      rintro rfl
      exact blocks rfl
  | instructions b =>
      rw [listed, listed, instructionsOf_eq, instructionsOf_eq, part_revise, if_neg]
      rintro rfl
      exact instructions rfl
  | _ =>
      rw [run_revise]
      rfl

theorem extends_revise (frames : ∀ kind, (change kind).frame = kind.frame) (m : Module) (h : Handle) :
    m.Extends ((revise h change).run m).2 where
  next := Nat.le_of_eq (by rw [run_revise])
  frames k w found := by
    rw [frame?_revise frames]
    exact found
  constants n type k inside := by
    rw [listed_revise frames m h (by simp) (by simp)]
    exact inside

/-- A change of operands leaves all lists as they are. -/
theorem tidy_revise (frames : ∀ kind, (change kind).frame = kind.frame)
    (blocks : ∀ kind, (change kind).blocks = kind.blocks)
    (instructions : ∀ kind, (change kind).instructions = kind.instructions) :
    Builds (Tidy reserved) (revise h change) fun _ => Tidy reserved := by
  constructor
  intro m tidy
  have listed : ∀ l, ((revise h change).run m).2.listed l = m.listed l := by
    intro l
    by_cases own : l = .blocks h
    · have same : Kind.blocks ∘ change = Kind.blocks := funext blocks
      rw [own, Module.listed, Module.listed, blocksOf_eq, blocksOf_eq, part_revise, if_pos rfl, same]
    · by_cases own' : l = .instructions h
      · have same : Kind.instructions ∘ change = Kind.instructions := funext instructions
        rw [own', Module.listed, Module.listed, instructionsOf_eq, instructionsOf_eq, part_revise,
          if_pos rfl, same]
      · exact listed_revise frames m h own own'
  refine ⟨extends_revise frames m h, tidy.of_frames ?_ (frame?_revise frames m h) ?_ ?_ ?_⟩
  · rw [run_revise]
  · exact fun l k inside => .inl (listed l ▸ inside)
  · intro l
    rw [listed]
    exact tidy.once l
  · intro b
    rw [show ((revise h change).run m).2.instructionsOf b = m.instructionsOf b from
      listed (.instructions b)]
    exact tidy.phisLead b

/-- A function gets one more block. -/
theorem tidy_addBlock {function : Handle} (belongs : v.listing? = some (.blocks function))
    (frames : ∀ kind, (change kind).frame = kind.frame)
    (blocks : ∀ kind, (change kind).blocks.Subperm (h :: kind.blocks))
    (instructions : ∀ kind, (change kind).instructions = kind.instructions) :
    Builds (fun m => m.Tidy reserved ∧ m.Loose h v) (revise function change)
      fun _ => Tidy reserved := by
  constructor
  rintro m ⟨tidy, loose⟩
  have same : Kind.instructions ∘ change = Kind.instructions := funext instructions
  have kept : ∀ b, ((revise function change).run m).2.instructionsOf b = m.instructionsOf b := by
    intro b
    rw [instructionsOf_eq, instructionsOf_eq, part_revise, same]
    split
    · rename_i here
      rw [here]
    · rfl
  refine ⟨extends_revise frames m function, tidy.enter loose belongs ?_
    (frame?_revise frames m function) (fun l' other => ?_) ?_ fun b => ?_⟩
  · rw [run_revise]
  · by_cases own : l' = .instructions function
    · rw [own]
      exact kept function
    · exact listed_revise frames m function other own
  · rw [listed, listed, blocksOf_eq, blocksOf_eq, part_revise, if_pos rfl, part, part]
    cases m.value? function with
    | none => exact List.nil_subperm
    | some w => exact blocks w.kind
  · rw [kept]
    exact tidy.phisLead b

/-! ## Instructions in blocks -/

theorem functionOfBlock?_eq_some_iff {b f : Handle} :
    m.functionOfBlock? b = some f ↔ m.home? b = some (.blocks f) := by
  unfold functionOfBlock? kind? home?
  cases m.value? b with
  | none => simp
  | some v =>
      obtain ⟨name, type, kind⟩ := v
      cases kind <;> simp [Value.listing?]

theorem functionOfBlock?_revise (frames : ∀ kind, (change kind).frame = kind.frame) (m : Module)
    (h b : Handle) : ((revise h change).run m).2.functionOfBlock? b = m.functionOfBlock? b := by
  ext f
  rw [functionOfBlock?_eq_some_iff, functionOfBlock?_eq_some_iff, home?_eq, home?_eq,
    frame?_revise frames]

theorem frame_withInstructions (change : List Handle → List Handle) (kind : Kind) :
    (kind.withInstructions change).frame = kind.frame := by
  cases kind <;> rfl

theorem instructionsOf_enlist (m : Module) (b : Handle) (change : List Handle → List Handle) :
    ((revise b (Kind.withInstructions change)).run m).2.instructionsOf b =
      if (m.functionOfBlock? b).isSome then change (m.instructionsOf b) else [] := by
  rw [instructionsOf_eq, instructionsOf_eq, part_revise, if_pos rfl, part, part, functionOfBlock?,
    kind?]
  cases m.value? b with
  | none => rfl
  | some v =>
      obtain ⟨name, type, kind⟩ := v
      cases kind <;> rfl

/-- The instructions of a block after one was put at a place where the phis still lead. -/
structure Enlists (m : Module) (b h : Handle) (instructions : List Handle) : Prop where
  adds : instructions.Perm (h :: m.instructionsOf b)
  leads : instructions.filter m.isPhi <+: instructions

theorem tidy_enlist {b : Handle} {change : List Handle → List Handle}
    (belongs : v.listing? = some (.instructions b)) :
    Builds (fun m => (m.Tidy reserved ∧ m.Loose h v) ∧ m.Enlists b h (change (m.instructionsOf b)))
      (revise b (Kind.withInstructions change)) fun _ m => m.Tidy reserved ∧
        ((m.functionOfBlock? b).isSome = true → h ∈ m.instructionsOf b) := by
  constructor
  rintro m ⟨⟨tidy, loose⟩, adds, leads⟩
  have frames := frame_withInstructions change
  have after := instructionsOf_enlist m b change
  refine ⟨extends_revise frames m b, tidy.enter loose belongs ?_ (frame?_revise frames m b)
    (fun l' other => ?_) ?_ fun c => ?_, fun block => ?_⟩
  · rw [run_revise]
  · by_cases own : l' = .blocks b
    · have same : Kind.blocks ∘ Kind.withInstructions change = Kind.blocks := by
        funext kind
        cases kind <;> rfl
      rw [own, listed, listed, blocksOf_eq, blocksOf_eq, part_revise, if_pos rfl, same]
    · exact listed_revise frames m b own other
  · rw [listed, listed, after]
    split
    · exact adds.subperm
    · exact List.nil_subperm
  · by_cases here : c = b
    · subst here
      rw [after]
      split
      · exact leads
      · exact List.prefix_refl []
    · have same := listed_revise frames m b (l := .instructions c) (by simp) (by simpa using here)
      rw [show ((revise b _).run m).2.instructionsOf c = m.instructionsOf c from same]
      exact tidy.phisLead c
  · rw [functionOfBlock?_revise frames] at block
    rw [after, if_pos block]
    exact adds.mem_iff.2 List.mem_cons_self

theorem isPhi_of_value (found : m.value? h = some v) : m.isPhi h = v.kind.isPhi := by
  rw [isPhi_eq, frame?, found]
  exact Kind.isPhi_frame v.kind

theorem tidy_append {b : Handle} (belongs : v.listing? = some (.instructions b))
    (plain : v.kind.isPhi = false) :
    Builds (fun m => m.Tidy reserved ∧ m.Loose h v) (append b h) fun _ m => m.Tidy reserved ∧
      ((m.functionOfBlock? b).isSome = true → h ∈ m.instructionsOf b) := by
  refine (tidy_enlist belongs).weaken ?_ fun _ _ => id
  rintro m ⟨tidy, loose⟩
  exact ⟨⟨tidy, loose⟩, List.perm_append_singleton h _,
    filter_append_leads (tidy.phisLead b) ((isPhi_of_value loose.value).trans plain)⟩

theorem tidy_appendPhi {b : Handle} (belongs : v.listing? = some (.instructions b))
    (phi : v.kind.isPhi = true) :
    Builds (fun m => m.Tidy reserved ∧ m.Loose h v) (appendPhi b h) fun _ m => m.Tidy reserved ∧
      ((m.functionOfBlock? b).isSome = true → h ∈ m.instructionsOf b) := by
  apply Builds.get_bind
  intro m
  refine (tidy_enlist belongs).weaken ?_ fun _ _ => id
  rintro _ ⟨rfl, tidy, loose⟩
  exact ⟨⟨tidy, loose⟩, List.perm_insertIdx h _ (tidy.phisLead b).length_le,
    filter_insertIdx_leads (tidy.phisLead b) ((isPhi_of_value loose.value).trans phi)⟩

end

end Module

end ErrorContracts
