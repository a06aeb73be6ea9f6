import ErrorContracts.Proofs.Filing

/-!
# Modules are in order however they are built

Every edit keeps the invariant, also one that fails: an instruction without a block takes its handle
and enters no list.  To overwrite the operands of a phi, a cast or an alias changes no list at all.  So
the invariant holds after any steps, and what a module has listed it goes on to list.
-/

namespace ErrorContracts

/-! ## Edits -/

/-- Where an edit puts its instruction, for the edits that make one; `none` stands for no block. -/
def Edit.site? : Edit → Option (Option Handle)
  | .call site _ _ _ _ => some site
  | .compare site _ _ _ _ => some site
  | .cast site _ _ _ _ => some site
  | .phi site _ _ _ => some site
  | .branch site _ _ _ => some site
  | .jump site _ => some site
  | .ret site _ => some site
  | .unreachable site => some site
  | _ => none

namespace Module

/--
What an edit for an instruction comes to.  The instruction takes a handle that was not in use; without
a block the edit fails and the instruction is in no list.
-/
inductive Lands (start : Handle) (m : Module) : Option Handle → Except EditFault Handle → Prop where
  | nowhere {h : Handle} {v : Value} (new : start ≤ h) (loose : m.Loose h v) :
      Lands start m none (.error .noBlock)
  | inside {b h : Handle} (new : start ≤ h)
      (listed : (m.functionOfBlock? b).isSome = true → h ∈ m.instructionsOf b) :
      Lands start m (some b) (.ok h)

section

variable {reserved : List Handle}

section Books

variable {κ : Type} [DecidableEq κ] {k j : κ}

theorem toList_find?_assign_self (k : κ) (h : Handle) (book : List (κ × Handle)) :
    (Bindings.find? k (Bindings.assign k h book)).toList = [h] := by
  rw [Bindings.find?_assign, if_pos rfl, Option.toList_some]

theorem toList_find?_assign_of_ne (other : j ≠ k) (h : Handle) (book : List (κ × Handle)) :
    (Bindings.find? j (Bindings.assign k h book)).toList = (Bindings.find? j book).toList := by
  rw [Bindings.find?_assign, if_neg other]

end Books

theorem enters_constant (n : Int) (type : Ty) (h : Handle) :
    Enters (fun m => { m with constants := Bindings.assign (n, type) h m.constants }) h
      (.constant n type) := by
  refine enters_of_only (fun _ => rfl) (fun _ => rfl) (fun m l' other => ?_) fun m =>
    toList_find?_assign_self _ h m.constants
  cases l' with
  | constant n' type' =>
      exact toList_find?_assign_of_ne (fun same => other (by simpa using same)) h m.constants
  | _ => rfl

theorem enters_external (name : String) (h : Handle) :
    Enters (fun m => { m with externals := Bindings.assign name h m.externals }) h
      (.external name) := by
  refine enters_of_only (fun _ => rfl) (fun _ => rfl) (fun m l' other => ?_) fun m =>
    toList_find?_assign_self name h m.externals
  cases l' with
  | external name' =>
      exact toList_find?_assign_of_ne (fun same => other (by rw [same])) h m.externals
  | _ => rfl

theorem enters_synonym (name : String) (h : Handle) :
    Enters (fun m => { m with aliases := Bindings.assign name h m.aliases }) h
      (.synonym name) := by
  refine enters_of_only (fun _ => rfl) (fun _ => rfl) (fun m l' other => ?_) fun m =>
    toList_find?_assign_self name h m.aliases
  cases l' with
  | synonym name' =>
      exact toList_find?_assign_of_ne (fun same => other (by rw [same])) h m.aliases
  | _ => rfl

theorem enters_null (h : Handle) : Enters (fun m => { m with null := some h }) h .null := by
  refine enters_of_only (fun _ => rfl) (fun _ => rfl) (fun m l' other => ?_) fun m => rfl
  cases l' with
  | null => exact absurd rfl other
  | _ => rfl

theorem enters_functions (h : Handle) :
    Enters (fun m => { m with functions := m.functions ++ [h] }) h .functions where
  next _ := rfl
  values _ := rfl
  others m l' other := by
    cases l' with
    | functions => exact absurd rfl other
    | _ => rfl
  entered m := (List.perm_append_singleton h m.functions).subperm

theorem tidy_constant (n : Int) (type : Ty) : Builds (Tidy reserved) (constant n type)
    fun h m => m.Tidy reserved ∧ h ∈ m.listed (.constant n type) := by
  apply Builds.get_bind
  intro m
  split
  · rename_i h found
    refine Builds.pure ?_
    rintro _ ⟨rfl, tidy⟩
    exact ⟨tidy, by simp [listed, found]⟩
  · rename_i absent
    refine (tidy_register (enters_constant n type) ?_ rfl (by simp) fun _ _ =>
      owns_of_bare rfl rfl rfl).weaken (fun _ known => ⟨known.2, ?_⟩) ?_
    · intro h m
      simp [listed, Bindings.find?_assign]
    · simp [known.1, listed, absent]
    · rintro _ m ⟨tidy, h, entered, rfl⟩
      exact ⟨tidy, entered⟩

theorem tidy_nullPointer : Builds (Tidy reserved) nullPointer fun _ => Tidy reserved := by
  apply Builds.get_bind
  intro m
  split
  · exact Builds.pure fun _ known => known.2
  · rename_i absent
    refine (tidy_register enters_null ?_ rfl (by simp) fun _ _ => owns_of_bare rfl rfl rfl).weaken
      (fun _ known => ⟨known.2, ?_⟩) fun _ _ known => known.1
    · intro h m
      simp [listed]
    · simp [known.1, listed, absent]

theorem tidy_operand (operand : Operand) :
    Builds (Tidy reserved) (Module.operand operand) fun _ => Tidy reserved := by
  cases operand with
  | value h => exact Builds.pure fun _ => id
  | literal n => exact (tidy_constant n .i32).weaken (fun _ => id) fun _ _ known => known.1

theorem tidy_defineArguments (function : Handle) (index : Nat)
    (parameters : List (Option String × Ty)) :
    Builds (Tidy reserved) (defineArguments function index parameters) fun arguments m =>
      m.Tidy reserved ∧ ∀ (i : Nat) a, arguments[i]? = some a →
        ∃ v, m.frame? a = some v ∧ v.kind = .argument function (index + i) := by
  induction parameters generalizing index with
  | nil => exact Builds.pure fun m tidy => ⟨tidy, by simp⟩
  | cons parameter rest ih =>
      apply tidy_fresh.bind
      intro h
      let v : Value := ⟨parameter.1.getD s!"arg{index}", parameter.2, .argument function index⟩
      have defined : Builds (Tidy (h :: reserved)) (define h v) fun _ m =>
          m.Tidy reserved ∧ m.frame? h = some v := by
        refine tidy_define.weaken (fun m tidy => ⟨tidy, owns_of_bare rfl rfl rfl⟩) ?_
        rintro _ m ⟨tidy, loose⟩
        exact ⟨tidy, by rw [frame?, loose.value]; rfl⟩
      apply defined.bind
      intro _
      apply ((ih (index + 1)).keep h v).bind
      intro arguments
      refine Builds.pure ?_
      rintro m ⟨⟨tidy, others⟩, own⟩
      refine ⟨tidy, fun i a at_i => ?_⟩
      cases i with
      | zero =>
          obtain rfl := Option.some.inj at_i
          exact ⟨v, own, rfl⟩
      | succ i =>
          rw [Nat.add_comm i 1, ← Nat.add_assoc]
          exact others i a at_i

/-- The arguments of a function are distinct, since each tells its index. -/
theorem owns_function {m : Module} {h : Handle} {arguments : List Handle} (name : String) (returns : Ty)
    (made : ∀ (i : Nat) a, arguments[i]? = some a →
      ∃ v, m.frame? a = some v ∧ v.kind = .argument h (0 + i)) :
    m.Owns h ⟨name, .ptr, .function returns arguments []⟩ where
  blocks := rfl
  instructions := rfl
  arguments a inside := by
    obtain ⟨i, at_i⟩ := List.mem_iff_getElem?.1 inside
    obtain ⟨v, found, kind⟩ := made i a at_i
    rw [home?_eq, found, Option.bind_some, Value.listing?, kind]
  once := by
    refine List.nodup_iff_getElem?_ne_getElem?.2 fun i j before inside same => ?_
    obtain ⟨v, found, kind⟩ := made j _ (List.getElem?_eq_getElem inside)
    obtain ⟨w, found', kind'⟩ := made i _ (same.trans (List.getElem?_eq_getElem inside))
    obtain rfl := Option.some.inj (found.symm.trans found')
    rw [kind] at kind'
    simp only [Kind.argument.injEq, Nat.add_left_cancel_iff, true_and] at kind'
    exact Nat.ne_of_lt before kind'.symm

/-- The last steps of an edit that makes an instruction at a reserved handle. -/
theorem tidy_insert {start h : Handle} {v : Value} {site : Option Handle}
    {place : Handle → Handle → StateM Module Unit} (new : start ≤ h)
    (bare : v.kind.arguments = [] ∧ v.kind.blocks = [] ∧ v.kind.instructions = [])
    (each : ∀ b, site = some b → Builds (fun m => m.Tidy [] ∧ m.Loose h v) (place b h)
      fun _ m => m.Tidy [] ∧ ((m.functionOfBlock? b).isSome = true → h ∈ m.instructionsOf b)) :
    Builds (Tidy [h]) (define h v >>= fun _ => placed site h place)
      fun a m => m.Tidy [] ∧ m.Lands start site a := by
  have defined : Builds (Tidy [h]) (define h v) fun _ m => m.Tidy [] ∧ m.Loose h v :=
    tidy_define.weaken (fun m tidy => ⟨tidy, owns_of_bare bare.1 bare.2.1 bare.2.2⟩) fun _ _ => id
  apply defined.bind
  intro _
  cases site with
  | none => exact Builds.pure fun m known => ⟨known.1, .nowhere new known.2⟩
  | some b =>
      apply (each b rfl).bind
      intro _
      exact Builds.pure fun m known => ⟨known.1, .inside new known.2⟩

theorem tidy_fresh_bind {α : Type} {start : Handle} {next : Handle → StateM Module α}
    {after : α → Module → Prop}
    (rest : ∀ h, start ≤ h → Builds (Tidy (h :: reserved)) (next h) after) :
    Builds (fun m => m.Tidy reserved ∧ start ≤ m.next) (fresh >>= next) after := by
  constructor
  rintro m ⟨tidy, above⟩
  obtain ⟨extends₁, reserved'⟩ := tidy_fresh.run m tidy
  obtain ⟨extends₂, holds⟩ := (rest m.next above).run _ reserved'
  exact ⟨extends₁.trans extends₂, holds⟩

variable {start h : Handle} {site : Option Handle}

theorem tidy_instruction {op : Op} (name : String) (type : Ty) (new : start ≤ h)
    (plain : op.isPhi = false) :
    Builds (Tidy [h]) (define h ⟨name, type, .instruction site op⟩ >>= fun _ => placed site h append)
      fun a m => m.Tidy [] ∧ m.Lands start site a := by
  refine tidy_insert new ⟨rfl, rfl, rfl⟩ fun b own => ?_
  subst own
  exact tidy_append rfl plain

theorem tidy_terminate (exit : Terminator) :
    Builds (fun m => m.Tidy [] ∧ start ≤ m.next) (terminate site exit)
      fun a m => m.Tidy [] ∧ m.Lands start site a := by
  refine tidy_fresh_bind fun h new => tidy_insert new ⟨rfl, rfl, rfl⟩ fun b own => ?_
  subst own
  exact tidy_append rfl rfl

end

/-- An edit that makes no instruction. -/
theorem Builds.of_bare {edit : Edit} {start : Handle} (bare : edit.site? = none)
    (builds : Builds (Tidy []) (apply edit) fun _ => Tidy []) :
    Builds (fun m => m.Tidy [] ∧ start ≤ m.next) (apply edit) fun a m =>
      m.Tidy [] ∧ ∀ site ∈ edit.site?, m.Lands start site a := by
  refine builds.weaken (fun m known => known.1) fun a m tidy => ⟨tidy, fun site given => ?_⟩
  rw [bare] at given
  cases given

/-- An edit that makes an instruction. -/
theorem Builds.of_site {edit : Edit} {start : Handle} {site : Option Handle}
    (own : edit.site? = some site)
    (builds : Builds (fun m => m.Tidy [] ∧ start ≤ m.next) (apply edit) fun a m =>
      m.Tidy [] ∧ m.Lands start site a) :
    Builds (fun m => m.Tidy [] ∧ start ≤ m.next) (apply edit) fun a m =>
      m.Tidy [] ∧ ∀ site ∈ edit.site?, m.Lands start site a := by
  refine builds.weaken (fun m known => known) fun a m known => ⟨known.1, fun site' given => ?_⟩
  rw [own] at given
  obtain rfl := Option.some.inj given
  exact known.2

/-- Every edit leads to an extension of the module in which all is in order again. -/
theorem tidy_apply (edit : Edit) (start : Handle) :
    Builds (fun m => m.Tidy [] ∧ start ≤ m.next) (apply edit) fun a m =>
      m.Tidy [] ∧ ∀ site ∈ edit.site?, m.Lands start site a := by
  cases edit with
  | external name returns =>
      apply Builds.of_bare rfl
      apply Builds.get_bind
      intro m
      split
      · exact Builds.pure fun _ known => known.2
      · rename_i absent
        refine (tidy_register (enters_external name) ?_ rfl (by simp) fun _ _ =>
          owns_of_bare rfl rfl rfl).weaken (fun _ known => ⟨known.2, ?_⟩) fun _ _ known => known.1
        · intro h m
          simp [listed, Bindings.find?_assign]
        · simp [known.1, listed, absent]
  | function name returns parameters =>
      apply Builds.of_bare rfl
      apply tidy_fresh.bind
      intro h
      apply (tidy_defineArguments h 0 parameters).bind
      intro arguments
      have defined : Builds (fun m => m.Tidy [h] ∧ ∀ (i : Nat) a, arguments[i]? = some a →
          ∃ v, m.frame? a = some v ∧ v.kind = .argument h (0 + i))
          (define h ⟨name, .ptr, .function returns arguments []⟩) fun _ m =>
            m.Tidy [] ∧ m.Loose h ⟨name, .ptr, .function returns arguments []⟩ :=
        tidy_define.weaken (fun m known => ⟨known.1, owns_function name returns known.2⟩)
          fun _ _ => id
      apply defined.bind
      intro _
      apply (tidy_modify (enters_functions h) rfl (by simp)).bind
      intro _
      exact Builds.pure fun _ => id
  | addAlias name target =>
      apply Builds.of_bare rfl
      apply tidy_fresh.bind
      intro h
      apply Builds.get_bind
      intro m
      apply (tidy_define.weaken (fun _ known => ⟨known.2, owns_of_bare rfl rfl rfl⟩)
        fun _ _ => id).bind
      intro _
      apply (tidy_modify (enters_synonym name h) rfl (by simp)).bind
      intro _
      exact Builds.pure fun _ => id
  | block function name =>
      apply Builds.of_bare rfl
      apply tidy_fresh.bind
      intro h
      apply Builds.get_bind
      intro m
      apply (tidy_define.weaken (fun _ known => ⟨known.2, owns_of_bare rfl rfl rfl⟩)
        fun _ _ => id).bind
      intro _
      refine (tidy_addBlock rfl ?_ ?_ ?_).bind fun _ => Builds.pure fun _ => id
      · intro kind
        cases kind <;> rfl
      · intro kind
        cases kind with
        | function returns arguments blocks => exact (List.perm_append_singleton h blocks).subperm
        | _ => exact List.nil_subperm
      · intro kind
        cases kind <;> rfl
  | constant n type =>
      apply Builds.of_bare rfl
      exact (tidy_constant n type).bind fun _ => Builds.pure fun _ known => known.1
  | null =>
      apply Builds.of_bare rfl
      exact tidy_nullPointer.bind fun _ => Builds.pure fun _ => id
  | detachedCall callee arguments name type =>
      apply Builds.of_bare rfl
      apply tidy_fresh.bind
      intro h
      apply (Builds.mapM tidy_operand arguments).bind
      intro arguments
      apply (tidy_define.weaken (fun _ tidy => ⟨tidy, owns_of_bare rfl rfl rfl⟩)
        fun _ _ => id).bind
      intro _
      exact Builds.pure fun _ known => known.1
  | call site callee arguments name type =>
      apply Builds.of_site rfl
      apply tidy_fresh_bind
      intro h new
      apply (Builds.mapM tidy_operand arguments).bind
      intro arguments
      apply Builds.get_bind
      intro m
      exact (tidy_instruction name _ new rfl).weaken (fun _ known => known.2) fun _ _ => id
  | compare site predicate lhs rhs name =>
      apply Builds.of_site rfl
      apply tidy_fresh_bind
      intro h new
      apply (tidy_operand lhs).bind
      intro lhs
      apply (tidy_operand rhs).bind
      intro rhs
      exact tidy_instruction name .i1 new rfl
  | cast site kind v type name =>
      apply Builds.of_site rfl
      apply tidy_fresh_bind
      intro h new
      apply (tidy_operand v).bind
      intro v
      exact tidy_instruction name type new rfl
  | phi site type incoming name =>
      apply Builds.of_site rfl
      apply tidy_fresh_bind
      intro h new
      apply (Builds.mapM (fun pair => (tidy_operand pair.1).bind fun _ => Builds.pure fun _ => id)
        incoming).bind
      intro incoming
      refine tidy_insert new ⟨rfl, rfl, rfl⟩ fun b own => ?_
      subst own
      exact tidy_appendPhi rfl rfl
  | branch site condition onTrue onFalse => exact Builds.of_site rfl (tidy_terminate _)
  | jump site target => exact Builds.of_site rfl (tidy_terminate _)
  | ret site value =>
      apply Builds.of_site rfl
      cases value with
      | none => exact tidy_terminate _
      | some v => exact ((tidy_operand v).keep_next start).bind fun _ => tidy_terminate _
  | unreachable site => exact Builds.of_site rfl (tidy_terminate _)
  | addIncoming phi v source =>
      apply Builds.of_bare rfl
      refine (tidy_revise ?_ ?_ ?_).bind fun _ => Builds.pure fun _ => id
      all_goals
        intro kind
        split <;> rfl
  | setCast cast v =>
      apply Builds.of_bare rfl
      refine (tidy_revise ?_ ?_ ?_).bind fun _ => Builds.pure fun _ => id
      all_goals
        intro kind
        split <;> rfl
  | setAlias synonym v =>
      apply Builds.of_bare rfl
      refine (tidy_revise ?_ ?_ ?_).bind fun _ => Builds.pure fun _ => id
      all_goals
        intro kind
        split <;> rfl

end Module

/-! ## Sequences of steps -/

/-- Overwrites the operands of a phi, a cast or an alias. -/
def Kind.overwrite (incoming : List (Handle × Handle)) (operand : Handle) : Kind → Kind
  | .instruction site (.phi _) => .instruction site (.phi incoming)
  | .instruction site (.cast kind _) => .instruction site (.cast kind operand)
  | .aliasOf _ => .aliasOf operand
  | kind => kind

/-- A step in the life of a module: an edit, or new operands for a phi, a cast or an alias. -/
inductive Alteration where
  | edit (edit : Edit)
  | overwrite (h : Handle) (incoming : List (Handle × Handle)) (operand : Handle)

namespace Module

def alter : Alteration → StateM Module (Except EditFault Handle)
  | .edit edit => apply edit
  | .overwrite h incoming operand => do
      revise h (Kind.overwrite incoming operand)
      return .ok h

/-- The module after a list of steps, whether they succeed or not. -/
def altered (m : Module) (steps : List Alteration) : Module :=
  steps.foldl (fun m step => ((alter step).run m).2) m

theorem build_eq_altered (m : Module) (edits : List Edit) :
    build m edits = m.altered (edits.map .edit) := by
  rw [build, altered, List.foldl_map]
  rfl

variable {m : Module} {h : Handle}

theorem tidy_alter (step : Alteration) : Builds (Tidy []) (alter step) fun _ => Tidy [] := by
  cases step with
  | edit edit =>
      exact (tidy_apply edit 0).weaken (fun m tidy => ⟨tidy, Nat.zero_le _⟩) fun _ _ known => known.1
  | overwrite h incoming operand =>
      refine (tidy_revise ?_ ?_ ?_).bind fun _ => Builds.pure fun _ => id
      all_goals
        intro kind
        unfold Kind.overwrite
        split <;> rfl

theorem tidy_altered (tidy : m.Tidy []) (steps : List Alteration) :
    m.Extends (m.altered steps) ∧ (m.altered steps).Tidy [] := by
  induction steps generalizing m with
  | nil => exact ⟨.refl m, tidy⟩
  | cons step steps ih =>
      obtain ⟨extends₁, tidy'⟩ := (tidy_alter step).run m tidy
      obtain ⟨extends₂, tidy''⟩ := ih tidy'
      exact ⟨extends₁.trans extends₂, tidy''⟩

theorem tidy_empty (name : String) : Tidy [] { name := name } where
  positive := Nat.one_pos
  given h := by
    refine iff_of_false (fun ⟨positive, below⟩ => Nat.not_lt.2 positive below) ?_
    rintro (named | ⟨⟨⟩⟩)
    cases named
  vacant _ inside := by cases inside
  distinct := List.nodup_nil
  placed l h inside := by cases l <;> cases inside
  once l := by cases l <;> exact List.nodup_nil
  phisLead _ := List.prefix_refl []

theorem tidy_build (edits : List Edit) : (build {} edits).Tidy [] := by
  rw [build_eq_altered]
  exact (tidy_altered (tidy_empty "module") _).2

/-- A handle is listed in one list only. -/
theorem Tidy.eq_of_listed (tidy : m.Tidy []) {l l' : Listing} (inside : h ∈ m.listed l)
    (inside' : h ∈ m.listed l') : l = l' :=
  Option.some.inj ((tidy.placed l h inside).symm.trans (tidy.placed l' h inside'))

theorem blockOf?_of_home? {b : Handle} (home : m.home? h = some (.instructions b)) :
    m.blockOf? h = some b := by
  obtain ⟨⟨name, type, kind⟩, found, belongs⟩ := value?_of_home? home
  rw [blockOf?, kind?, found]
  cases kind <;> simp_all [Value.listing?]

theorem constant_of_home? {n : Int} {type : Ty} (home : m.home? h = some (.constant n type)) :
    m.constantValue? h = some n ∧ m.typeOf h = type := by
  obtain ⟨⟨name, type', kind⟩, found, belongs⟩ := value?_of_home? home
  rw [constantValue?, kind?, typeOf, found]
  cases kind <;> simp_all [Value.listing?]

/-- A constant is made once for each integer and type. -/
theorem constant_eq_iff (tidy : m.Tidy []) (n n' : Int) (type type' : Ty) (more : List Alteration) :
    ((constant n' type').run (((constant n type).run m).2.altered more)).1 =
      ((constant n type).run m).1 ↔ n' = n ∧ type' = type := by
  obtain ⟨-, tidy₁, made⟩ := (tidy_constant n type).run m tidy
  obtain ⟨extends₂, tidy₂⟩ := tidy_altered tidy₁ more
  obtain ⟨extends₃, tidy₃, again⟩ := (tidy_constant n' type').run _ tidy₂
  have kept := extends₃.constants n type _ (extends₂.constants n type _ made)
  constructor
  · intro same
    rw [same] at again
    have own := tidy₃.eq_of_listed again kept
    simpa using own
  · rintro ⟨rfl, rfl⟩
    exact Option.mem_unique (Option.mem_toList.1 again) (Option.mem_toList.1 kept)

/--
After any steps, with failed edits and overwritten operands among them, the handles in use are those
below the next one, and each names the same value ever after.  No handle stands in two lists, or twice
in one.  A constant is made once for each integer and type.  The phis lead their blocks, and what a
block lists stands there once, in no other block, and names the block as its own.  A further edit for
an instruction puts a new handle into its block; without a block it fails, and the new value is in no
list.
-/
theorem altered_in_order (name : String) (steps : List Alteration) :
    let m := altered { name := name } steps
    (∀ h, (m.value? h).isSome = true ↔ 0 < h ∧ h < m.next) ∧
      (∀ more, m.Extends (m.altered more)) ∧
      (∀ l, (m.listed l).Nodup ∧ ∀ l', ∀ h ∈ m.listed l, h ∈ m.listed l' → l' = l) ∧
      (∀ n type, let made := (constant n type).run m
        made.2.constantValue? made.1 = some n ∧ made.2.typeOf made.1 = type ∧
          ∀ n' type' more, ((constant n' type').run (made.2.altered more)).1 = made.1 ↔
            n' = n ∧ type' = type) ∧
      (∀ b, m.phisOf b <+: m.instructionsOf b ∧
        ∀ h ∈ m.instructionsOf b, (m.instructionsOf b).count h = 1 ∧
          (∀ c, h ∈ m.instructionsOf c → c = b) ∧ m.blockOf? h = some b) ∧
      ∀ edit, ∀ site ∈ edit.site?,
        ((apply edit).run m).2.Lands m.next site ((apply edit).run m).1 := by
  intro m
  have tidy : m.Tidy [] := (tidy_altered (tidy_empty name) steps).2
  refine ⟨fun h => ?_, fun more => (tidy_altered tidy more).1, fun l => ⟨tidy.once l, ?_⟩,
    fun n type => ?_, fun b => ⟨tidy.phisLead b, fun h inside => ⟨?_, fun c inside' => ?_, ?_⟩⟩,
    fun edit => ((tidy_apply edit m.next).run m ⟨tidy, Nat.le_refl _⟩).2.2⟩
  · rw [tidy.given h, or_iff_left List.not_mem_nil]
  · exact fun l' h inside inside' => tidy.eq_of_listed inside' inside
  · obtain ⟨-, tidy', made⟩ := (tidy_constant n type).run m tidy
    obtain ⟨value, ofType⟩ := constant_of_home? (tidy'.placed _ _ made)
    exact ⟨value, ofType, fun n' type' => constant_eq_iff tidy n n' type type'⟩
  · exact List.count_eq_one_of_mem (tidy.once (.instructions b)) inside
  · have same : Listing.instructions c = .instructions b := tidy.eq_of_listed inside' inside
    simpa using same
  · exact blockOf?_of_home? (tidy.placed (.instructions b) h inside)

end Module

/-! ## Steps that fail and operands that are overwritten -/

/--
A call and a phi in one block and a cast in another, with a return between them that has no block.
The cast is then turned on itself, and the phi loses its operands.
-/
def joining : List Alteration :=
  [.edit (.external "g" .i32),
    .edit (.function "f" .i32 [(none, .i32)]),
    .edit (.block 2 "entry"), .edit (.block 2 "join"),
    .edit (.call (some 5) 1 [.literal 7] "t" none),
    .edit (.phi (some 5) .i32 [(.literal 1, 4)] "p"),
    .edit (.ret none (some (.literal 1))),
    .edit (.cast (some 4) .bitcast (.value 6) .i32 "c"),
    .overwrite 11 [] 11, .overwrite 8 [] 0]

/-- The call stands behind the later phi, in its own block alone. -/
theorem altered_in_order_joining :
    let m := Module.altered { name := "m" } joining
    6 ∈ m.instructionsOf 5 ∧ m.phisOf 5 = [8] ∧ (m.instructionsOf 5).count 6 = 1 ∧
      6 ∉ m.instructionsOf 4 ∧ m.blockOf? 6 = some 5 ∧
      ∃ fault, ((Module.apply (.jump none 4)).run m).1 = .error fault := by
  intro m
  obtain ⟨-, -, -, -, blocks, lands⟩ := Module.altered_in_order "m" joining
  have inside : 6 ∈ m.instructionsOf 5 := by decide +kernel
  obtain ⟨once, alone, own⟩ := (blocks 5).2 6 inside
  refine ⟨inside, by decide +kernel, once, fun other => ?_, own, ?_⟩
  · exact absurd (alone 4 other) (by decide)
  · have failed := lands (.jump none 4) none rfl
    generalize ((Module.apply (.jump none 4)).run m).1 = answer at failed ⊢
    cases failed with
    | nowhere => exact ⟨.noBlock, rfl⟩

end ErrorContracts
