import ErrorContracts.Proofs.BlockFacts
import ErrorContracts.Proofs.CastChains

/-!
# Which calls report

The instructions of a block are scanned from the last to the first, and the values that calls take
are gathered on the way.  A call of a named function is an action unless its own value has been
gathered by then.  Here this is said without the scan: a call reports exactly if none of the later
calls takes its value, be it under casts.  Whether a call names its function, and whether an
argument stands for a value, are told by chains of casts and aliases.  Such a chain may run in a
circle, but not one that comes to a call or to a function.
-/

namespace ErrorContracts

/-! ## Callees -/

namespace Module

variable {m : Module} {through : CastKind → Bool} {f h callee : Handle}

theorem behind?_of_call {arguments : List Handle} (op : m.op? h = some (.call callee arguments)) :
    m.behind? through h = none := by
  unfold op? at op
  unfold behind?
  split at op
  · rename_i block op' kind
    cases op
    rw [kind]
  · cases op

theorem behind?_of_isCallable (callable : m.isCallable f = true) : m.behind? through f = none := by
  unfold isCallable returnType? at callable
  unfold behind?
  split at callable
  · rename_i kind
    rw [kind]
  · rename_i kind
    rw [kind]
  · cases callable

theorem calledFunction?_eq_some_iff : m.calledFunction? callee = some f ↔
    m.Leads (fun kind => kind = .bitcast) callee f ∧ m.isCallable f = true := by
  unfold calledFunction? stripBitcasts
  dsimp only
  constructor
  · intro called
    split at called
    · rename_i callable
      cases called
      exact ⟨(strip_eq_iff (behind?_of_isCallable callable)).1 rfl, callable⟩
    · cases called
  · rintro ⟨leads, callable⟩
    rw [(strip_eq_iff (behind?_of_isCallable callable)).2 leads, if_pos callable]

/-! ## Calls and their actions -/

/-- The instruction calls the function `f`, which is known without running the program. -/
def Calls (m : Module) (h f : Handle) (arguments : List Handle) : Prop :=
  ∃ callee, m.op? h = some (.call callee arguments) ∧
    m.Leads (fun kind => kind = .bitcast) callee f ∧ m.isCallable f = true

/-- The instruction takes a value as an argument, directly or under casts. -/
def Takes (m : Module) (h v : Handle) : Prop :=
  ∃ f arguments, m.Calls h f arguments ∧ ∃ a ∈ arguments, m.Leads (fun _ => true) a v

/-- What an argument says about an error. -/
inductive StandsFor (m : Module) (a : Handle) : ActionArgument → Prop where
  | literal {n : Int} (constant : m.kind? a = some (.constant n)) : StandsFor m a (.literal n)
  | parameter {function : Handle} {index : Nat}
      (forwarded : m.kind? a = some (.argument function index)) :
      StandsFor m a (.parameter (m.typeOf a).render index)

/-- The action of a call: the name of its function and the arguments that say something. -/
structure ActionOf (m : Module) (f : Handle) (arguments : List Handle) (action : Action) :
    Prop where
  name : action.name = m.nameOf f
  ordered : action.arguments.Pairwise fun x y => x.1 < y.1
  passed : ∀ position x, (position, x) ∈ action.arguments ↔
    ∃ i : Nat, position = i ∧ ∃ a, arguments[i]? = some a ∧ m.StandsFor a x

/-- At this place of the list stands a call whose value no later call takes. -/
def ReportsAt (m : Module) (instructions : List Handle) (i : Nat) : Prop :=
  ∃ h, instructions[i]? = some h ∧ (∃ f arguments, m.Calls h f arguments) ∧
    ∀ j later, i < j → instructions[j]? = some later → ¬m.Takes later h

/-- The instructions of a list that control runs through; `stepsIn` gives those of a block. -/
def stepsAt (m : Module) (instructions : List Handle) : List Step :=
  instructions.filterMap fun h => (m.op? h).map fun op => ⟨h, op⟩

theorem actionArgument?_eq_some_iff {x : ActionArgument} :
    m.actionArgument? a = some x ↔ m.StandsFor a x := by
  unfold actionArgument?
  constructor
  · intro found
    split at found
    · rename_i kind
      cases found
      exact .parameter kind
    · rename_i kind
      cases found
      exact .literal kind
    · cases found
  · rintro (kind | kind) <;> rw [kind]

theorem actionArguments_eq (m : Module) (start : Nat) (arguments : List Handle) :
    m.actionArguments start arguments = (arguments.zipIdx start).filterMap fun entry =>
      (m.actionArgument? entry.1).map fun x => ((entry.2 : Int), x) := by
  induction arguments generalizing start with
  | nil => rfl
  | cons a arguments ih =>
      rw [actionArguments, List.zipIdx_cons, List.filterMap_cons, ih]
      cases m.actionArgument? a <;> rfl

theorem actionOf_call (m : Module) (f : Handle) (arguments : List Handle) :
    m.ActionOf f arguments ⟨m.nameOf f, m.actionArguments 0 arguments⟩ where
  name := rfl
  ordered := by
    have placed : arguments.zipIdx.Pairwise fun x y => x.2 < y.2 := by
      rw [← List.pairwise_map, List.zipIdx_map_snd]
      exact List.pairwise_lt_range'
    rw [actionArguments_eq]
    refine placed.filterMap _ fun x y before p first q second => ?_
    obtain ⟨u, -, rfl⟩ := Option.map_eq_some_iff.1 first
    obtain ⟨v, -, rfl⟩ := Option.map_eq_some_iff.1 second
    exact Int.ofNat_lt.2 before
  passed position x := by
    simp only [actionArguments_eq, List.mem_filterMap, Option.map_eq_some_iff, Prod.exists,
      List.mk_mem_zipIdx_iff_getElem?, actionArgument?_eq_some_iff, Prod.mk.injEq]
    constructor
    · rintro ⟨a, i, listed, y, stands, rfl, rfl⟩
      exact ⟨i, rfl, a, listed, stands⟩
    · rintro ⟨i, rfl, a, listed, stands⟩
      exact ⟨a, i, listed, x, stands, rfl, rfl⟩

/-! ## The scan -/

/-- The actions are those of the reporting calls, in the order of the list. -/
def Lists (m : Module) (instructions : List Handle) (actions : List Action) : Prop :=
  ∃ places : List Nat, places.Pairwise (· < ·) ∧ (∀ i, i ∈ places ↔ m.ReportsAt instructions i) ∧
    List.Forall₂ (fun i action => ∃ h f arguments, instructions[i]? = some h ∧
      m.Calls h f arguments ∧ m.ActionOf f arguments action) places actions

variable {instructions rest arguments : List Handle} {actions : List Action} {action : Action}
  {v : Handle} {i : Nat}

theorem calls_iff : m.Calls h f arguments ↔
    ∃ callee, m.op? h = some (.call callee arguments) ∧ m.calledFunction? callee = some f := by
  simp only [Calls, calledFunction?_eq_some_iff]

theorem reportsAt_zero : m.ReportsAt (h :: rest) 0 ↔
    (∃ f arguments, m.Calls h f arguments) ∧ ∀ later ∈ rest, ¬m.Takes later h := by
  unfold ReportsAt
  constructor
  · rintro ⟨h', first, calls, untaken⟩
    obtain rfl := Option.some.inj first
    refine ⟨calls, fun later member => ?_⟩
    obtain ⟨j, found⟩ := List.mem_iff_getElem?.1 member
    exact untaken (j + 1) later j.succ_pos found
  · rintro ⟨calls, untaken⟩
    refine ⟨h, rfl, calls, fun j later after found => ?_⟩
    cases j with
    | zero => cases after
    | succ j => exact untaken later (List.mem_of_getElem? found)

theorem reportsAt_succ : m.ReportsAt (h :: rest) (i + 1) ↔ m.ReportsAt rest i := by
  unfold ReportsAt
  refine exists_congr fun h' => and_congr Iff.rfl (and_congr Iff.rfl ⟨?_, ?_⟩)
  · intro untaken j later after found
    exact untaken (j + 1) later (Nat.succ_lt_succ after) found
  · intro untaken j later after found
    cases j with
    | zero => cases after
    | succ j => exact untaken j later (Nat.lt_of_succ_lt_succ after) found

/-- In front of the list stands an instruction that does not report. -/
theorem Lists.skip (lists : m.Lists rest actions) (silent : ¬m.ReportsAt (h :: rest) 0) :
    m.Lists (h :: rest) actions := by
  obtain ⟨places, ascending, exactly, listed⟩ := lists
  refine ⟨places.map (· + 1), ?_, fun i => ?_, List.forall₂_map_left_iff.2 listed⟩
  · exact List.pairwise_map.2 (ascending.imp Nat.succ_lt_succ)
  · cases i with
    | zero => simp [silent]
    | succ i => simp [exactly, reportsAt_succ]

/-- In front of the list stands a call that reports. -/
theorem Lists.report (lists : m.Lists rest actions) (reports : m.ReportsAt (h :: rest) 0)
    (calls : m.Calls h f arguments) (is : m.ActionOf f arguments action) :
    m.Lists (h :: rest) (action :: actions) := by
  obtain ⟨places, ascending, exactly, listed⟩ := lists
  refine ⟨0 :: places.map (· + 1), ?_, fun i => ?_,
    .cons ⟨h, f, arguments, rfl, calls, is⟩ (List.forall₂_map_left_iff.2 listed)⟩
  · refine List.pairwise_cons.2 ⟨by simp, ?_⟩
    exact List.pairwise_map.2 (ascending.imp Nat.succ_lt_succ)
  · cases i with
    | zero => simp [reports]
    | succ i => simp [exactly, reportsAt_succ]

/-- The values gathered are the arguments of all calls, and what stands under their casts. -/
theorem mem_taken : v ∈ (m.reportingActions (m.stepsAt instructions)).2 ↔
    ∃ h ∈ instructions, ∃ f arguments, m.Calls h f arguments ∧
      ∃ a ∈ arguments, v = a ∨ v = m.ignoreCasts a := by
  simp only [mem_reportingActions, stepsAt, List.mem_filterMap, Option.map_eq_some_iff, TakenBy,
    calls_iff]
  constructor
  · rintro ⟨step, ⟨h, member, op, found, rfl⟩, callee, arguments, f, rfl, called, taken⟩
    exact ⟨h, member, f, arguments, ⟨callee, found, called⟩, taken⟩
  · rintro ⟨h, member, f, arguments, ⟨callee, found, called⟩, taken⟩
    exact ⟨_, ⟨h, member, _, found, rfl⟩, callee, arguments, f, rfl, called, taken⟩

/-- The value of a call is gathered exactly if one of the calls takes it. -/
theorem mem_taken_of_call (op : m.op? h = some (.call callee arguments)) :
    h ∈ (m.reportingActions (m.stepsAt instructions)).2 ↔
      ∃ later ∈ instructions, m.Takes later h := by
  have under : ∀ a, (h = a ∨ h = m.ignoreCasts a) ↔ m.Leads (fun _ => true) a h := by
    intro a
    rw [← strip_eq_iff (behind?_of_call op)]
    constructor
    · rintro (rfl | same)
      · exact (strip_eq_iff (behind?_of_call op)).2 .refl
      · exact same.symm
    · exact fun same => .inr same.symm
  simp only [mem_taken, under, Takes]

theorem reportingActions_of_call (op : m.op? h = some (.call callee arguments))
    (called : m.calledFunction? callee = some f) :
    (m.reportingActions (m.stepsAt (h :: rest))).1 =
      if h ∈ (m.reportingActions (m.stepsAt rest)).2 then (m.reportingActions (m.stepsAt rest)).1
      else ⟨m.nameOf f, m.actionArguments 0 arguments⟩ ::
        (m.reportingActions (m.stepsAt rest)).1 := by
  have steps : m.stepsAt (h :: rest) = ⟨h, .call callee arguments⟩ :: m.stepsAt rest := by
    simp [stepsAt, op]
  rw [steps, reportingActions]
  simp only [called]

theorem reportingActions_of_not_calls (silent : ¬∃ f arguments, m.Calls h f arguments) :
    (m.reportingActions (m.stepsAt (h :: rest))).1 = (m.reportingActions (m.stepsAt rest)).1 := by
  cases op : m.op? h with
  | none => simp [stepsAt, op]
  | some found =>
      have steps : m.stepsAt (h :: rest) = ⟨h, found⟩ :: m.stepsAt rest := by simp [stepsAt, op]
      rw [steps, reportingActions]
      cases found with
      | call callee arguments =>
          cases called : m.calledFunction? callee with
          | none => simp only [called]
          | some f => exact absurd ⟨f, arguments, calls_iff.2 ⟨callee, op, called⟩⟩ silent
      | _ => rfl

/-- The scan lists the actions of the reporting calls; by induction, the later calls first. -/
theorem lists_reportingActions (m : Module) (instructions : List Handle) :
    m.Lists instructions (m.reportingActions (m.stepsAt instructions)).1 := by
  induction instructions with
  | nil => exact ⟨[], .nil, by simp [ReportsAt], .nil⟩
  | cons h rest ih =>
      by_cases named : ∃ f arguments, m.Calls h f arguments
      · obtain ⟨f, arguments, calls⟩ := named
        obtain ⟨callee, op, called⟩ := calls_iff.1 calls
        rw [reportingActions_of_call op called]
        split
        · rename_i taken
          obtain ⟨later, member, takes⟩ := (mem_taken_of_call op).1 taken
          exact ih.skip fun reports => (reportsAt_zero.1 reports).2 later member takes
        · rename_i free
          refine ih.report (reportsAt_zero.2 ⟨⟨f, arguments, calls⟩, ?_⟩) calls
            (actionOf_call m f arguments)
          exact fun later member takes => free ((mem_taken_of_call op).2 ⟨later, member, takes⟩)
      · rw [reportingActions_of_not_calls named]
        exact ih.skip fun reports => named (reportsAt_zero.1 reports).1

/--
Whatever the instructions are, the actions are those of the calls of named functions whose value no
later such call takes, in program order and with the arguments that say something, at their places.
What is gathered are the arguments of all such calls, and what stands under their casts.
-/
theorem reportingActions_exact (m : Module) (instructions : List Handle) :
    let found := m.reportingActions (m.stepsAt instructions)
    m.Lists instructions found.1 ∧
      ∀ v, v ∈ found.2 ↔ ∃ h ∈ instructions, ∃ f arguments, m.Calls h f arguments ∧
        ∃ a ∈ arguments, v = a ∨ v = m.ignoreCasts a := by
  intro found
  exact ⟨lists_reportingActions m instructions, fun v => mem_taken⟩

end Module

end ErrorContracts
