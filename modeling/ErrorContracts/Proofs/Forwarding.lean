import ErrorContracts.Proofs.Provenance
import ErrorContracts.Proofs.VisitOrder

/-!
# Inference without answers

With an oracle that leaves every question open and no classifier, a run classifies no block and only
forwards.  It then settles, since nothing is ever withdrawn, and what it has found is reachability:
a function has exactly the codes declared for the external functions that its results may come from.
-/

namespace ErrorContracts

variable {σ : Type}

namespace Oracle

/-- From a state on the oracle gives an open answer to every question. -/
def Abstains (oracle : Oracle σ) (s : σ) : Prop :=
  oracle.Replies s fun _ answer => answer = .ok .unknown

namespace Abstains

variable {oracle : Oracle σ} {s : σ} (abstains : oracle.Abstains s)

include abstains

theorem ask (f : Formula) : (oracle.ask f s).1 = .ok .unknown := abstains [] f

theorem next (f : Formula) : oracle.Abstains (oracle.ask f s).2 := Replies.after abstains [f]

theorem answers : oracle.Answers s := fun asked f _ => ⟨.unknown, abstains asked f⟩

theorem steady : oracle.Steady s := by
  intro asked f v given more
  rw [abstains asked f] at given
  cases given
  have later := Replies.after abstains (asked ++ [f])
  rw [after_append] at later
  exact later more f

end Abstains

end Oracle

/-- Results of `f` may come from an external function that the code `c` is declared for. -/
def Inherits (ctx : Context σ) (routines : List Routine) (f : Handle) (c : Int) : Prop :=
  ∃ g, Relation.TransGen (Relays ctx routines) f g ∧ Declares ctx g c

namespace Run

/-- A run that gets no definite answer, has classified nothing, and has only inherited codes. -/
structure Passive (ctx : Context σ) (routines : List Routine) (a : Run σ) : Prop where
  memory : ctx.oracle.Abstains a.memory
  facts : a.summary.facts = ∅
  successes : a.knowledge.successes = ∅
  reporters : a.knowledge.reporters = ∅
  codes : ∀ f, ∀ d ∈ a.summary.descriptorsOf f,
    d.returns.kind = .integer ∧ ∀ c ∈ d.returns.codes, Inherits ctx routines f c

/-- Every descriptor of `a` is a descriptor of `b`. -/
def Keeps (a b : Run σ) : Prop :=
  ∀ f, ∀ d ∈ a.summary.descriptorsOf f, d ∈ b.summary.descriptorsOf f

theorem Keeps.hasCode {a b : Run σ} (keeps : a.Keeps b) {f : Handle} {kind : ReturnKind} {c : Int}
    (has : a.summary.HasCode f kind c) : b.summary.HasCode f kind c := by
  obtain ⟨d, hd, holds⟩ := has
  exact ⟨d, keeps f d hd, holds⟩

theorem Keeps.exports {a b : Run σ} (keeps : a.Keeps b) {ctx : Context σ} {f : Handle} {c : Int}
    (exported : Exports ctx a.summary f c) : Exports ctx b.summary f c :=
  exported.mono keeps.hasCode

theorem keeps_addError (a : Run σ) (f : Handle) (d : Descriptor) : a.Keeps (a.addError f d) := by
  intro g e he
  change e ∈ (a.summary.addDescriptor f d).descriptorsOf g
  rw [Summary.descriptorsOf_addDescriptor]
  split
  · rename_i same
    exact SortedSet.mem_insert.2 (.inr (same ▸ he))
  · exact he

theorem passive_initial {ctx : Context σ} {oracle : σ} (routines : List Routine)
    (abstains : ctx.oracle.Abstains oracle) : (initial oracle).Passive ctx routines where
  memory := abstains
  facts := rfl
  successes := rfl
  reporters := rfl
  codes f d hd := by cases hd

section

variable {ctx : Context σ} {routines : List Routine} {a b : Run σ}

theorem Passive.inherits (passive : a.Passive ctx routines) {f : Handle} {c : Int}
    {kind : ReturnKind} (has : a.summary.HasCode f kind c) : Inherits ctx routines f c := by
  obtain ⟨d, hd, -, returned⟩ := has
  exact (passive.codes f d hd).2 c returned

theorem Passive.inherits_of_exports (passive : a.Passive ctx routines) {f g : Handle} {c : Int}
    (relays : Relays ctx routines f g) (exported : Exports ctx a.summary g c) :
    Inherits ctx routines f c := by
  rcases exports_iff.1 exported with ⟨-, has⟩ | declared
  · obtain ⟨last, chain, declared⟩ := passive.inherits has
    exact ⟨last, .head relays chain, declared⟩
  · exact ⟨g, .single relays, declared⟩

variable (unclassified : ctx.options.classifier = .none)

include unclassified

/-- A move of a passive run leaves the findings as they are or forwards inherited codes. -/
theorem Move.cases_of_passive (move : Move ctx routines a b) (passive : a.Passive ctx routines) :
    b.summary = a.summary ∧ b.knowledge = a.knowledge ∧
        ctx.oracle.Abstains b.memory ∨
      ∃ f d, b = a.addError f d ∧ d.returns.kind = .integer ∧
        ∀ c ∈ d.returns.codes, Inherits ctx routines f c := by
  cases move with
  | ask undecided question => exact .inl ⟨rfl, rfl, passive.memory.next _⟩
  | keep routine block fresh => exact .inl ⟨rfl, rfl, passive.memory⟩
  | warn d => exact .inl ⟨rfl, rfl, passive.memory⟩
  | succeed routine block behind constant checked kept refuted =>
      cases (passive.memory.ask _).symm.trans refuted
  | withdraw routine block evidence described fits =>
      cases (passive.memory.ask _).symm.trans evidence.possible
  | report routine block evidence described unfit =>
      cases (passive.memory.ask _).symm.trans evidence.possible
  | learn classified =>
      rw [foundReporters?, unclassified] at classified
      cases classified
  | generalize routine block _ constant noSuccess reporting calls =>
      -- nothing is called by one of no names
      obtain ⟨call, listed⟩ := List.exists_mem_of_ne_nil _ calls
      rw [callsTo_eq, List.mem_filter, decide_eq_true_eq] at listed
      have known := reporting _ listed.2
      rw [passive.reporters] at known
      cases known
  | forward routine block _ returned calls candidate known integer kind kept codes =>
      right
      refine ⟨_, _, rfl, kind, fun c hc => ?_⟩
      have relays : Relays ctx routines _ _ :=
        ⟨_, routine, rfl, _, block, _, _, _, returned, calls, candidate⟩
      have own : Exports ctx a.summary _ c :=
        ⟨_, known, of_decide_eq_true integer, (codes c hc).1⟩
      exact passive.inherits_of_exports relays own

theorem Move.passive (move : Move ctx routines a b) (passive : a.Passive ctx routines) :
    b.Passive ctx routines ∧ a.Keeps b := by
  rcases move.cases_of_passive unclassified passive with
    ⟨summary, knowledge, memory⟩ | ⟨f, d, rfl, integer, inherited⟩
  · constructor
    · constructor
      · exact memory
      · rw [summary]
        exact passive.facts
      · rw [knowledge]
        exact passive.successes
      · rw [knowledge]
        exact passive.reporters
      · rw [summary]
        exact passive.codes
    · intro f d hd
      rwa [summary]
  · refine ⟨⟨passive.memory, passive.facts, ?_, ?_, ?_⟩, keeps_addError a f d⟩
    · unfold addError
      split <;> exact passive.successes
    · unfold addError
      split <;> exact passive.reporters
    · intro g e he
      change e ∈ (a.summary.addDescriptor f d).descriptorsOf g at he
      rw [Summary.descriptorsOf_addDescriptor] at he
      split at he
      · rename_i same
        rcases SortedSet.mem_insert.1 he with rfl | old
        · exact ⟨integer, same ▸ inherited⟩
        · exact passive.codes g e (same ▸ old)
      · exact passive.codes g e he

theorem Moves.passive (moves : Moves ctx routines a b) (passive : a.Passive ctx routines) :
    b.Passive ctx routines ∧ a.Keeps b := by
  induction moves with
  | refl => exact ⟨passive, fun _ _ hd => hd⟩
  | tail _ move ih =>
      obtain ⟨passive', keeps⟩ := ih
      obtain ⟨passive'', keeps'⟩ := move.passive unclassified passive'
      exact ⟨passive'', fun f d hd => keeps' f d (keeps f d hd)⟩

end

end Run

/-! ## What a round forwards -/

namespace Inference

open Run (Moves)

variable {ctx : Context σ} {routines : List Routine} {a b c : Run σ}

/-- A loop that has come to its end has made the turn of every element. -/
theorem exists_turn {α : Type} {f : α → Inference σ Unit} {l : List α} (inv : Run σ → Prop)
    (turn : ∀ v ∈ l, ∀ a, inv a → Leads ctx routines (f v) a fun _ b => inv b) (ha : inv a)
    (done : (l.forM f).run a = (.ok (), c)) {v : α} (hv : v ∈ l) :
    ∃ before after, (f v).run before = (.ok (), after) ∧ Moves ctx routines a before ∧
      Moves ctx routines before after ∧ Moves ctx routines after c := by
  induction l generalizing a with
  | nil => cases hv
  | cons w l ih =>
      obtain ⟨head, tail⟩ := List.forall_mem_cons.1 turn
      obtain ⟨_, next, first, rest⟩ := run_bind_ok done
      obtain ⟨moves, hn⟩ := (head a ha).of_run first
      rcases List.mem_cons.1 hv with rfl | later
      · exact ⟨a, next, first, .refl, moves, ((Leads.forM inv tail hn).of_run rest).1⟩
      · obtain ⟨before, after, turned, reached, left⟩ := ih tail hn rest later
        exact ⟨before, after, turned, moves.trans reached, left⟩

/-- A question to a passive run stays open and changes its memory only. -/
theorem run_satisfiable?_of_passive (passive : a.Passive ctx routines) (f : Formula) :
    ∃ b, (satisfiable? ctx f).run a = (.ok none, b) ∧ b.Passive ctx routines ∧
      b.summary = a.summary := by
  have given := passive.memory.ask f
  have next := passive.memory.next f
  rw [run_satisfiable?]
  cases asked : ctx.oracle.ask f a.memory with
  | mk answer memory =>
      rw [asked] at given next
      cases given
      refine ⟨_, rfl, ?_, rfl⟩
      exact ⟨next, passive.facts, passive.successes, passive.reporters, passive.codes⟩

/-- A passive run rules no code out. -/
theorem run_consistentCodes_of_passive (passive : a.Passive ctx routines) (condition : Formula)
    (codes : SortedSet Int) :
    ∃ b, (consistentCodes ctx condition codes).run a = (.ok codes, b) ∧
      b.summary = a.summary := by
  have collected : ∀ (l kept : List Int) (a : Run σ), a.Passive ctx routines →
      ∃ b, (l.filterAuxM (fun c => do
          let question := Formula.conjoin [.relation .eq .result (.int c), condition]
          return decide ((← satisfiable? ctx question) ≠ some false)) kept).run a =
        (.ok (l.reverse ++ kept), b) ∧ b.summary = a.summary := by
    intro l
    induction l with
    | nil => exact fun kept a _ => ⟨a, rfl, rfl⟩
    | cons c l ih =>
        intro kept a passive
        obtain ⟨b, asked, passive', same⟩ := run_satisfiable?_of_passive passive
          (Formula.conjoin [.relation .eq .result (.int c), condition])
        obtain ⟨e, ended, same'⟩ := ih (c :: kept) b passive'
        refine ⟨e, ?_, same'.trans same⟩
        rw [List.reverse_cons, List.append_assoc]
        have tested := run_bind_of_ok asked fun answer =>
          (pure (decide (answer ≠ some false)) : Inference σ Bool)
        exact (run_bind_of_ok tested _).trans ended
  obtain ⟨b, ran, same⟩ := collected codes.toList [] a passive
  refine ⟨b, ?_, same⟩
  have filtered := run_bind_of_ok ran fun kept => (pure kept.reverse : Inference σ (List Int))
  refine (run_bind_of_ok filtered _).trans ?_
  have whole : SortedSet.ofList codes.toList = codes :=
    SortedSet.ext fun c => SortedSet.mem_ofList
  simp only [List.append_nil, List.reverse_reverse, whole]
  rfl

/-- A passive run passes on all codes of the callee. -/
theorem hasCode_of_forwardFrom (passive : a.Passive ctx routines) {r : Routine} {call f : Handle}
    {condition? : Option Formula} {code : Int}
    (done : (forwardFrom ctx r call condition? f).run a = (.ok (), b))
    (exported : Exports ctx a.summary f code) : b.summary.HasCode r.handle .integer code := by
  obtain ⟨contract, known, integer, returned⟩ := exported
  have some_codes : contract.returns.codes.isEmpty = false := by
    rw [Bool.eq_false_iff]
    exact fun none => SortedSet.isEmpty_iff.1 none code returned
  have whole : Returns.ofSet? .integer contract.returns.codes =
      some ⟨.integer, contract.returns.codes, some_codes⟩ := dif_pos some_codes
  have added : ∀ (a₁ : Run σ) (d : Descriptor), d.returns.kind = .integer →
      d.returns.codes = contract.returns.codes →
      (a₁.addError r.handle d).summary.HasCode r.handle .integer code := by
    intro a₁ d kind codes
    refine ⟨d, ?_, kind, codes ▸ returned⟩
    change d ∈ (a₁.summary.addDescriptor r.handle d).descriptorsOf r.handle
    rw [Summary.descriptorsOf_addDescriptor, if_pos rfl]
    exact SortedSet.mem_insert.2 (.inl rfl)
  have isInteger : contract.returns.isInteger = true := decide_eq_true integer
  unfold forwardFrom at done
  simp only [clausesOf_eq_ok, ofContract_ok, pure_bind, ofSet_bind] at done
  rw [run_get_bind, known] at done
  dsimp only at done
  rw [if_pos isInteger] at done
  cases condition? with
  | none =>
      rw [whole, Option.elim_some, run_addError] at done
      cases done
      exact added a _ rfl rfl
  | some condition =>
      obtain ⟨a₁, ran, -⟩ :=
        run_consistentCodes_of_passive passive condition contract.returns.codes
      rw [run_bind_of_ok ran, whole, Option.elim_some, run_addError] at done
      cases done
      exact added a₁ _ rfl rfl

section

variable (unclassified : ctx.options.classifier = .none)

include unclassified

theorem hasCode_of_forwardError (passive : a.Passive ctx routines) {r : Routine} {block : Block}
    (routine : r ∈ routines) (inside : block ∈ r.blocks) {call callee f : Handle}
    {arguments : List Handle} {code : Int}
    (returned : (r.blockReturn? block).map ctx.program.ignoreCasts = some call)
    (calls : ctx.program.op? call = some (.call callee arguments))
    (candidate : f ∈ callTargets ctx.program ctx.indirect callee)
    (done : (forwardError ctx r block).run a = (.ok (), b))
    (exported : Exports ctx a.summary f code) : b.summary.HasCode r.handle .integer code := by
  have unmarked : ∀ c : Run σ, c.summary.facts = ∅ → c.summary.factOf? block.handle = none := by
    intro c none
    rw [Summary.factOf?, none]
    rfl
  rw [forwardError, run_get_bind, unmarked a passive.facts] at done
  simp only [Option.isSome_none, Bool.false_eq_true, if_false, returned, calls] at done
  obtain ⟨condition?, a₁, computed, looped⟩ := run_bind_ok done
  obtain ⟨moves, quiet, kept⟩ := (leads_condition? routine inside call a).of_run computed
  have factless : a₁.summary.facts = ∅ := by
    rw [quiet.summary]
    exact passive.facts
  obtain ⟨before, after, turned, reached, turn, left⟩ :=
    exists_turn (fun c => c.summary.facts = ∅ ∧
        c.conditions.get? ⟨r.handle, block.handle, call⟩ = some condition?)
      (fun g candidate c inv =>
        .weaken (leads_forwardFrom routine inside returned calls candidate (unmarked c inv.1) inv.2)
          fun _ d inv' => ⟨inv'.1.trans inv.1, inv'.2⟩)
      ⟨factless, kept⟩ looped candidate
  have upTo : Moves ctx routines a before := moves.trans reached
  obtain ⟨passive₁, keeps⟩ := upTo.passive unclassified passive
  have has := hasCode_of_forwardFrom passive₁ turned (keeps.exports exported)
  obtain ⟨passive₂, -⟩ := turn.passive unclassified passive₁
  exact (left.passive unclassified passive₂).2.hasCode has

/-- At its end a round has forwarded all that the callees exported at its beginning. -/
theorem hasCode_of_round (passive : a.Passive ctx routines) {f g : Handle} {code : Int}
    (done : (round ctx routines).run a = (.ok (), b)) (relays : Relays ctx routines f g)
    (exported : Exports ctx a.summary g code) : b.summary.HasCode f .integer code := by
  obtain ⟨r, routine, rfl, block, inside, call, callee, arguments, returned, calls, candidate⟩ :=
    relays
  have turn : ∀ r ∈ routines, ∀ block ∈ r.blocks, ∀ a : Run σ,
      Leads ctx routines (forwardError ctx r block) a fun _ _ => True :=
    fun r routine block inside a =>
      .weaken (leads_forwardError routine inside a) fun _ _ _ => trivial
  rw [round_eq] at done
  obtain ⟨_, a₁, extracted, concluded⟩ := run_bind_ok done
  obtain ⟨names, a₂, found, generalized⟩ := run_bind_ok concluded
  rw [run_get_bind] at generalized
  obtain ⟨_, a₃, looked, forwarded⟩ := run_bind_ok generalized
  have moves₁ := ((leads_extract a).of_run extracted).1
  obtain ⟨moves₂, known, -⟩ := (leads_reporters a₁).of_run found
  have moves₃ := ((leads_byBlock (Informed names a₂.knowledge.successCodes a₂.summary.facts)
    (fun r routine b block a informed => leads_generalize routine block informed)
    ⟨known, rfl, rfl⟩).of_run looked).1
  obtain ⟨before, after, looped, reached, through, left⟩ :=
    exists_turn (fun _ => True)
      (fun r routine a _ => .forM (fun _ => True)
        (fun block inside a _ => turn r routine block inside a) trivial) trivial forwarded routine
  obtain ⟨before', after', turned, reached', through', left'⟩ :=
    exists_turn (fun _ => True) (fun block inside a _ => turn r routine block inside a) trivial
      looped inside
  have upTo : Moves ctx routines a before' :=
    (((moves₁.trans moves₂).trans moves₃).trans reached).trans reached'
  have rest : Moves ctx routines after' b := left'.trans left
  obtain ⟨passive₁, keeps⟩ := upTo.passive unclassified passive
  have has := hasCode_of_forwardError unclassified passive₁ routine inside returned calls
    candidate turned (keeps.exports exported)
  obtain ⟨passive₂, -⟩ := through'.passive unclassified passive₁
  exact (rest.passive unclassified passive₂).2.hasCode has

end

end Inference

/-! ## What inference ends with -/

theorem Routine.isFunction_of_read {m : Module} {f : Handle} {r : Routine}
    (read : ofFunction m f = .ok r) : m.isFunction f = true := by
  have nonempty : m.blocksOf f ≠ [] := by
    rw [← r.handles_eq read]
    simpa using r.nonempty
  unfold Module.blocksOf at nonempty
  unfold Module.isFunction
  split
  · rfl
  · rename_i other
    split at nonempty
    · exact absurd ‹_› (other _ _ _)
    · exact absurd rfl nonempty

section Ends

variable {ctx : Context σ} {functions : List Handle} {routines : List Routine}

theorem mem_visitOrder_iff (read : routinesOf ctx.program functions = .ok routines) {r : Routine} :
    r ∈ visitOrder ctx routines ↔ r ∈ routines := by
  by_cases first : ctx.options.calleesFirst = true
  · exact mem_visitOrder first read
  · rw [visitOrder, if_neg first]

/-- Which functions pass results on does not depend on the order of a visit. -/
theorem relays_visitOrder (read : routinesOf ctx.program functions = .ok routines) :
    Relays ctx (visitOrder ctx routines) = Relays ctx routines := by
  funext f g
  simp only [Relays, mem_visitOrder_iff read]

/-- Codes that are forwarded step by step are forwarded along chains. -/
theorem hasCode_of_inherits {s : Summary} (defined : ∀ r ∈ routines,
      ctx.program.isFunction r.handle = true)
    (closed : ∀ f g c, Relays ctx routines f g → Exports ctx s g c → s.HasCode f .integer c)
    {f : Handle} {c : Int} (inherits : Inherits ctx routines f c) : s.HasCode f .integer c := by
  obtain ⟨g, chain, declared⟩ := inherits
  induction chain using Relation.TransGen.head_induction_on with
  | single relays => exact closed _ g c relays (exports_iff.2 (.inr declared))
  | head relays chain ih =>
      -- a function in the middle of a chain is analysed, so it exports what it has
      obtain ⟨_, ⟨r, routine, rfl, -⟩, -⟩ := Relation.TransGen.head'_iff.1 chain
      exact closed _ _ c relays (exports_iff.2 (.inl ⟨defined r routine, ih⟩))

section

variable (routines) {oracle : σ} (abstains : ctx.oracle.Abstains oracle)
  (unclassified : ctx.options.classifier = .none)

include abstains unclassified

theorem Run.passive_after (n : Nat) :
    ((initial oracle).after ctx routines n).Passive ctx routines := by
  obtain ⟨passive, -⟩ :=
    (moves_rounds ctx routines _ n).passive unclassified (passive_initial routines abstains)
  exact passive

/-- Nothing is lost on the way, so some round is the first that changes nothing. -/
theorem Run.exists_first_alike :
    ∃ n, ((initial oracle).after ctx routines n).Alike Eq
        ((initial oracle).after ctx routines (n + 1)) ∧
      ∀ k < n, ¬((initial oracle).after ctx routines k).Alike Eq
        ((initial oracle).after ctx routines (k + 1)) := by
  classical
  have served := served_initial abstains.answers
  have keeps : ∀ n ≥ 0, ¬((initial oracle).after ctx routines n).Loses
      ((initial oracle).after ctx routines (n + 1)) := by
    rintro n - ⟨f, d, hd, lost⟩
    have moves := moves_after routines served n
    have passive := passive_after routines abstains unclassified n
    exact lost ((moves.passive unclassified passive).2 f d hd)
  have settles := exists_alike_of_keeps served abstains.steady (worded_initial oracle) keeps
  exact ⟨Nat.find settles, Nat.find_spec settles, fun k => Nat.find_min settles⟩

/-- After a round that changes nothing, functions have the codes that they inherit. -/
theorem Run.hasCode_of_settled {n : Nat}
    (defined : ∀ r ∈ routines, ctx.program.isFunction r.handle = true)
    (settled : ((initial oracle).after ctx routines n).Alike Eq
      ((initial oracle).after ctx routines (n + 1)))
    {f : Handle} {c : Int} (inherits : Inherits ctx routines f c) :
    ((initial oracle).after ctx routines (n + 1)).summary.HasCode f .integer c := by
  apply hasCode_of_inherits defined ?_ inherits
  intro f g c relays exported
  have before : Exports ctx ((initial oracle).after ctx routines n).summary g c := by
    refine exported.mono fun has => ?_
    obtain ⟨d, hd, holds⟩ := has
    exact ⟨d, (settled.descriptors g) ▸ hd, holds⟩
  exact Inference.hasCode_of_round unclassified (passive_after routines abstains unclassified n)
    (round_ok routines (served_initial abstains.answers) n) relays before

end

/--
Without answers and without a classifier, inference over functions that can be read returns, in
whatever order they are visited and whether or not they are recursive.  No block is classified, no
success code is found, and the codes of a function are exactly those that it inherits.
-/
theorem infer_inherits {oracle : σ} (abstains : ctx.oracle.Abstains oracle)
    (unclassified : ctx.options.classifier = .none)
    (read : routinesOf ctx.program functions = .ok routines) :
    ∃ total final, (∀ limit ≥ total, infer ctx functions limit oracle = .ok final) ∧
      final.summary.facts = ∅ ∧ (∀ f, final.knowledge.successCodesOf f = ∅) ∧
      ∀ f c, (∃ d ∈ final.summary.descriptorsOf f, c ∈ d.returns.codes) ↔
        Inherits ctx routines f c := by
  let order := visitOrder ctx routines
  obtain ⟨n, settled, moved⟩ := Run.exists_first_alike order abstains unclassified
  have passive := Run.passive_after order abstains unclassified (n + 1)
  refine ⟨n + 1, _, fun limit enough => infer_eq_after abstains.answers read settled moved enough,
    passive.facts, fun f => ?_, fun f c => ?_⟩
  · rw [Knowledge.successCodesOf, passive.successes]
    rfl
  · rw [Inherits, ← relays_visitOrder read]
    constructor
    · rintro ⟨d, hd, returned⟩
      exact (passive.codes f d hd).2 c returned
    · intro inherits
      have defined : ∀ r ∈ order, ctx.program.isFunction r.handle = true :=
        fun r visited => Routine.isFunction_of_read (read_of_mem_visitOrder read r visited)
      obtain ⟨d, hd, -, returned⟩ :=
        Run.hasCode_of_settled order abstains unclassified defined settled inherits
      exact ⟨d, hd, returned⟩

/-- The program of three functions that forward one another, with no answers. -/
def openRelays : Context Nat where
  program := relays.program
  dependencies := relays.dependencies
  options := { classifier := .none }
  oracle := ⟨fun _ s => (.ok .unknown, s)⟩

theorem openRelays_read : routinesOf openRelays.program [4, 5, 6] = .ok relayRoutines := by
  dsimp only [openRelays]
  exact relays_read

theorem infer_inherits_openRelays :
    ∃ total final, (∀ limit ≥ total, infer openRelays [4, 5, 6] limit 0 = .ok final) ∧
      final.summary.facts = ∅ ∧ (∀ f, final.knowledge.successCodesOf f = ∅) ∧
      ∀ f c, (∃ d ∈ final.summary.descriptorsOf f, c ∈ d.returns.codes) ↔
        Inherits openRelays relayRoutines f c :=
  infer_inherits (fun _ _ => rfl) rfl openRelays_read

end Ends

end ErrorContracts
