import ErrorContracts.Oracle.Recall
import Mathlib.Data.Finset.Card
import Mathlib.Data.List.DropRight

/-!
# What a remembering oracle answers

An oracle that remembers its answers is asked in any order for verdicts and for definite answers,
and told to forget.  The inner oracle may be of any kind: it may change its mind and may fail.  To
see when it is asked, it is made to write down every question with its answer, which changes nothing
else.

Between two moments of forgetting, the answers on a formula are the first verdict that the inner
oracle gave on it.  It is asked again only while it has given none.
-/

namespace ErrorContracts

/-! ## Requests and what is written down -/

inductive Request where
  | check (f : Formula)
  | isSatisfiable (f : Formula)
  | clear

inductive Reply where
  | verdict (answer : Except OracleFault Verdict)
  | definite (answer : Except OracleFault (Option Bool))
  | cleared

namespace Request

/-- The formula that a request asks about; to forget asks about none. -/
def formula? : Request → Option Formula
  | check f => some f
  | isSatisfiable f => some f
  | clear => none

/-- The form in which a request is given an answer. -/
def reply : Request → Except OracleFault Verdict → Reply
  | check _, answer => .verdict answer
  | isSatisfiable _, answer => .definite (answer.map Verdict.definite?)
  | clear, _ => .cleared

end Request

def Reply.succeeded : Reply → Bool
  | verdict answer => answer.isOk
  | definite answer => answer.isOk
  | cleared => false

/-- A question to an oracle, with its answer. -/
structure Consultation where
  formula : Formula
  answer : Except OracleFault Verdict

/-- The oracle that also writes down every question with its answer. -/
def Oracle.recording {σ : Type} (oracle : Oracle σ) : Oracle (σ × List Consultation) where
  ask f state :=
    let (answer, inner) := oracle.ask f state.1
    (answer, inner, state.2 ++ [⟨f, answer⟩])

/-- A request, its reply, and what the inner oracle wrote down meanwhile. -/
structure Exchange where
  request : Request
  reply : Reply
  asked : List Consultation

namespace Exchange

/-- The exchange gives an answer on the formula. -/
def Answers (x : Exchange) (f : Formula) : Prop :=
  x.request.formula? = some f ∧ x.reply.succeeded = true

/-- What stands behind the last request to forget. -/
def sinceClear (history : List Exchange) : List Exchange :=
  history.rtakeWhile fun x => x.request.formula?.isSome

/-- The first verdict that the inner oracle gave on a formula. -/
def firstVerdict? (exchanges : List Exchange) (f : Formula) : Option Verdict :=
  (exchanges.flatMap asked).findSome? fun c => if c.formula = f then c.answer.toOption else none

/-- The formulas on which answers were given. -/
def answered (exchanges : List Exchange) : List Formula :=
  (exchanges.filter fun x => x.reply.succeeded).filterMap fun x => x.request.formula?

/--
The inner oracle is asked for the exchange exactly if it asks about a formula on which no answer was
given `since`.  Then its answer is passed on, be it a failure.  No other question fails.
-/
structure Passes (since : List Exchange) (x : Exchange) : Prop where
  idle : x.request.formula? = none → x.asked = []
  remembered : ∀ f, x.request.formula? = some f → (∃ y ∈ since, y.Answers f) →
    x.asked = [] ∧ x.reply.succeeded = true
  consulted : ∀ f, x.request.formula? = some f → (¬∃ y ∈ since, y.Answers f) →
    ∃ answer, x.asked = [⟨f, answer⟩] ∧ x.reply = x.request.reply answer

end Exchange

namespace Recall

variable {σ : Type}

def serve (oracle : Oracle σ) (request : Request) (memory : Recall σ) : Reply × Recall σ :=
  match request.formula? with
  | some f =>
      let (answer, next) := check oracle f memory
      (request.reply answer, next)
  | none => (.cleared, memory.clear)

/-- The replies to some requests, one after the other. -/
def replies (oracle : Oracle σ) : List Request → Recall σ → List Reply
  | [], _ => []
  | request :: rest, memory =>
      let (reply, next) := memory.serve oracle request
      reply :: replies oracle rest next

/-- What is remembered after some requests. -/
def after (oracle : Oracle σ) (requests : List Request) (memory : Recall σ) : Recall σ :=
  requests.foldl (fun memory request => (memory.serve oracle request).2) memory

/-- One exchange, with what the inner oracle writes down for it. -/
def exchange (oracle : Oracle σ) (request : Request) (memory : Recall (σ × List Consultation)) :
    Exchange :=
  let (reply, next) := memory.serve oracle.recording request
  ⟨request, reply, next.inner.2.drop memory.inner.2.length⟩

/-- The exchanges of some requests, one after the other. -/
def transcript (oracle : Oracle σ) :
    List Request → Recall (σ × List Consultation) → List Exchange
  | [], _ => []
  | request :: rest, memory =>
      memory.exchange oracle request ::
        transcript oracle rest (memory.serve oracle.recording request).2

/-! ## Writing down changes nothing -/

/-- What is remembered, without what was written down. -/
def unrecorded (memory : Recall (σ × List Consultation)) : Recall σ where
  inner := memory.inner.1
  answers := memory.answers
  queries := memory.queries
  hits := memory.hits

theorem check_of_unanswered {oracle : Oracle σ} {f : Formula} {memory : Recall σ}
    (unknown : memory.answer? f = none) :
    check oracle f memory =
      ((oracle.ask f memory.inner).1,
        { memory with
          inner := (oracle.ask f memory.inner).2
          answers :=
            ((oracle.ask f memory.inner).1.toOption.map fun v => (f, v)).toList ++ memory.answers
          queries := memory.queries + 1 }) := by
  unfold check
  rw [unknown]
  obtain ⟨answer, inner⟩ := oracle.ask f memory.inner
  cases answer <;> rfl

variable (oracle : Oracle σ) (memory : Recall (σ × List Consultation))

theorem check_recording (f : Formula) :
    (check oracle.recording f memory).1 = (check oracle f memory.unrecorded).1 ∧
      (check oracle.recording f memory).2.unrecorded = (check oracle f memory.unrecorded).2 := by
  have same : memory.unrecorded.answer? f = memory.answer? f := rfl
  cases known : memory.answer? f with
  | some v =>
      rw [check_of_answer known, check_of_answer (same.trans known)]
      exact ⟨rfl, rfl⟩
  | none =>
      rw [check_of_unanswered known, check_of_unanswered (same.trans known)]
      exact ⟨rfl, rfl⟩

theorem serve_recording (request : Request) :
    (serve oracle.recording request memory).1 = (serve oracle request memory.unrecorded).1 ∧
      (serve oracle.recording request memory).2.unrecorded =
        (serve oracle request memory.unrecorded).2 := by
  unfold serve
  cases request.formula? with
  | none => exact ⟨rfl, rfl⟩
  | some f => exact (check_recording oracle memory f).imp_left (congrArg request.reply)

theorem replies_transcript (requests : List Request) :
    (transcript oracle requests memory).map Exchange.reply =
      replies oracle requests memory.unrecorded := by
  induction requests generalizing memory with
  | nil => rfl
  | cons request rest ih =>
      obtain ⟨reply, next⟩ := serve_recording oracle memory request
      rw [transcript, replies, List.map_cons, ih, next]
      exact congrArg (· :: _) reply

theorem requests_transcript (requests : List Request) :
    (transcript oracle requests memory).map Exchange.request = requests := by
  induction requests generalizing memory with
  | nil => rfl
  | cons request rest ih =>
      rw [transcript, List.map_cons, ih]
      rfl

theorem unrecorded_after (requests : List Request) :
    (after oracle.recording requests memory).unrecorded =
      after oracle requests memory.unrecorded := by
  induction requests generalizing memory with
  | nil => rfl
  | cons request rest ih =>
      exact (ih _).trans (congrArg (after oracle rest) (serve_recording oracle memory request).2)

end Recall

/-! ## Between two moments of forgetting -/

namespace Exchange

variable {exchanges history : List Exchange} {x : Exchange} {f g : Formula} {v : Verdict}
  {answer : Except OracleFault Verdict}

theorem sinceClear_concat_of_some (asks : x.request.formula? = some f) :
    sinceClear (history ++ [x]) = sinceClear history ++ [x] := by
  simp [sinceClear, asks]

theorem sinceClear_concat_of_none (clears : x.request.formula? = none) :
    sinceClear (history ++ [x]) = [] := by
  simp [sinceClear, clears]

theorem firstVerdict?_concat_of_nil (silent : x.asked = []) :
    firstVerdict? (exchanges ++ [x]) g = firstVerdict? exchanges g := by
  simp [firstVerdict?, silent]

theorem firstVerdict?_concat (asked : x.asked = [⟨f, answer⟩]) :
    firstVerdict? (exchanges ++ [x]) g =
      (firstVerdict? exchanges g).or (if f = g then answer.toOption else none) := by
  simp [firstVerdict?, asked, List.findSome?_append]

theorem succeeded_reply {request : Request} (asks : request.formula? = some f) :
    (request.reply answer).succeeded = answer.isOk := by
  cases request with
  | check => rfl
  | isSatisfiable => cases answer <;> rfl
  | clear => cases asks

theorem mem_answered : f ∈ answered exchanges ↔ ∃ x ∈ exchanges, x.Answers f := by
  simp only [answered, List.mem_filterMap, List.mem_filter, Answers]
  constructor
  · rintro ⟨x, ⟨member, succeeded⟩, asks⟩
    exact ⟨x, member, asks, succeeded⟩
  · rintro ⟨x, member, asks, succeeded⟩
    exact ⟨x, ⟨member, succeeded⟩, asks⟩

/-- All answers on a formula are the first verdict on it, and only such formulas have answers. -/
structure Steady (exchanges : List Exchange) : Prop where
  first : ∀ x ∈ exchanges, ∀ f, x.Answers f →
    ∃ v, firstVerdict? exchanges f = some v ∧ x.reply = x.request.reply (.ok v)
  given : ∀ f v, firstVerdict? exchanges f = some v → ∃ x ∈ exchanges, x.Answers f

theorem steady_nil : Steady [] :=
  ⟨by simp, by simp [firstVerdict?]⟩

theorem Steady.isSome_iff (steady : Steady exchanges) :
    (firstVerdict? exchanges f).isSome = true ↔ ∃ x ∈ exchanges, x.Answers f := by
  constructor
  · intro some
    obtain ⟨v, first⟩ := Option.isSome_iff_exists.1 some
    exact steady.given f v first
  · rintro ⟨x, member, answers⟩
    obtain ⟨v, first, -⟩ := steady.first x member f answers
    simp [first]

/-- A formula with a verdict is answered by it. -/
theorem Steady.remember (steady : Steady exchanges) (first : firstVerdict? exchanges f = some v)
    (asks : x.request.formula? = some f) (silent : x.asked = [])
    (replies : x.reply = x.request.reply (.ok v)) : Steady (exchanges ++ [x]) where
  first y member g answers := by
    rw [firstVerdict?_concat_of_nil silent]
    rcases List.mem_append.1 member with old | new
    · exact steady.first y old g answers
    · obtain rfl := List.mem_singleton.1 new
      obtain rfl : f = g := Option.some.inj (asks.symm.trans answers.1)
      exact ⟨v, first, replies⟩
  given g w verdict := by
    rw [firstVerdict?_concat_of_nil silent] at verdict
    obtain ⟨y, member, answers⟩ := steady.given g w verdict
    exact ⟨y, List.mem_append_left _ member, answers⟩

/-- A formula without a verdict is put to the inner oracle. -/
theorem Steady.consult (steady : Steady exchanges) (undecided : firstVerdict? exchanges f = none)
    (asks : x.request.formula? = some f) (asked : x.asked = [⟨f, answer⟩])
    (replies : x.reply = x.request.reply answer) : Steady (exchanges ++ [x]) where
  first y member g answers := by
    rw [firstVerdict?_concat asked]
    rcases List.mem_append.1 member with old | new
    · obtain ⟨v, first, reply⟩ := steady.first y old g answers
      exact ⟨v, by simp [first], reply⟩
    · obtain rfl := List.mem_singleton.1 new
      obtain ⟨asks', succeeded⟩ := answers
      obtain rfl : f = g := Option.some.inj (asks.symm.trans asks')
      rw [replies, succeeded_reply asks] at succeeded
      cases answer with
      | error fault => cases succeeded
      | ok v => exact ⟨v, by simp [undecided, Except.toOption], replies⟩
  given g w verdict := by
    rw [firstVerdict?_concat asked, Option.or_eq_some_iff] at verdict
    rcases verdict with old | ⟨-, new⟩
    · obtain ⟨y, member, answers⟩ := steady.given g w old
      exact ⟨y, List.mem_append_left _ member, answers⟩
    · split at new
      · rename_i same
        subst same
        refine ⟨x, by simp, asks, ?_⟩
        rw [replies, succeeded_reply asks]
        cases answer with
        | error fault => cases new
        | ok v => rfl
      · cases new

end Exchange

namespace Recall

open Exchange (sinceClear firstVerdict? answered Steady)

variable {σ : Type} {oracle : Oracle σ} {memory : Recall (σ × List Consultation)}
  {request : Request} {history : List Exchange} {f : Formula} {v : Verdict}

/-! ## What is remembered mirrors what was exchanged -/

theorem isSome_answer?_iff {memory : Recall σ} :
    (memory.answer? f).isSome = true ↔ f ∈ memory.answers.map Prod.fst := by
  simp [answer?]

section Noting

variable {memory next : Recall σ} {answer : Except OracleFault Verdict}

/-- A verdict on a formula that had none is remembered, a failure is not. -/
theorem answer?_noted {g : Formula}
    (noted : next.answers = (answer.toOption.map fun v => (f, v)).toList ++ memory.answers)
    (unknown : memory.answer? f = none) :
    next.answer? g = (memory.answer? g).or (if f = g then answer.toOption else none) := by
  unfold answer? at unknown ⊢
  rw [noted]
  cases answer with
  | error fault => simp [Except.toOption]
  | ok v =>
      by_cases same : f = g
      · subst same
        simp [Except.toOption, unknown]
      · simp [Except.toOption, same]

theorem nodup_noted (distinct : (memory.answers.map Prod.fst).Nodup)
    (unknown : memory.answer? f = none) :
    (((answer.toOption.map fun v => (f, v)).toList ++ memory.answers).map Prod.fst).Nodup := by
  cases answer with
  | error fault => exact distinct
  | ok v =>
      refine List.nodup_cons.2 ⟨fun known => ?_, distinct⟩
      have remembered := isSome_answer?_iff.2 known
      simp [unknown] at remembered

end Noting

/-- What is remembered is what the exchanges since the last request to forget have brought. -/
structure Mirrors (memory : Recall (σ × List Consultation)) (history : List Exchange) : Prop where
  noted : memory.inner.2 = history.flatMap Exchange.asked
  counted : memory.queries = memory.hits + memory.inner.2.length
  recalled : ∀ f, memory.answer? f = firstVerdict? (sinceClear history) f
  distinct : (memory.answers.map Prod.fst).Nodup
  steady : Steady (sinceClear history)

theorem mirrors_start (inner : σ) :
    Mirrors ({ inner := (inner, []) } : Recall (σ × List Consultation)) [] where
  noted := rfl
  counted := rfl
  recalled _ := rfl
  distinct := List.nodup_nil
  steady := Exchange.steady_nil

/-- A formula is remembered exactly if an answer on it was given since. -/
theorem Mirrors.answer?_isSome_iff (mirrors : memory.Mirrors history) :
    (memory.answer? f).isSome = true ↔ ∃ y ∈ sinceClear history, y.Answers f := by
  rw [mirrors.recalled, mirrors.steady.isSome_iff]

/-- The request keeps the mirror, and the inner oracle is asked only if it has to be. -/
def Continues (oracle : Oracle σ) (request : Request) (memory : Recall (σ × List Consultation))
    (history : List Exchange) : Prop :=
  (memory.serve oracle.recording request).2.Mirrors (history ++ [memory.exchange oracle request]) ∧
    (memory.exchange oracle request).Passes (sinceClear history)

theorem Mirrors.clear (mirrors : memory.Mirrors history) (clears : request.formula? = none) :
    Continues oracle request memory history := by
  have served : memory.serve oracle.recording request = (.cleared, memory.clear) := by
    rw [serve, clears]
  have made : memory.exchange oracle request = ⟨request, .cleared, []⟩ := by
    simp [exchange, served, Recall.clear]
  have forgotten : sinceClear (history ++ [⟨request, .cleared, []⟩]) = [] :=
    Exchange.sinceClear_concat_of_none clears
  rw [Continues, made, served]
  refine ⟨⟨?_, mirrors.counted, fun f => ?_, List.nodup_nil, ?_⟩, fun _ => rfl, ?_, ?_⟩
  · simpa [Recall.clear] using mirrors.noted
  · rw [forgotten]
    rfl
  · rw [forgotten]
    exact Exchange.steady_nil
  · intro f asks
    cases clears.symm.trans asks
  · intro f asks
    cases clears.symm.trans asks

theorem Mirrors.remember (mirrors : memory.Mirrors history) (asks : request.formula? = some f)
    (known : memory.answer? f = some v) :
    Continues oracle request memory history := by
  have served : memory.serve oracle.recording request =
      (request.reply (.ok v),
        { memory with queries := memory.queries + 1, hits := memory.hits + 1 }) := by
    rw [serve, asks]
    dsimp only
    rw [check_of_answer known]
  have made : memory.exchange oracle request = ⟨request, request.reply (.ok v), []⟩ := by
    simp [exchange, served]
  have since : sinceClear (history ++ [⟨request, request.reply (.ok v), []⟩]) =
      sinceClear history ++ [⟨request, request.reply (.ok v), []⟩] :=
    Exchange.sinceClear_concat_of_some asks
  have first := (mirrors.recalled f).symm.trans known
  rw [Continues, made, served]
  refine ⟨⟨?_, ?_, fun g => ?_, mirrors.distinct, ?_⟩, fun _ => rfl, ?_, ?_⟩
  · simpa using mirrors.noted
  · have counted := mirrors.counted
    dsimp only
    omega
  · rw [since, Exchange.firstVerdict?_concat_of_nil rfl]
    exact mirrors.recalled g
  · rw [since]
    exact mirrors.steady.remember first asks rfl rfl
  · exact fun _ _ _ => ⟨rfl, Exchange.succeeded_reply asks⟩
  · intro g asks' unanswered
    obtain rfl : f = g := Option.some.inj (asks.symm.trans asks')
    exact absurd (mirrors.steady.given f v first) unanswered

theorem Mirrors.consult (mirrors : memory.Mirrors history) (asks : request.formula? = some f)
    (unknown : memory.answer? f = none) :
    Continues oracle request memory history := by
  obtain ⟨answer, inner, asked⟩ : ∃ answer inner, oracle.ask f memory.inner.1 = (answer, inner) :=
    ⟨_, _, rfl⟩
  have served : memory.serve oracle.recording request =
      (request.reply answer,
        { memory with
          inner := (inner, memory.inner.2 ++ [⟨f, answer⟩])
          answers := (answer.toOption.map fun v => (f, v)).toList ++ memory.answers
          queries := memory.queries + 1 }) := by
    rw [serve, asks]
    dsimp only
    rw [check_of_unanswered unknown]
    simp [Oracle.recording, asked]
  have made : memory.exchange oracle request =
      ⟨request, request.reply answer, [⟨f, answer⟩]⟩ := by
    simp [exchange, served]
  have since : sinceClear (history ++ [⟨request, request.reply answer, [⟨f, answer⟩]⟩]) =
      sinceClear history ++ [⟨request, request.reply answer, [⟨f, answer⟩]⟩] :=
    Exchange.sinceClear_concat_of_some asks
  have undecided := (mirrors.recalled f).symm.trans unknown
  rw [Continues, made, served]
  refine ⟨⟨?_, ?_, fun g => ?_, ?_, ?_⟩, ?_, ?_, ?_⟩
  · simp [mirrors.noted]
  · have counted := mirrors.counted
    simp only [List.length_append, List.length_singleton]
    omega
  · rw [since, Exchange.firstVerdict?_concat rfl, ← mirrors.recalled g]
    exact answer?_noted rfl unknown
  · exact nodup_noted mirrors.distinct unknown
  · rw [since]
    exact mirrors.steady.consult undecided asks rfl rfl
  · intro clears
    cases clears.symm.trans asks
  · intro g asks' given
    obtain rfl : f = g := Option.some.inj (asks.symm.trans asks')
    have decided := mirrors.steady.isSome_iff.2 given
    simp [undecided] at decided
  · intro g asks' _
    obtain rfl : f = g := Option.some.inj (asks.symm.trans asks')
    exact ⟨answer, rfl, rfl⟩

theorem Mirrors.serve (mirrors : memory.Mirrors history) (oracle : Oracle σ) (request : Request) :
    Continues oracle request memory history := by
  cases asks : request.formula? with
  | none => exact mirrors.clear asks
  | some f =>
      cases known : memory.answer? f with
      | some v => exact mirrors.remember asks known
      | none => exact mirrors.consult asks known

/--
The mirror is kept by all requests.  Each of them is passed on only if it has to be, and leaves the
answers steady.
-/
theorem Mirrors.transcript (mirrors : memory.Mirrors history) (oracle : Oracle σ)
    (requests : List Request) :
    (after oracle.recording requests memory).Mirrors
        (history ++ transcript oracle requests memory) ∧
      ∀ earlier x later, transcript oracle requests memory = earlier ++ x :: later →
        x.Passes (sinceClear (history ++ earlier)) ∧
          Steady (sinceClear (history ++ earlier ++ [x])) := by
  induction requests generalizing memory history with
  | nil =>
      refine ⟨by simpa [Recall.transcript, after] using mirrors, fun earlier x later split => ?_⟩
      simp [Recall.transcript] at split
  | cons request rest ih =>
      obtain ⟨next, passes⟩ := mirrors.serve oracle request
      obtain ⟨last, onward⟩ := ih next
      rw [Recall.transcript, List.append_cons]
      refine ⟨last, fun earlier x later split => ?_⟩
      cases earlier with
      | nil =>
          obtain ⟨rfl, -⟩ := List.cons.inj split
          rw [List.append_nil]
          exact ⟨passes, next.steady⟩
      | cons y earlier =>
          obtain ⟨rfl, rest_eq⟩ := List.cons.inj split
          rw [List.append_cons]
          exact onward earlier x later rest_eq

/-- As many formulas are remembered as were answered since the last request to forget. -/
theorem Mirrors.cached_eq (mirrors : memory.Mirrors history) :
    memory.cached = (answered (sinceClear history)).toFinset.card := by
  have same : (memory.answers.map Prod.fst).toFinset =
      (answered (sinceClear history)).toFinset := by
    ext f
    rw [List.mem_toFinset, List.mem_toFinset, ← isSome_answer?_iff, mirrors.answer?_isSome_iff,
      Exchange.mem_answered]
  rw [← same, List.toFinset_card_of_nodup mirrors.distinct, List.length_map, cached]

/--
Whatever the inner oracle does and whatever is requested, an answer on a formula is the first
verdict that the inner oracle gave on it since the last request to forget.  It is asked exactly
about the formulas on which no answer was given since then.  Each query is a hit or is passed on,
and the formulas with an answer are those that are remembered.
-/
theorem replies_transparent (oracle : Oracle σ) (inner : σ) (requests : List Request) :
    let history := transcript oracle requests { inner := (inner, []) }
    let last := after oracle requests { inner }
    history.map Exchange.request = requests ∧
      history.map Exchange.reply = replies oracle requests { inner } ∧
      (∀ earlier x later, history = earlier ++ x :: later →
        x.Passes (sinceClear earlier) ∧
          ∀ y ∈ sinceClear (earlier ++ [x]), ∀ f, y.Answers f →
            ∃ v, firstVerdict? (sinceClear (earlier ++ [x])) f = some v ∧
              y.reply = y.request.reply (.ok v)) ∧
      last.queries = last.hits + (history.flatMap Exchange.asked).length ∧
      last.cached = (answered (sinceClear history)).toFinset.card := by
  intro history last
  obtain ⟨mirrors, each⟩ := (mirrors_start inner).transcript oracle requests
  have same : (after oracle.recording requests { inner := (inner, []) }).unrecorded = last :=
    unrecorded_after oracle { inner := (inner, []) } requests
  refine ⟨requests_transcript oracle _ requests, replies_transcript oracle _ requests,
    fun earlier x later split => (each earlier x later split).imp_right Steady.first, ?_, ?_⟩
  · rw [← same]
    exact mirrors.noted ▸ mirrors.counted
  · rw [← same]
    exact mirrors.cached_eq

end Recall

end ErrorContracts
