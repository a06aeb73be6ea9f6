import ErrorContracts.Flow.Graph
import Mathlib.Logic.Relation
import Mathlib.Order.WellFoundedSet

/-!
# Edges that commit control

In a graph without cycles control that leaves a node cannot come back to it.  An edge commits control
to `b` if every way from its target to the exit leads through `b`.  Let some edges be closed, but no
node without an open one before the exit.  Then `b` can be reached over open edges if and only if
nothing controls it, or one of its controllers can be reached so and has an open edge that commits
control to `b`.  What can be reached is thus known by looking at controllers only.
-/

namespace ErrorContracts.Graph

open Relation (ReflTransGen)

variable {ν : Type} [DecidableEq ν]

/-- No edge leads back to where it starts. -/
def Acyclic (g : Graph ν) : Prop := ∀ a b, b ∈ g.succs a → ¬g.Reaches b a

/-- Every path from `n` to the exit passes through `b`. -/
def PostDominates (g : Graph ν) (exit b n : ν) : Prop :=
  ∀ passed, g.Path n exit passed → b ∈ passed

/-- The edge from `d` to `s` commits control to `b`, and `d` itself does not. -/
structure Controls (g : Graph ν) (exit d s b : ν) : Prop where
  edge : s ∈ g.succs d
  commits : g.PostDominates exit b s
  uncommitted : ¬(b ≠ d ∧ g.PostDominates exit b d)

/-- Control may go from `a` to `b` over open edges. -/
def Travels (g : Graph ν) (isOpen : ν → ν → Prop) (a b : ν) : Prop :=
  ReflTransGen (fun a s => s ∈ g.succs a ∧ isOpen a s) a b

/-- What controllers say of the nodes that can be reached over open edges. -/
inductive Lets (g : Graph ν) (exit : ν) (isOpen : ν → ν → Prop) : ν → Prop where
  | free {b : ν} (uncontrolled : ∀ d s, ¬g.Controls exit d s b) : Lets g exit isOpen b
  | through {d s b : ν} (controls : g.Controls exit d s b) (passable : isOpen d s)
      (outer : Lets g exit isOpen d) : Lets g exit isOpen b

variable {g : Graph ν} {exit : ν} {isOpen : ν → ν → Prop} {a b n : ν}

theorem mem_nodes_of_mem_succs {s : ν} (edge : s ∈ g.succs n) : n ∈ g.nodes := by
  unfold succs at edge
  cases found : Bindings.find? n g.adjacency with
  | none =>
      rw [found] at edge
      cases edge
  | some targets =>
      refine Bindings.find?_isSome_iff.1 ?_
      rw [found]
      rfl

theorem Reaches.eq_or_exists_edge (reaches : g.Reaches a b) :
    b = a ∨ ∃ d, g.Reaches a d ∧ b ∈ g.succs d := by
  obtain ⟨passed, path⟩ := reaches
  induction path with
  | here => exact .inl rfl
  | @step a s b _ edge _ ih =>
      right
      rcases ih with rfl | ⟨d, onward, last⟩
      · exact ⟨a, .refl g a, edge⟩
      · exact ⟨d, .step edge onward, last⟩

/-! ## Induction along edges -/

/-- Control that leaves `a` can come to `b`. -/
def Precedes (g : Graph ν) (a b : ν) : Prop := ∃ s ∈ g.succs a, g.Reaches s b

theorem Precedes.trans {c : ν} (first : g.Precedes a b) (second : g.Precedes b c) :
    g.Precedes a c := by
  obtain ⟨s, edge, reaches⟩ := first
  obtain ⟨s', edge', reaches'⟩ := second
  exact ⟨s, edge, reaches.trans (.step edge' reaches')⟩

theorem Precedes.mem_nodes (precedes : g.Precedes a b) : a ∈ g.nodes := by
  obtain ⟨s, edge, -⟩ := precedes
  exact mem_nodes_of_mem_succs edge

namespace Acyclic

/-- There is no cycle if the nodes can be ranked so that every edge goes up. -/
theorem of_rank (rank : ν → Nat) (ascends : ∀ a ∈ g.nodes, ∀ b ∈ g.succs a, rank a < rank b) :
    g.Acyclic := by
  have upward : ∀ a b, g.Reaches a b → rank a ≤ rank b := by
    rintro a b ⟨passed, path⟩
    induction path with
    | here => exact le_rfl
    | step edge _ ih => exact (ascends _ (mem_nodes_of_mem_succs edge) _ edge).le.trans ih
  intro a b edge back
  have up := ascends a (mem_nodes_of_mem_succs edge) b edge
  exact absurd (upward b a back) (not_le_of_gt up)

theorem not_precedes (acyclic : g.Acyclic) (n : ν) : ¬g.Precedes n n := by
  rintro ⟨s, edge, reaches⟩
  exact acyclic n s edge reaches

theorem isStrictOrder (acyclic : g.Acyclic) : IsStrictOrder ν g.Precedes where
  irrefl := acyclic.not_precedes
  trans _ _ _ first second := first.trans second

/-- Induction from the nodes that precede a node to the node. -/
theorem induction (acyclic : g.Acyclic) {motive : ν → Prop}
    (step : ∀ b, (∀ d, g.Precedes d b → motive d) → motive b) (b : ν) : motive b := by
  have := acyclic.isStrictOrder
  have wellFounded : {n | n ∈ g.nodes}.WellFoundedOn g.Precedes :=
    (List.finite_toSet g.nodes).wellFoundedOn
  have listed : ∀ d ∈ g.nodes, motive d := by
    intro d inside
    apply wellFounded.induction inside
    intro d _ ih
    exact step d fun e precedes => ih e precedes.mem_nodes precedes
  exact step b fun d precedes => listed d precedes.mem_nodes

/-- Induction from the successors of a node to the node. -/
theorem induction_succs (acyclic : g.Acyclic) {motive : ν → Prop}
    (step : ∀ n, (∀ s ∈ g.succs n, motive s) → motive n) (n : ν) : motive n := by
  have := acyclic.isStrictOrder
  have wellFounded : {n | n ∈ g.nodes}.WellFoundedOn (Function.swap g.Precedes) :=
    (List.finite_toSet g.nodes).wellFoundedOn
  have unlisted : ∀ n, n ∉ g.nodes → motive n := by
    intro n outside
    exact step n fun s edge => absurd (mem_nodes_of_mem_succs edge) outside
  by_cases inside : n ∈ g.nodes
  · apply wellFounded.induction inside
    intro n _ ih
    apply step
    intro s edge
    by_cases listed : s ∈ g.nodes
    · exact ih s listed ⟨s, edge, .refl g s⟩
    · exact unlisted s listed
  · exact unlisted n inside

end Acyclic

/-! ## Open ways -/

theorem Travels.reaches (way : g.Travels isOpen a b) : g.Reaches a b := by
  induction way using ReflTransGen.head_induction_on with
  | refl => exact .refl g b
  | head edge _ ih => exact .step edge.1 ih

theorem Reaches.travels (reaches : g.Reaches a b) : g.Travels (fun _ _ => True) a b := by
  obtain ⟨passed, path⟩ := reaches
  induction path with
  | here => exact .refl
  | step edge _ ih => exact .head ⟨edge, trivial⟩ ih

/-- An open way is a path on which each edge is open. -/
theorem travels_iff :
    g.Travels isOpen a b ↔ ∃ passed, g.Path a b passed ∧ passed.IsChain isOpen := by
  constructor
  · intro way
    induction way using ReflTransGen.head_induction_on with
    | refl => exact ⟨[b], .here b, .singleton b⟩
    | head edge _ ih =>
        obtain ⟨passed, path, chain⟩ := ih
        refine ⟨_, .step edge.1 path, ?_⟩
        cases path with
        | here => exact .cons_cons edge.2 chain
        | step => exact .cons_cons edge.2 chain
  · rintro ⟨passed, path, chain⟩
    induction path with
    | here => exact .refl
    | step edge rest ih =>
        cases rest with
        | here => exact .single ⟨edge, chain.rel⟩
        | step => exact .head ⟨edge, chain.rel⟩ (ih chain.tail)

theorem PostDominates.refl (exit b : ν) : g.PostDominates exit b b :=
  fun _ path => path.start_mem

theorem PostDominates.succ {s : ν} (commits : g.PostDominates exit b n) (other : b ≠ n)
    (edge : s ∈ g.succs n) : g.PostDominates exit b s := by
  intro passed path
  have met : b ∈ n :: passed := commits _ (.step edge path)
  exact (List.mem_cons.1 met).resolve_left other

/-- Control stays committed to `b` until it has passed `b`. -/
theorem PostDominates.forward (commits : g.PostDominates exit b a) (reaches : g.Reaches a n) :
    g.PostDominates exit b n ∨ g.Reaches b n := by
  obtain ⟨passed, path⟩ := reaches
  induction path with
  | here => exact .inl commits
  | @step a s n _ edge rest ih =>
      by_cases same : b = a
      · subst same
        exact .inr (.step edge ⟨_, rest⟩)
      · exact ih (commits.succ same edge)

/-- On the way to the exit there is no way around a post-dominator. -/
theorem PostDominates.travels (commits : g.PostDominates exit b n)
    (way : g.Travels isOpen n exit) : g.Travels isOpen n b := by
  induction way using ReflTransGen.head_induction_on with
  | refl =>
      have met : b ∈ [exit] := commits _ (.here exit)
      obtain rfl := List.mem_singleton.1 met
      exact .refl
  | @head n s edge _ ih =>
      by_cases same : b = n
      · subst same
        exact .refl
      · exact .head edge (ih (commits.succ same edge.1))

/-- A way to a node to which control was not committed at first passes one of its controllers. -/
theorem Travels.exists_controls (way : g.Travels isOpen a b)
    (uncommitted : ¬g.PostDominates exit b a) :
    ∃ d s, g.Controls exit d s b ∧ isOpen d s ∧ g.Travels isOpen a d ∧ g.Travels isOpen s b := by
  induction way using ReflTransGen.head_induction_on with
  | refl => exact absurd (.refl exit b) uncommitted
  | @head a s edge rest ih =>
      by_cases commits : g.PostDominates exit b s
      · exact ⟨a, s, ⟨edge.1, commits, fun h => uncommitted h.2⟩, edge.2, .refl, rest⟩
      · obtain ⟨d, s', controls, passable, before, after⟩ := ih commits
        exact ⟨d, s', controls, passable, .head edge before, after⟩

/-! ## Controllers decide -/

/-- Control leaves every node in the end: there is no cycle, and an open edge before the exit. -/
structure Flows (g : Graph ν) (exit : ν) (isOpen : ν → ν → Prop) : Prop where
  acyclic : g.Acyclic
  reached : ∀ d s, s ∈ g.succs d → g.Reaches g.entry d
  choice : ∀ n, g.Reaches g.entry n → n = exit ∨ ∃ s ∈ g.succs n, isOpen n s

namespace Flows

variable (flows : g.Flows exit isOpen)

include flows

theorem travels_exit (reached : g.Reaches g.entry n) : g.Travels isOpen n exit := by
  induction n using flows.acyclic.induction_succs with
  | step n ih =>
      rcases flows.choice n reached with rfl | ⟨s, edge, passable⟩
      · exact .refl
      · have next : g.Reaches g.entry s := reached.trans (.step edge (.refl g s))
        exact .head ⟨edge, passable⟩ (ih s edge next)

/-- From the target of an edge there is an open way to every node that the edge commits to. -/
theorem travels_of_controls {d s : ν} (controls : g.Controls exit d s b) :
    g.Travels isOpen s b := by
  have reached : g.Reaches g.entry s :=
    (flows.reached d s controls.edge).trans (.step controls.edge (.refl g s))
  exact controls.commits.travels (flows.travels_exit reached)

theorem precedes_of_controls {d s : ν} (controls : g.Controls exit d s b) : g.Precedes d b :=
  ⟨s, controls.edge, (flows.travels_of_controls controls).reaches⟩

theorem not_postDominates_of_controls {d s : ν} (controls : g.Controls exit d s b) :
    ¬g.PostDominates exit b d := by
  intro commits
  have same : b = d := by
    by_contra other
    exact controls.uncommitted ⟨other, commits⟩
  subst same
  exact flows.acyclic.not_precedes b (flows.precedes_of_controls controls)

/-- A controller has a choice. -/
theorem exists_other_of_controls {d s : ν} (controls : g.Controls exit d s b) (inside : d ≠ exit) :
    ∃ other ∈ g.succs d, other ≠ s := by
  by_contra single
  simp only [not_exists, not_and, not_not] at single
  apply flows.not_postDominates_of_controls controls
  intro passed path
  cases path with
  | here => exact absurd rfl inside
  | step edge rest =>
      rw [single _ edge] at rest
      exact List.mem_cons_of_mem d (controls.commits _ rest)

/-- Nothing controls a node that control is committed to from the beginning. -/
theorem not_controls_of_postDominates (commits : g.PostDominates exit b g.entry) (d s : ν) :
    ¬g.Controls exit d s b := by
  intro controls
  rcases commits.forward (flows.reached d s controls.edge) with commits | back
  · exact flows.not_postDominates_of_controls controls commits
  · obtain ⟨s, edge, reaches⟩ := flows.precedes_of_controls controls
    exact flows.acyclic d s edge (reaches.trans back)

/-- Reachability over open edges, as controllers tell it. -/
theorem travels_iff_lets (reached : g.Reaches g.entry b) :
    g.Travels isOpen g.entry b ↔ g.Lets exit isOpen b := by
  constructor
  · intro way
    induction b using flows.acyclic.induction with
    | step b ih =>
        -- a way is committed to `b` from the beginning or passes one of its controllers
        by_cases commits : g.PostDominates exit b g.entry
        · exact .free (flows.not_controls_of_postDominates commits)
        · obtain ⟨d, s, controls, passable, before, -⟩ := way.exists_controls commits
          have outer := ih d (flows.precedes_of_controls controls) before.reaches before
          exact .through controls passable outer
  · intro lets
    induction lets with
    | free uncontrolled =>
        apply PostDominates.travels ?_ (flows.travels_exit (.refl g g.entry))
        by_contra uncommitted
        obtain ⟨d, s, controls, -⟩ := reached.travels.exists_controls uncommitted
        exact uncontrolled d s controls
    | through controls passable _ ih =>
        have before := ih (flows.reached _ _ controls.edge)
        exact before.trans (.head ⟨controls.edge, passable⟩ (flows.travels_of_controls controls))

end Flows

end ErrorContracts.Graph
