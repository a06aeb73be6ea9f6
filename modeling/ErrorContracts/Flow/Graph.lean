import ErrorContracts.Collection.Bindings
import ErrorContracts.Collection.Trail

/-!
# Flow graphs

A flow graph lists its nodes with their successors and has an entry.  Nodes may be of any type with
decidable equality.  Successors need not be listed themselves; such a node has no successors of its
own.
-/

namespace ErrorContracts

structure Graph (ν : Type) where
  entry : ν
  adjacency : List (ν × List ν)
  deriving DecidableEq

namespace Graph

variable {ν : Type}

def nodes (g : Graph ν) : List ν := g.adjacency.map Prod.fst

variable [DecidableEq ν]

def succs (g : Graph ν) (n : ν) : List ν := (Bindings.find? n g.adjacency).getD []

/-- The listed nodes with an edge to `n`, one occurrence for each edge. -/
def preds (g : Graph ν) (n : ν) : List ν :=
  g.adjacency.flatMap fun (source, targets) =>
    (targets.filter fun target => target = n).map fun _ => source

theorem mem_preds {g : Graph ν} {a n : ν} :
    a ∈ g.preds n ↔ ∃ targets, (a, targets) ∈ g.adjacency ∧ n ∈ targets := by
  simp only [preds, List.mem_flatMap, List.mem_map, List.mem_filter, decide_eq_true_eq]
  constructor
  · rintro ⟨⟨source, targets⟩, listed, target, ⟨inside, rfl⟩, rfl⟩
    exact ⟨targets, listed, inside⟩
  · rintro ⟨targets, listed, inside⟩
    exact ⟨(a, targets), listed, n, ⟨inside, rfl⟩, rfl⟩

/-- The graph with all edges turned round and another entry. -/
def reversed (g : Graph ν) (entry : ν) : Graph ν :=
  ⟨entry, g.nodes.map fun n => (n, g.preds n)⟩

/-- Every node that is the entry, is listed or is named as a successor. -/
def vertices (g : Graph ν) : List ν :=
  (g.entry :: g.adjacency.flatMap fun (source, targets) => source :: targets).eraseDups

/-- The nodes that can be reached from the entry, in reverse postorder. -/
def reversePostorder (g : Graph ν) : List ν :=
  finishing g.succs (g.vertices.erase g.entry) [(g.entry, g.succs g.entry)] []

/-- A path along edges; it lists the nodes it passes, with both ends. -/
inductive Path (g : Graph ν) : ν → ν → List ν → Prop where
  | here (n : ν) : Path g n n [n]
  | step {a b c : ν} {passed : List ν} :
      b ∈ g.succs a → Path g b c passed → Path g a c (a :: passed)

namespace Path

theorem start_mem {g : Graph ν} {a b : ν} {passed : List ν} (path : g.Path a b passed) :
    a ∈ passed := by
  cases path with
  | here => simp
  | step edge rest => simp

theorem end_mem {g : Graph ν} {a b : ν} {passed : List ν} (path : g.Path a b passed) :
    b ∈ passed := by
  induction path with
  | here => simp
  | step edge rest ih => simp [ih]

end Path

def Reaches (g : Graph ν) (a b : ν) : Prop := ∃ passed, g.Path a b passed

namespace Reaches

theorem refl (g : Graph ν) (a : ν) : g.Reaches a a := ⟨[a], .here a⟩

theorem step {g : Graph ν} {a b c : ν} (edge : b ∈ g.succs a) (rest : g.Reaches b c) :
    g.Reaches a c := by
  obtain ⟨passed, path⟩ := rest
  exact ⟨a :: passed, .step edge path⟩

theorem trans {g : Graph ν} {a b c : ν} (first : g.Reaches a b) (second : g.Reaches b c) :
    g.Reaches a c := by
  obtain ⟨passed, path⟩ := first
  induction path with
  | here => exact second
  | step edge rest ih => exact step edge (ih second)

end Reaches

/-- Every path from the entry to `b`, of which there is one, passes through `a`. -/
def Dominates (g : Graph ν) (a b : ν) : Prop :=
  g.Reaches g.entry b ∧ ∀ passed, g.Path g.entry b passed → a ∈ passed

end Graph

end ErrorContracts
