import ErrorContracts.Proofs.Components
import ErrorContracts.Proofs.Dependence

/-!
# Every look-up finds something

The analyses look nodes up in maps that they build as they go: positions and parents in the iteration
for dominators, numbers and low marks in the walk for components.  Here each of them is given once
more, in a form that fails as soon as a look-up finds nothing.  On graphs with coherent edges it does
not fail and has the same result.  In a routine, blocks are found by the handles of the nodes that
control comes from, goes to and depends on.
-/

namespace ErrorContracts

variable {ν : Type} [Ord ν] [DecidableEq ν]

/-! ## Dominators -/

/-- The nearest common ancestor, if all positions and parents on the way up are found. -/
def ParentMap.meet? (parents : ParentMap ν) (order : List ν) (a b : ν) : Option ν :=
  if a = b then some a
  else if a ∈ order ∧ b ∈ order then
    if order.idxOf b < order.idxOf a then
      match parents.get? a with
      | some up => if order.idxOf up < order.idxOf a then meet? parents order up b else none
      | none => none
    else
      match parents.get? b with
      | some up => if order.idxOf up < order.idxOf b then meet? parents order a up else none
      | none => none
  else none
termination_by order.idxOf a + order.idxOf b

/-- Repeats a step that may fail for as long as it lowers a measure. -/
def descend? {α : Type} (measure : α → Nat) (step? : α → Option α) (a : α) : Option α :=
  match step? a with
  | none => none
  | some b => if measure b < measure a then descend? measure step? b else some b
termination_by measure a

theorem descend?_eq {α : Type} (measure : α → Nat) {step : α → α} {step? : α → Option α}
    {Inv : α → Prop} (succeeds : ∀ a, Inv a → step? a = some (step a))
    (keeps : ∀ a, Inv a → Inv (step a)) {a : α} (start : Inv a) :
    descend? measure step? a = some (descend measure step a) := by
  fun_induction descend measure step a with
  | case1 a lower ih =>
      rw [descend?, succeeds a start]
      dsimp only
      rw [if_pos lower]
      exact ih (keeps a start)
  | case2 a ended =>
      rw [descend?, succeeds a start]
      dsimp only
      rw [if_neg ended]

namespace ParentMap.Rooted

variable {parents : ParentMap ν} {order : List ν} {root : ν} (rooted : parents.Rooted order root)

include rooted

/-- Between nodes of the tree the way up to the meet is in the tree. -/
theorem meet?_eq {a b : ν} (left : parents.contains a = true) (right : parents.contains b = true) :
    parents.meet? order a b = some (parents.meet order.idxOf a b) := by
  have listed : ∀ {n}, parents.contains n = true → n ∈ order := fun {n} => rooted.listed n
  fun_induction parents.meet order.idxOf a b with
  | case1 a => rw [meet?, if_pos rfl]
  | case2 a b other later up lower ih =>
      obtain ⟨found, -⟩ := rooted.get?_of_later left later
      rw [meet?, if_neg other, if_pos ⟨listed left, listed right⟩, if_pos later, found]
      dsimp only
      rw [if_pos lower]
      exact ih (rooted.placed a _ found) right
  | case3 a b other later up stuck =>
      exact absurd (rooted.get?_of_later left later).2 stuck
  | case4 a b other notLater up lower ih =>
      have later := rooted.later_of_not_later left other notLater
      obtain ⟨found, -⟩ := rooted.get?_of_later right later
      rw [meet?, if_neg other, if_pos ⟨listed left, listed right⟩, if_neg notLater, found]
      dsimp only
      rw [if_pos lower]
      exact ih left (rooted.placed b _ found)
  | case5 a b other notLater up stuck =>
      have later := rooted.later_of_not_later left other notLater
      exact absurd (rooted.get?_of_later right later).2 stuck

theorem foldlM_meet? {p : ν} {rest : List ν} (first : parents.contains p = true)
    (others : ∀ q ∈ rest, parents.contains q = true) :
    rest.foldlM (fun found q => parents.meet? order q found) p =
      some (rest.foldl (fun found q => parents.meet order.idxOf q found) p) := by
  induction rest generalizing p with
  | nil => rfl
  | cons q rest ih =>
      obtain ⟨second, others⟩ := List.forall_mem_cons.1 others
      have met := rooted.contains_of_above (rooted.meet second first).1 second
      rw [List.foldlM_cons, rooted.meet?_eq second first]
      exact ih met others

end ParentMap.Rooted

namespace Graph

variable [Std.TransOrd ν] [Std.LawfulEqOrd ν]

/-- Gives a node the meet of those predecessors that have a parent, if it is found. -/
def adopt? (g : Graph ν) (order : List ν) (parents : ParentMap ν) (n : ν) : Option (ParentMap ν) :=
  match (g.preds n).filter fun p => parents.contains p with
  | [] => some parents
  | p :: rest =>
      (rest.foldlM (fun found q => parents.meet? order q found) p).map (parents.insert n)

/-- The immediate dominators, if no look-up of a position or parent fails on the way. -/
def dominators? (g : Graph ν) : Option (ParentMap ν) :=
  let order := g.reversePostorder
  descend? (remoteness order)
    (fun parents => (order.filter fun n => n ≠ g.entry).foldlM (g.adopt? order) parents)
    ((∅ : ParentMap ν).insert g.entry g.entry)

variable {g : Graph ν} {i : Nat} {parents : ParentMap ν}

theorem Sweeping.adopt?_eq (sweeping : g.Sweeping i parents) (n : ν) :
    g.adopt? g.reversePostorder parents n = some (g.adopt g.reversePostorder.idxOf parents n) := by
  unfold adopt? adopt
  cases found : (g.preds n).filter fun p => parents.contains p with
  | nil => rfl
  | cons p rest =>
      have placed : ∀ q ∈ p :: rest, parents.contains q = true := by
        intro q listed
        rw [← found] at listed
        exact (List.mem_filter.1 listed).2
      obtain ⟨first, others⟩ := List.forall_mem_cons.1 placed
      dsimp only
      rw [sweeping.rooted.foldlM_meet? first others]
      rfl

/-- The visits of a sweep succeed one after the other. -/
theorem Sweeping.foldlM_adopt? (sweeping : g.Sweeping i parents) (coherent : g.Coherent)
    (started : 0 < i) {todo : List ν} (rest : g.reversePostorder.drop i = todo) :
    todo.foldlM (g.adopt? g.reversePostorder) parents =
      some (todo.foldl (g.adopt g.reversePostorder.idxOf) parents) := by
  induction todo generalizing i parents with
  | nil => rfl
  | cons n todo ih =>
      obtain ⟨-, -, rest', m, visited, -, next⟩ := sweeping.exists_visit coherent started rest
      rw [List.foldlM_cons, sweeping.adopt?_eq, List.foldl_cons, visited]
      exact ih next (Nat.succ_pos i) rest'

/-- The iteration for dominators finds all positions and parents that it looks up. -/
theorem dominators?_eq (coherent : g.Coherent) : g.dominators? = some g.dominators := by
  have succeeds : ∀ parents, g.Sweeping 1 parents →
      (g.reversePostorder.filter fun n => n ≠ g.entry).foldlM (g.adopt? g.reversePostorder) parents =
        some (g.sweep g.reversePostorder parents) := by
    intro parents sweeping
    rw [filter_reversePostorder, sweep_eq]
    exact sweeping.foldlM_adopt? coherent Nat.one_pos rfl
  exact descend?_eq _ succeeds (fun _ sweeping => sweeping.sweep coherent) g.sweeping_entry

end Graph

/-! ## Components -/

namespace Survey

def lower? (s : Survey) (v : Handle) (n : Nat) : Option Survey :=
  (s.low.get? v).map fun low => { s with low := s.low.insert v (min low n) }

def touch? (s : Survey) (v w : Handle) : Option Survey :=
  if w ∈ s.stack then (s.number.get? w).bind (s.lower? v) else some s

/-- Takes a component off the stack, if its root is there. -/
def close? (s : Survey) (v : Handle) : Option Survey :=
  if v ∈ s.stack then some (s.close v) else none

def leave? (s : Survey) (v : Handle) (parent : Option Handle) : Option Survey :=
  (s.low.get? v).bind fun low =>
    let lowered := match parent with
      | some p => s.lower? p low
      | none => some s
    lowered.bind fun s =>
      (s.number.get? v).bind fun number => if number = low then s.close? v else some s

/-- The walk for components, if all numbers and marks that it looks up are found. -/
def walk? (next : Handle → List Handle) (fresh roots : List Handle)
    (frames : List (Handle × List Handle)) (s : Survey) : Option Survey :=
  match frames with
  | [] =>
      match roots with
      | [] => some s
      | v :: roots =>
          if _h : v ∈ fresh then walk? next (fresh.erase v) roots [(v, next v)] (s.enter v)
          else walk? next fresh roots [] s
  | (v, []) :: rest =>
      match s.leave? v (rest.head?.map Prod.fst) with
      | some s => walk? next fresh roots rest s
      | none => none
  | (v, w :: untried) :: rest =>
      if _h : w ∈ fresh then
        walk? next (fresh.erase w) roots ((w, next w) :: (v, untried) :: rest) (s.enter w)
      else
        match s.touch? v w with
        | some s => walk? next fresh roots ((v, untried) :: rest) s
        | none => none
termination_by (fresh.length, workLeft frames + roots.length)
decreasing_by
  · exact Prod.Lex.left _ _ (length_erase_lt _h)
  · exact Prod.Lex.right _ (by simp)
  · exact Prod.Lex.right _ (by simp [workLeft])
  · exact Prod.Lex.left _ _ (length_erase_lt _h)
  · exact Prod.Lex.right _ (by simp [workLeft])

variable {next : Handle → List Handle} {nodes fresh : List Handle}
  {frames rest : List (Handle × List Handle)} {s : Survey} {v w : Handle}

theorem lower?_eq {n : Nat} (known : s.low.get? v = some (s.lowOf v)) :
    s.lower? v n = some (s.lower v n) := by
  rw [lower?, lower, SortedMap.getD, known]
  rfl

theorem Sound.touch?_eq {untried : List Handle}
    (sound : s.Sound next nodes fresh ((v, untried) :: rest)) : s.touch? v w = some (s.touch v w) := by
  have isOpen : v ∈ s.stack := sound.tower.mem_of_open (by simp)
  unfold touch? Survey.touch
  split
  · rename_i here
    rw [(sound.numbered w here).1]
    exact lower?_eq (sound.marked v isOpen).1
  · rfl

theorem Sound.leave?_eq (sound : s.Sound next nodes fresh ((v, []) :: rest)) :
    s.leave? v (rest.head?.map Prod.fst) = some (s.leave v (rest.head?.map Prod.fst)) := by
  have here : v ∈ s.stack := sound.tower.mem_of_open (by simp)
  have mark := (sound.marked v here).1
  have number := (sound.numbered v here).1
  -- the mark of the node that is left is compared with its number when its parent has been lowered
  have settled : ∀ t : Survey, t.stack = s.stack → t.number = s.number →
      ((t.number.get? v).bind fun number =>
          if number = s.lowOf v then t.close? v else some t) =
        some (if t.number.get? v = some (s.lowOf v) then t.close v else t) := by
    intro t stack same
    rw [same, number, Option.bind_some, close?, stack, if_pos here]
    by_cases root : s.numberOf v = s.lowOf v
    · rw [if_pos root, if_pos (congrArg some root)]
    · rw [if_neg root, if_neg fun equal => root (Option.some.inj equal)]
  unfold leave?
  rw [mark, Option.bind_some]
  cases rest with
  | nil => exact settled s rfl rfl
  | cons frame rest =>
      obtain ⟨p, untried⟩ := frame
      have parent : p ∈ s.stack := sound.tower.mem_of_open (by simp)
      have lowered := lower?_eq (n := s.lowOf v) (sound.marked p parent).1
      simp only [List.head?_cons, Option.map_some]
      rw [lowered, Option.bind_some]
      exact settled (s.lower p (s.lowOf v)) rfl rfl

/-- The walk finds all numbers and marks that it looks up. -/
theorem Sound.walk?_eq {roots : List Handle} (distinct : nodes.Nodup)
    (inside : ∀ v ∈ nodes, ∀ w ∈ next v, w ∈ nodes) (sound : s.Sound next nodes fresh frames) :
    walk? next fresh roots frames s = some (Survey.walk next fresh roots frames s) := by
  fun_induction Survey.walk next fresh roots frames s with
  | case1 fresh s => rw [walk?]
  | case2 fresh s v roots new ih =>
      rw [walk?, dif_pos new]
      exact ih (sound.enter_root distinct new)
  | case3 fresh s v roots old ih =>
      rw [walk?, dif_neg old]
      exact ih sound
  | case4 fresh roots s v rest ih =>
      rw [walk?, sound.leave?_eq]
      exact ih (sound.leave distinct)
  | case5 fresh roots s v w untried rest new ih =>
      rw [walk?, dif_pos new]
      exact ih (sound.enter_callee distinct new)
  | case6 fresh roots s v w untried rest old ih =>
      rw [walk?, dif_neg old, sound.touch?_eq]
      exact ih (sound.touch_callee distinct inside old)

end Survey

namespace CallGraph

/-- The strongly connected components, if no look-up of a number or mark fails on the way. -/
def components? (g : CallGraph) : Option (List (List Handle)) :=
  (Survey.walk? g.callees g.nodes g.nodes [] {}).map Survey.closed

theorem components?_eq {g : CallGraph} (closed : g.Closed) : g.components? = some g.components := by
  have start : ({} : Survey).Sound g.callees g.nodes g.nodes [] := Survey.sound_start g.nodes
  rw [components?, start.walk?_eq closed.distinct closed.inside]
  rfl

end CallGraph

/-! ## Blocks -/

theorem mapM_eq_filterMap {α β : Type} {f : α → Option β} {l : List α}
    (found : ∀ a ∈ l, (f a).isSome = true) : l.mapM f = some (l.filterMap f) := by
  induction l with
  | nil => rfl
  | cons a l ih =>
      obtain ⟨first, others⟩ := List.forall_mem_cons.1 found
      obtain ⟨b, here⟩ := Option.isSome_iff_exists.1 first
      rw [List.mapM_cons, here, ih others, List.filterMap_cons, here]
      rfl

namespace Routine

/--
Every look-up in a routine succeeds: of the blocks that control goes to, comes from and depends on, by
their handles, and of positions and parents in the iterations for both trees.
-/
structure Resolved (r : Routine) : Prop where
  successors : ∀ b ∈ r.blocks, b.terminator.successors.mapM r.block? = some (r.successors b)
  predecessors : ∀ b ∈ r.blocks, (r.graph.preds b.handle).mapM r.block? = some (r.predecessors b)
  controllers : ∀ n, (r.controllers n).toList.mapM r.block? =
    some ((r.controllers n).toList.filterMap r.block?)
  dominators : r.graph.dominators? = some r.idom
  postDominators : (r.graph.reversed exitNode).dominators? = some r.ipdom

theorem block?_isSome {r : Routine} {n : Handle} (listed : n ∈ r.blocks.map Block.handle) :
    (r.block? n).isSome = true := by
  obtain ⟨b, inside, same⟩ := List.mem_map.1 listed
  exact List.find?_isSome.2 ⟨b, inside, by simpa using same⟩

theorem Numbered.resolved {r : Routine} (numbered : r.Numbered) : r.Resolved := by
  have source : ∀ {n s}, s ∈ r.graph.succs n → (r.block? n).isSome = true := by
    intro n s edge
    obtain ⟨b, inside, rfl, -⟩ := exists_block_of_mem_succs edge
    exact block?_isSome (List.mem_map_of_mem inside)
  constructor
  · intro b inside
    exact mapM_eq_filterMap fun s successor => block?_isSome (r.closed b inside s successor)
  · intro b _
    exact mapM_eq_filterMap fun p edge => source (numbered.mem_succs_of_mem_preds edge)
  · intro n
    apply mapM_eq_filterMap
    intro c controls
    obtain ⟨s, edge, -⟩ := numbered.precedes_of_mem_controllers controls
    exact source edge
  · rw [r.idom_eq]
    exact Graph.dominators?_eq numbered.coherent
  · rw [r.ipdom_eq]
    exact Graph.dominators?_eq (Graph.coherent_reversed r.graph exitNode)

end Routine

end ErrorContracts
