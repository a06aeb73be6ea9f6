import ErrorContracts.CallGraph.Components
import Mathlib.Data.List.Induction
import Mathlib.Data.List.Nodup
import Mathlib.Data.List.Perm.Basic
import Mathlib.Logic.Relation
import Mathlib.Order.Nat

/-!
# Components of a call graph

The walk for strongly connected components keeps a tower of frames: each open node stands on the
stack below the finished nodes that were found from it, and those lead back below their own number.
So a node that closes takes exactly its component off the stack.  The components then partition the
nodes, each is strongly connected, and what a node calls stands in its own component or in an earlier
one.  Without recursion every component is a single node, and the functions come out callees first.
-/

namespace ErrorContracts

theorem SortedMap.size_insert_of_get?_eq_none {ν : Type} {m : SortedMap Handle ν} {k : Handle} {v : ν}
    (absent : m.get? k = none) : (m.insert k v).size = m.size + 1 := by
  have placed : ∀ l : List (Handle × ν), Bindings.find? k l = none →
      (Bindings.place k v l).length = l.length + 1 := by
    intro l
    induction l with
    | nil => exact fun _ => rfl
    | cons b l ih =>
        obtain ⟨k', v'⟩ := b
        intro absent
        simp only [Bindings.place]
        cases order : compare k k' with
        | lt => rfl
        | eq =>
            have same := Std.compare_eq_iff_eq.1 order
            subst same
            simp [Bindings.find?] at absent
        | gt =>
            have rest : Bindings.find? k l = none := by grind [Bindings.find?]
            simp [ih rest]
  exact placed m.toList absent

/-- One node leads to another along calls. -/
abbrev Reaches (next : Handle → List Handle) : Handle → Handle → Prop :=
  Relation.ReflTransGen fun v w => w ∈ next v

/--
Each of the components is strongly connected, and what one of its nodes calls stands in it or in a
component before it.
-/
def CalleesFirst (next : Handle → List Handle) (components : List (List Handle)) : Prop :=
  ∀ earlier component later, components = earlier ++ component :: later →
    (∀ v ∈ component, ∀ w ∈ component, Reaches next v w) ∧
      ∀ v ∈ component, ∀ w ∈ next v, w ∈ component ∨ w ∈ earlier.flatten

theorem CalleesFirst.nil {next : Handle → List Handle} : CalleesFirst next [] := by
  intro earlier component later split
  simp at split

theorem CalleesFirst.snoc {next : Handle → List Handle} {components : List (List Handle)}
    {component : List Handle} (first : CalleesFirst next components)
    (connected : ∀ v ∈ component, ∀ w ∈ component, Reaches next v w)
    (calls : ∀ v ∈ component, ∀ w ∈ next v, w ∈ component ∨ w ∈ components.flatten) :
    CalleesFirst next (components ++ [component]) := by
  intro earlier other later split
  rcases List.eq_nil_or_concat later with rfl | ⟨later, last, rfl⟩
  · obtain ⟨rfl, same⟩ := List.append_inj' split rfl
    obtain rfl : component = other := by simpa using same
    exact ⟨connected, calls⟩
  · have split : components ++ [component] = (earlier ++ other :: later) ++ [last] := by
      simpa using split
    exact first earlier other later (List.append_inj' split rfl).1

namespace Survey

/-- The number of a node on the stack. -/
def numberOf (s : Survey) (v : Handle) : Nat := s.number.getD v 0

/-- The low mark of a node on the stack. -/
def lowOf (s : Survey) (v : Handle) : Nat := s.low.getD v 0

/-- The successors that a node has been through: closed by now, or on the stack from its low mark up. -/
def Seen (s : Survey) (v : Handle) (successors : List Handle) : Prop :=
  ∀ w ∈ successors, w ∈ s.closed.flatten ∨ w ∈ s.stack ∧ s.lowOf v ≤ s.numberOf w

/--
A finished node on the stack above the open node `v`: it was found from `v`, leads below its own
number but not below the low mark of `v`, and has been through its successors.
-/
structure Finished (next : Handle → List Handle) (s : Survey) (v w : Handle) : Prop where
  found : Reaches next v w
  above : s.lowOf v ≤ s.lowOf w
  below : s.lowOf w < s.numberOf w
  seen : s.Seen w (next w)

/-- The stack in layers, one for each open frame. -/
inductive Tower (next : Handle → List Handle) (s : Survey) :
    List (Handle × List Handle) → List Handle → Prop
  | nil : Tower next s [] []
  | frame {v : Handle} {tried untried above below : List Handle} {rest : List (Handle × List Handle)}
      (called : ∀ p ∈ rest.head?.map Prod.fst, v ∈ next p) (split : next v = tried ++ untried)
      (seen : s.Seen v tried) (finished : ∀ w ∈ above, s.Finished next v w)
      (tower : Tower next s rest below) : Tower next s ((v, untried) :: rest) (above ++ v :: below)

/-- What holds of a walk at any time. -/
structure Sound (next : Handle → List Handle) (nodes fresh : List Handle)
    (frames : List (Handle × List Handle)) (s : Survey) : Prop where
  partition : (fresh ++ (s.stack ++ s.closed.flatten)).Perm nodes
  unnumbered : ∀ v ∈ fresh, s.number.get? v = none
  numbered : ∀ v ∈ s.stack, s.number.get? v = some (s.numberOf v) ∧ s.numberOf v < s.number.size
  marked : ∀ v ∈ s.stack, s.low.get? v = some (s.lowOf v) ∧ s.lowOf v ≤ s.numberOf v
  descending : s.stack.Pairwise fun v w => s.numberOf w < s.numberOf v
  leads : ∀ v ∈ s.stack, ∃ w ∈ s.stack, s.numberOf w = s.lowOf v ∧ Reaches next v w
  tower : s.Tower next frames s.stack
  calleesFirst : CalleesFirst next s.closed

variable {next : Handle → List Handle} {nodes fresh : List Handle}
  {frames rest : List (Handle × List Handle)} {s t : Survey} {v w : Handle}

/-! ## The marks -/

theorem numberOf_enter : (s.enter v).numberOf w = if w = v then s.number.size else s.numberOf w :=
  SortedMap.getD_insert ..

theorem lowOf_enter : (s.enter v).lowOf w = if w = v then s.number.size else s.lowOf w :=
  SortedMap.getD_insert ..

theorem lowOf_lower {n : Nat} (known : s.low.get? v = some (s.lowOf v)) :
    (s.lower v n).lowOf w = if w = v then min (s.lowOf v) n else s.lowOf w := by
  have read : s.low.getD v n = s.lowOf v := by rw [SortedMap.getD, known, Option.getD_some]
  rw [lowOf, lower, SortedMap.getD_insert, read]
  rfl

/-! ## The tower -/

theorem Seen.mono {successors : List Handle} (seen : s.Seen v successors)
    (closed : ∀ w ∈ s.closed.flatten, w ∈ t.closed.flatten)
    (kept : ∀ w ∈ s.stack, w ∈ t.closed.flatten ∨ w ∈ t.stack ∧ t.numberOf w = s.numberOf w)
    (low : t.lowOf v ≤ s.lowOf v) : t.Seen v successors := by
  intro w listed
  rcases seen w listed with gone | ⟨here, bound⟩
  · exact .inl (closed w gone)
  · rcases kept w here with gone | ⟨here, same⟩
    · exact .inl gone
    · exact .inr ⟨here, same ▸ low.trans bound⟩

theorem Tower.mem_of_open {l : List Handle} (tower : s.Tower next frames l)
    (isOpen : v ∈ frames.map Prod.fst) : v ∈ l := by
  induction tower with
  | nil => cases isOpen
  | frame _ _ _ _ _ ih =>
      rcases List.mem_cons.1 isOpen with rfl | deeper
      · simp
      · simp [ih deeper]

/--
A tower stands as long as numbers and low marks stay, apart from low marks of open nodes, which may
sink.
-/
theorem Tower.mono {l : List Handle} (tower : s.Tower next frames l) (distinct : l.Nodup)
    (closed : ∀ w ∈ s.closed.flatten, w ∈ t.closed.flatten)
    (kept : ∀ w ∈ s.stack, w ∈ t.closed.flatten ∨ w ∈ t.stack ∧ t.numberOf w = s.numberOf w)
    (number : ∀ w ∈ l, t.numberOf w = s.numberOf w) (low : ∀ w ∈ l, t.lowOf w ≤ s.lowOf w)
    (same : ∀ w ∈ l, w ∉ frames.map Prod.fst → t.lowOf w = s.lowOf w) :
    t.Tower next frames l := by
  induction tower with
  | nil => exact .nil
  | @frame v tried untried above below rest called split seen finished tower ih =>
      obtain ⟨-, deeper, apart⟩ := List.nodup_append.1 distinct
      obtain ⟨own, deeper⟩ := List.nodup_cons.1 deeper
      refine .frame called split (seen.mono closed kept (low v (by simp))) (fun w listed => ?_)
        (ih deeper (fun w listed => number w (by simp [listed]))
          (fun w listed => low w (by simp [listed])) fun w listed finished => ?_)
      · have notOpen : w ∉ ((v, untried) :: rest).map Prod.fst := by
          intro isOpen
          rcases List.mem_cons.1 isOpen with rfl | isOpen
          · exact apart w listed w (by simp) rfl
          · exact apart w listed w (by simp [tower.mem_of_open isOpen]) rfl
        have same := same w (by simp [listed]) notOpen
        obtain ⟨found, lower, upper, seen⟩ := finished w listed
        refine ⟨found, ?_, ?_, seen.mono closed kept same.le⟩
        · rw [same]
          exact (low v (by simp)).trans lower
        · rwa [same, number w (by simp [listed])]
      · refine same w (by simp [listed]) fun isOpen => ?_
        rcases List.mem_cons.1 isOpen with rfl | isOpen
        · exact own listed
        · exact finished isOpen

/-- The open node on top is through with one more successor. -/
theorem Tower.step {untried l : List Handle} (tower : s.Tower next ((v, w :: untried) :: rest) l)
    (now : w ∈ s.closed.flatten ∨ w ∈ s.stack ∧ s.lowOf v ≤ s.numberOf w) :
    s.Tower next ((v, untried) :: rest) l := by
  cases tower with
  | @frame _ tried _ above below _ called split seen finished tower =>
      have further : next v = (tried ++ [w]) ++ untried := by simp [split]
      refine .frame called further (fun x listed => ?_) finished tower
      rcases List.mem_append.1 listed with before | last
      · exact seen x before
      · obtain rfl := List.mem_singleton.1 last
        exact now

theorem Tower.called_of_untried {untried l : List Handle}
    (tower : s.Tower next ((v, w :: untried) :: rest) l) : w ∈ next v := by
  cases tower with
  | frame _ split => simp [split]

/-- The open node on top is finished and leads below its number: it joins the layer below. -/
theorem Tower.merge {p : Handle} {untried l : List Handle}
    (tower : s.Tower next ((v, []) :: (p, untried) :: rest) l) (below : s.lowOf v < s.numberOf v)
    (above : s.lowOf p ≤ s.lowOf v) : s.Tower next ((p, untried) :: rest) l := by
  cases tower with
  | @frame _ tried _ upper _ _ called split seen finished tower =>
      cases tower with
      | @frame _ triedBelow _ layer bottom _ calledBelow splitBelow seenBelow finishedBelow tower =>
          have edge : Reaches next p v := .single (called p rfl)
          have all : next v = tried := by simpa using split
          have layers : upper ++ v :: (layer ++ p :: bottom) = (upper ++ v :: layer) ++ p :: bottom := by
            simp
          rw [layers]
          refine .frame calledBelow splitBelow seenBelow (fun w listed => ?_) tower
          rcases List.mem_append.1 listed with high | low
          · obtain ⟨found, lower, leads, seen⟩ := finished w high
            exact ⟨edge.trans found, above.trans lower, leads, seen⟩
          · rcases List.mem_cons.1 low with rfl | low
            · exact ⟨edge, above, below, all ▸ seen⟩
            · exact finishedBelow w low

/-! ## Single steps of the walk -/

theorem Sound.parts (sound : s.Sound next nodes fresh frames) (distinct : nodes.Nodup) :
    fresh.Nodup ∧ s.stack.Nodup ∧ ∀ v ∈ fresh, v ∉ s.stack := by
  obtain ⟨first, second, apart⟩ := List.nodup_append.1 (sound.partition.nodup_iff.2 distinct)
  exact ⟨first, (List.nodup_append.1 second).1, fun v new old => apart v new v (by simp [old]) rfl⟩

/-- Entering a node leaves the tower below it alone. -/
theorem Sound.tower_enter (sound : s.Sound next nodes fresh frames) (distinct : nodes.Nodup)
    (new : v ∈ fresh) : (s.enter v).Tower next frames s.stack := by
  obtain ⟨-, stack, apart⟩ := sound.parts distinct
  have other : ∀ w ∈ s.stack, w ≠ v := fun w here same => apart v new (same ▸ here)
  refine sound.tower.mono stack (fun w gone => gone) (fun w here => .inr ⟨.tail v here, ?_⟩)
    (fun w here => ?_) (fun w here => ?_) fun w here _ => ?_
  · rw [numberOf_enter, if_neg (other w here)]
  · rw [numberOf_enter, if_neg (other w here)]
  · rw [lowOf_enter, if_neg (other w here)]
  · rw [lowOf_enter, if_neg (other w here)]

theorem Sound.enter (sound : s.Sound next nodes fresh frames) (distinct : nodes.Nodup)
    (new : v ∈ fresh) (called : ∀ p ∈ rest.head?.map Prod.fst, v ∈ next p)
    (tower : (s.enter v).Tower next rest s.stack) :
    (s.enter v).Sound next nodes (fresh.erase v) ((v, next v) :: rest) := by
  obtain ⟨isNodup, -, apart⟩ := sound.parts distinct
  have other : ∀ w ∈ s.stack, w ≠ v := fun w here same => apart v new (same ▸ here)
  have size : (s.enter v).number.size = s.number.size + 1 :=
    SortedMap.size_insert_of_get?_eq_none (sound.unnumbered v new)
  have number : ∀ w ∈ s.stack, (s.enter v).numberOf w = s.numberOf w :=
    fun w here => by rw [numberOf_enter, if_neg (other w here)]
  have low : ∀ w ∈ s.stack, (s.enter v).lowOf w = s.lowOf w :=
    fun w here => by rw [lowOf_enter, if_neg (other w here)]
  have ownNumber : (s.enter v).numberOf v = s.number.size := by rw [numberOf_enter, if_pos rfl]
  have ownLow : (s.enter v).lowOf v = s.number.size := by rw [lowOf_enter, if_pos rfl]
  refine ⟨?_, fun w new' => ?_, fun w here => ?_, fun w here => ?_, ?_, fun w here => ?_, ?_,
    sound.calleesFirst⟩
  · refine List.Perm.trans ?_ sound.partition
    have moved := (List.perm_cons_erase new).symm.append_right (s.stack ++ s.closed.flatten)
    exact List.perm_middle.trans moved
  · have apart : w ≠ v := fun same => isNodup.not_mem_erase (same ▸ new')
    change (s.number.insert v _).get? w = none
    rw [SortedMap.get?_insert, if_neg apart]
    exact sound.unnumbered w (List.mem_of_mem_erase new')
  · rw [size]
    rcases List.mem_cons.1 here with rfl | old
    · rw [ownNumber]
      exact ⟨(SortedMap.get?_insert ..).trans (if_pos rfl), Nat.lt_succ_self _⟩
    · rw [number w old]
      obtain ⟨known, bound⟩ := sound.numbered w old
      exact ⟨(SortedMap.get?_insert ..).trans ((if_neg (other w old)).trans known), by omega⟩
  · rcases List.mem_cons.1 here with rfl | old
    · rw [ownNumber, ownLow]
      exact ⟨(SortedMap.get?_insert ..).trans (if_pos rfl), le_rfl⟩
    · rw [number w old, low w old]
      obtain ⟨known, bound⟩ := sound.marked w old
      exact ⟨(SortedMap.get?_insert ..).trans ((if_neg (other w old)).trans known), bound⟩
  · refine List.pairwise_cons.2 ⟨fun w old => ?_, sound.descending.imp_of_mem fun {a b} ha hb less => ?_⟩
    · rw [ownNumber, number w old]
      exact (sound.numbered w old).2
    · rwa [number a ha, number b hb]
  · rcases List.mem_cons.1 here with rfl | old
    · exact ⟨w, here, by rw [ownNumber, ownLow], .refl⟩
    · obtain ⟨x, listed, same, reaches⟩ := sound.leads w old
      exact ⟨x, .tail v listed, by rw [number x listed, low w old, same], reaches⟩
  · exact @Tower.frame next _ v [] (next v) [] s.stack rest called rfl (by simp [Seen]) (by simp) tower

/-- The low mark of an open node sinks to that of a node on the stack that it leads to. -/
theorem Sound.lower {n : Nat} (sound : s.Sound next nodes fresh frames) (distinct : nodes.Nodup)
    (isOpen : v ∈ frames.map Prod.fst)
    (leads : ∃ w ∈ s.stack, s.numberOf w = n ∧ Reaches next v w) :
    (s.lower v n).Sound next nodes fresh frames := by
  have onStack := sound.tower.mem_of_open isOpen
  have low : ∀ w, (s.lower v n).lowOf w = if w = v then min (s.lowOf v) n else s.lowOf w :=
    fun w => lowOf_lower (sound.marked v onStack).1
  have sinks : ∀ w, (s.lower v n).lowOf w ≤ s.lowOf w := by
    intro w
    rw [low]
    split
    · rename_i same
      exact same ▸ Nat.min_le_left ..
    · exact le_rfl
  refine ⟨sound.partition, sound.unnumbered, sound.numbered, fun w here => ⟨?_, ?_⟩,
    sound.descending, fun w here => ?_, ?_, sound.calleesFirst⟩
  · by_cases same : w = v
    · subst same
      have placed := SortedMap.get?_insert s.low w w (min (s.low.getD w n) n)
      rw [if_pos rfl] at placed
      rw [lowOf, SortedMap.getD, Survey.lower, placed]
      rfl
    · have placed := SortedMap.get?_insert s.low v w (min (s.low.getD v n) n)
      rw [if_neg same] at placed
      rw [low, if_neg same]
      exact placed.trans (sound.marked w here).1
  · exact (sinks w).trans (sound.marked w here).2
  · rw [low]
    split
    · rename_i same
      subst same
      rcases Nat.le_total (s.lowOf w) n with less | more
      · rw [Nat.min_eq_left less]
        exact sound.leads w here
      · rw [Nat.min_eq_right more]
        exact leads
    · exact sound.leads w here
  · refine sound.tower.mono (sound.parts distinct).2.1 (fun w gone => gone)
      (fun w here => .inr ⟨here, rfl⟩) (fun w _ => rfl) (fun w _ => sinks w) fun w _ notOpen => ?_
    rw [low, if_neg fun same : w = v => notOpen (same ▸ isOpen)]

/-- A successor that is not fresh. -/
theorem Sound.touch {untried : List Handle}
    (sound : s.Sound next nodes fresh ((v, w :: untried) :: rest)) (distinct : nodes.Nodup)
    (called : w ∈ next v) (inside : w ∈ nodes) (old : w ∉ fresh) :
    (s.touch v w).Sound next nodes fresh ((v, untried) :: rest) := by
  unfold Survey.touch
  split
  · rename_i here
    have lowered := sound.lower distinct (v := v) (by simp) ⟨w, here, rfl, .single called⟩
    have onStack := sound.tower.mem_of_open (v := v) (by simp)
    refine { lowered with tower := lowered.tower.step (.inr ⟨here, ?_⟩) }
    rw [lowOf_lower (sound.marked v onStack).1, if_pos rfl]
    exact Nat.min_le_right ..
  · rename_i gone
    have found := sound.partition.mem_iff.2 inside
    refine { sound with tower := sound.tower.step (.inl ?_) }
    simpa [old, gone] using found

/-- The top layer of the stack: the node `v` has been through all its successors. -/
structure Top (next : Handle → List Handle) (s : Survey) (rest : List (Handle × List Handle))
    (above : List Handle) (v : Handle) (below : List Handle) : Prop where
  stack : s.stack = above ++ v :: below
  seen : s.Seen v (next v)
  finished : ∀ w ∈ above, s.Finished next v w
  tower : s.Tower next rest below
  higher : ∀ w ∈ above, s.numberOf v < s.numberOf w
  lower : ∀ w ∈ below, s.numberOf w < s.numberOf v

theorem Sound.exists_top (sound : s.Sound next nodes fresh ((v, []) :: rest)) :
    ∃ above below, s.Top next rest above v below := by
  have tower := sound.tower
  have order := sound.descending
  generalize stack : s.stack = l at tower order
  cases tower with
  | @frame _ tried _ above below _ called split seen finished tower =>
      obtain ⟨-, deeper, higher⟩ := List.pairwise_append.1 order
      have all : next v = tried := by simpa using split
      exact ⟨above, below, stack, all ▸ seen, finished, tower, fun w listed => higher w listed v (by simp),
        (List.pairwise_cons.1 deeper).1⟩

section Top

variable {above below : List Handle} (top : s.Top next rest above v below)

include top

theorem Top.mem_stack : w ∈ s.stack ↔ w ∈ above ++ [v] ∨ w ∈ below := by
  simp [top.stack, or_assoc]

/-- The nodes from `v` upwards are those with at least its number. -/
theorem Top.mem_component (here : w ∈ s.stack) (number : s.numberOf v ≤ s.numberOf w) :
    w ∈ above ++ [v] := by
  rcases top.mem_stack.1 here with high | low
  · exact high
  · exact absurd number (Nat.not_le_of_gt (top.lower w low))

/-- From the layer of a node that leads nowhere below it, no node leads below it. -/
theorem Top.le_lowOf (root : s.lowOf v = s.numberOf v) (listed : w ∈ above ++ [v]) :
    s.numberOf v ≤ s.lowOf w := by
  rcases List.mem_append.1 listed with high | own
  · exact root ▸ (top.finished w high).above
  · rw [List.mem_singleton.1 own, root]

theorem Top.reaches (listed : w ∈ above ++ [v]) : Reaches next v w := by
  rcases List.mem_append.1 listed with high | own
  · exact (top.finished w high).found
  · rw [List.mem_singleton.1 own]

/-- Each node of the layer leads to a lower one, hence to `v` in the end. -/
theorem Top.reaches_root (root : s.lowOf v = s.numberOf v)
    (leads : ∀ w ∈ s.stack, ∃ x ∈ s.stack, s.numberOf x = s.lowOf w ∧ Reaches next w x)
    (listed : w ∈ above ++ [v]) : Reaches next w v := by
  induction number : s.numberOf w using Nat.strong_induction_on generalizing w with
  | _ n ih =>
      rcases List.mem_append.1 listed with high | own
      · obtain ⟨x, here, marked, reaches⟩ := leads w (top.mem_stack.2 (.inl listed))
        have inside := top.mem_component here (marked ▸ top.le_lowOf root listed)
        have less : s.numberOf x < n := number ▸ marked ▸ (top.finished w high).below
        exact reaches.trans (ih _ less inside rfl)
      · rw [List.mem_singleton.1 own]

theorem Top.calls (root : s.lowOf v = s.numberOf v) (listed : w ∈ above ++ [v]) {x : Handle}
    (called : x ∈ next w) : x ∈ above ++ [v] ∨ x ∈ s.closed.flatten := by
  have seen : s.Seen w (next w) := by
    rcases List.mem_append.1 listed with high | own
    · exact (top.finished w high).seen
    · rw [List.mem_singleton.1 own]
      exact top.seen
  rcases seen x called with gone | ⟨here, bound⟩
  · exact .inr gone
  · exact .inl (top.mem_component here ((top.le_lowOf root listed).trans bound))

theorem Top.stack_close : (s.close v).stack = below := by
  have other : ∀ w ∈ above, decide (w ≠ v) = true :=
    fun w listed => decide_eq_true fun same => (top.higher w listed).ne (same ▸ rfl)
  rw [close, top.stack]
  dsimp only
  rw [List.dropWhile_append_of_pos other]
  simp

theorem Top.closed_close : (s.close v).closed = s.closed ++ [above ++ [v]] := by
  have other : ∀ w ∈ above, decide (w ≠ v) = true :=
    fun w listed => decide_eq_true fun same => (top.higher w listed).ne (same ▸ rfl)
  rw [close, top.stack]
  dsimp only
  rw [List.takeWhile_append_of_pos other]
  simp

end Top

/-- The nodes from `v` upwards form a component when the low mark of `v` is its number. -/
theorem Sound.close (sound : s.Sound next nodes fresh ((v, []) :: rest)) (distinct : nodes.Nodup)
    (root : s.lowOf v = s.numberOf v) : (s.close v).Sound next nodes fresh rest := by
  obtain ⟨above, below, top⟩ := sound.exists_top
  have within : ∀ w ∈ (s.close v).stack, w ∈ s.stack := by
    intro w listed
    rw [top.stack_close] at listed
    exact top.mem_stack.2 (.inr listed)
  have sublist : (s.close v).stack.Sublist s.stack := by
    rw [top.stack_close, top.stack]
    simp
  refine ⟨?_, sound.unnumbered, fun w listed => sound.numbered w (within w listed),
    fun w listed => sound.marked w (within w listed), sound.descending.sublist sublist,
    fun w listed => ?_, ?_, ?_⟩
  · rw [top.stack_close, top.closed_close]
    refine List.Perm.trans (List.Perm.append_left fresh ?_) sound.partition
    rw [top.stack, List.perm_iff_count]
    intro w
    simp only [List.flatten_append, List.flatten_cons, List.flatten_nil, List.append_nil,
      List.count_append, List.count_cons, List.count_nil]
    omega
  · obtain ⟨x, here, marked, reaches⟩ := sound.leads w (within w listed)
    refine ⟨x, ?_, marked, reaches⟩
    rw [top.stack_close] at listed ⊢
    have bound : s.numberOf x < s.numberOf v :=
      (marked.trans_le (sound.marked w (top.mem_stack.2 (.inr listed))).2).trans_lt (top.lower w listed)
    rcases top.mem_stack.1 here with high | low
    · rcases List.mem_append.1 high with high | own
      · exact absurd bound (top.higher x high).asymm
      · rw [List.mem_singleton.1 own] at bound
        exact absurd bound (Nat.lt_irrefl _)
    · exact low
  · rw [top.stack_close]
    have kept : ∀ w ∈ s.stack, w ∈ (s.close v).closed.flatten ∨ w ∈ (s.close v).stack := by
      intro w here
      rw [top.stack_close, top.closed_close]
      rcases top.mem_stack.1 here with high | low
      · exact .inl (by simp [high])
      · exact .inr low
    have once : (s.close v).stack.Nodup := (sound.parts distinct).2.1.sublist sublist
    refine top.tower.mono (top.stack_close ▸ once) (fun w gone => ?_)
      (fun w here => (kept w here).imp_right fun here => ⟨here, rfl⟩) (fun w _ => rfl)
      (fun w _ => le_rfl) fun w _ _ => rfl
    rw [top.closed_close]
    simp [gone]
  · rw [top.closed_close]
    refine sound.calleesFirst.snoc (fun w listed x listed' => ?_)
      fun w listed x called => top.calls root listed called
    exact (top.reaches_root root sound.leads listed).trans (top.reaches listed')

/-- A node that is through closes its component or joins the layer of its parent. -/
theorem Sound.settle (sound : s.Sound next nodes fresh ((v, []) :: rest)) (distinct : nodes.Nodup)
    (marked : ∀ p ∈ rest.head?.map Prod.fst, s.lowOf p ≤ s.lowOf v) :
    (if s.lowOf v = s.numberOf v then s.close v else s).Sound next nodes fresh rest := by
  split
  · rename_i root
    exact sound.close distinct root
  · rename_i noRoot
    have here : v ∈ s.stack := sound.tower.mem_of_open (by simp)
    have below : s.lowOf v < s.numberOf v := Nat.lt_of_le_of_ne (sound.marked v here).2 noRoot
    cases rest with
    | cons frame rest =>
        obtain ⟨p, untried⟩ := frame
        exact { sound with tower := sound.tower.merge below (marked p rfl) }
    | nil =>
        -- The last open node leads to nothing below it, as nothing stands below it.
        obtain ⟨above, deeper, top⟩ := sound.exists_top
        obtain ⟨w, onStack, number, -⟩ := sound.leads v here
        have bottom : deeper = [] := by
          have tower := top.tower
          cases tower
          rfl
        rcases top.mem_stack.1 onStack with high | low
        · rcases List.mem_append.1 high with high | own
          · exact absurd (number.trans_lt below) (top.higher w high).asymm
          · rw [List.mem_singleton.1 own] at number
            exact absurd number.symm noRoot
        · simp [bottom] at low

theorem Sound.leave (sound : s.Sound next nodes fresh ((v, []) :: rest)) (distinct : nodes.Nodup) :
    (s.leave v (rest.head?.map Prod.fst)).Sound next nodes fresh rest := by
  have here : v ∈ s.stack := sound.tower.mem_of_open (by simp)
  have decided : ∀ t : Survey, t.number = s.number → t.lowOf v = s.lowOf v →
      (if t.number.get? v = some (s.low.getD v 0) then t.close v else t) =
        if t.lowOf v = t.numberOf v then t.close v else t := by
    intro t number low
    have known : t.number.get? v = some (t.numberOf v) := by
      rw [numberOf, number]
      exact (sound.numbered v here).1
    rw [known, low]
    simp only [Option.some.injEq, eq_comm (a := t.numberOf v)]
    rfl
  cases rest with
  | nil =>
      have settled := sound.settle distinct (by simp)
      rwa [← decided s rfl rfl] at settled
  | cons frame rest =>
      obtain ⟨p, untried⟩ := frame
      have called : v ∈ next p := by
        have tower := sound.tower
        generalize s.stack = l at tower
        cases tower with
        | frame called => exact called p rfl
      have apart : v ≠ p := by
        obtain ⟨above, below, top⟩ := sound.exists_top
        have lower := top.lower p (top.tower.mem_of_open (by simp))
        exact fun same => lower.ne (same ▸ rfl)
      obtain ⟨w, onStack, number, reaches⟩ := sound.leads v here
      have lowered : (s.lower p (s.lowOf v)).Sound next nodes fresh ((v, []) :: (p, untried) :: rest) :=
        sound.lower distinct (by simp) ⟨w, onStack, number, .head called reaches⟩
      have mark := (sound.marked p (sound.tower.mem_of_open (by simp))).1
      have own : (s.lower p (s.lowOf v)).lowOf v = s.lowOf v := by rw [lowOf_lower mark, if_neg apart]
      have settled := lowered.settle distinct fun q isParent => by
        obtain rfl : p = q := by simpa using isParent
        rw [own, lowOf_lower mark, if_pos rfl]
        exact Nat.min_le_right ..
      rwa [← decided (s.lower p (s.lowOf v)) rfl own] at settled

/-! ## The whole walk -/

theorem sound_start (nodes : List Handle) : ({} : Survey).Sound next nodes nodes [] where
  partition := by simp
  unnumbered _ _ := rfl
  numbered := by simp
  marked := by simp
  descending := .nil
  leads := by simp
  tower := .nil
  calleesFirst := .nil

theorem Sound.enter_root (sound : s.Sound next nodes fresh []) (distinct : nodes.Nodup)
    (new : v ∈ fresh) : (s.enter v).Sound next nodes (fresh.erase v) [(v, next v)] := by
  have bottom : s.stack = [] := by
    have tower := sound.tower
    generalize s.stack = l at tower
    cases tower
    rfl
  exact sound.enter distinct new (by simp) (bottom ▸ .nil)

theorem Sound.enter_callee {untried : List Handle}
    (sound : s.Sound next nodes fresh ((v, w :: untried) :: rest)) (distinct : nodes.Nodup)
    (new : w ∈ fresh) :
    (s.enter w).Sound next nodes (fresh.erase w) ((w, next w) :: (v, untried) :: rest) := by
  have called := sound.tower.called_of_untried
  refine sound.enter distinct new (by simpa using called) ?_
  have onStack := sound.tower.mem_of_open (v := v) (by simp)
  have apart : v ≠ w := fun same => (sound.parts distinct).2.2 w new (same ▸ onStack)
  refine (sound.tower_enter distinct new).step (.inr ⟨.head _, ?_⟩)
  rw [lowOf_enter, if_neg apart, numberOf_enter, if_pos rfl]
  exact (sound.marked v onStack).2.trans (sound.numbered v onStack).2.le

theorem Sound.touch_callee {untried : List Handle}
    (sound : s.Sound next nodes fresh ((v, w :: untried) :: rest)) (distinct : nodes.Nodup)
    (inside : ∀ v ∈ nodes, ∀ w ∈ next v, w ∈ nodes) (old : w ∉ fresh) :
    (s.touch v w).Sound next nodes fresh ((v, untried) :: rest) := by
  have called := sound.tower.called_of_untried
  have onStack := sound.tower.mem_of_open (v := v) (by simp)
  have node : v ∈ nodes := sound.partition.mem_iff.1 (by simp [onStack])
  exact sound.touch distinct called (inside v node w called) old

/-- The walk ends with all nodes in components. -/
theorem Sound.walk {roots : List Handle} (distinct : nodes.Nodup)
    (inside : ∀ v ∈ nodes, ∀ w ∈ next v, w ∈ nodes) (sound : s.Sound next nodes fresh frames)
    (rooted : ∀ v ∈ fresh, v ∈ roots) :
    (Survey.walk next fresh roots frames s).Sound next nodes [] [] := by
  fun_induction Survey.walk next fresh roots frames s with
  | case1 fresh s =>
      have none : fresh = [] := List.eq_nil_iff_forall_not_mem.2 fun v new => by simpa using rooted v new
      exact none ▸ sound
  | case2 fresh s v roots new ih =>
      refine ih (sound.enter_root distinct new) fun w listed => ?_
      have nodup := (sound.parts distinct).1
      have apart : w ≠ v := fun same => nodup.not_mem_erase (same ▸ listed)
      simpa [apart] using rooted w (List.mem_of_mem_erase listed)
  | case3 fresh s v roots old ih =>
      refine ih sound fun w listed => ?_
      have apart : w ≠ v := fun same => old (same ▸ listed)
      simpa [apart] using rooted w listed
  | case4 fresh roots s v rest ih => exact ih (sound.leave distinct) rooted
  | case5 fresh roots s v w untried rest new ih =>
      exact ih (sound.enter_callee distinct new) fun x listed =>
        rooted x (List.mem_of_mem_erase listed)
  | case6 fresh roots s v w untried rest old ih =>
      exact ih (sound.touch_callee distinct inside old) rooted

end Survey

/-! ## Components and visiting order -/

/-- Nothing in a later component is called from an earlier one. -/
theorem CalleesFirst.pairwise {next : Handle → List Handle} {components : List (List Handle)}
    (first : CalleesFirst next components) (distinct : components.flatten.Nodup) :
    components.Pairwise fun component later => ∀ v ∈ component, ∀ w ∈ later, w ∉ next v := by
  induction components using List.reverseRecOn with
  | nil => exact .nil
  | append_singleton components last ih =>
      rw [List.flatten_append, List.flatten_singleton] at distinct
      obtain ⟨before, -, apart⟩ := List.nodup_append.1 distinct
      have earlierFirst : CalleesFirst next components := fun earlier component later split =>
        first earlier component (later ++ [last]) (by simp [split])
      refine List.pairwise_append.2 ⟨ih earlierFirst before, List.pairwise_singleton .., ?_⟩
      intro component listed other isLast v hv w hw called
      obtain rfl := List.mem_singleton.1 isLast
      obtain ⟨earlier, later, rfl⟩ := List.append_of_mem listed
      refine apart w (List.mem_flatten.2 ?_) w hw rfl
      rcases (first earlier component (later ++ [other]) (by simp)).2 v hv w called with own | before
      · exact ⟨component, listed, own⟩
      · obtain ⟨c, hc, hw⟩ := List.mem_flatten.1 before
        exact ⟨c, by simp [hc], hw⟩

namespace CallGraph

/-- The nodes are listed once, and calls stay within them. -/
structure Closed (g : CallGraph) : Prop where
  distinct : g.nodes.Nodup
  inside : ∀ v ∈ g.nodes, ∀ w ∈ g.callees v, w ∈ g.nodes

variable {g : CallGraph}

theorem sound_walk (closed : g.Closed) :
    (Survey.walk g.callees g.nodes g.nodes [] {}).Sound g.callees g.nodes [] [] :=
  (Survey.sound_start g.nodes).walk closed.distinct closed.inside fun _ => id

/-- Every node is in exactly one component. -/
theorem flatten_components (closed : g.Closed) : g.components.flatten.Perm g.nodes := by
  have sound := sound_walk closed
  have partition := sound.partition
  have tower := sound.tower
  generalize stack : (Survey.walk g.callees g.nodes g.nodes [] {}).stack = l at tower
  cases tower
  rwa [stack] at partition

theorem calleesFirst_components (closed : g.Closed) : CalleesFirst g.callees g.components :=
  (sound_walk closed).calleesFirst

/-- Among the nodes, in their order, are all members of a component. -/
theorem perm_of_mem_components (closed : g.Closed) {component : List Handle}
    (listed : component ∈ g.components) :
    (g.nodes.filter fun f => f ∈ component).Perm component := by
  have flat := flatten_components closed
  have distinct := flat.nodup_iff.2 closed.distinct
  have members : ∀ v ∈ component, v ∈ g.nodes :=
    fun v hv => flat.mem_iff.1 (List.mem_flatten.2 ⟨component, listed, hv⟩)
  refine (List.perm_ext_iff_of_nodup (closed.distinct.filter _)
    ((List.nodup_flatten.1 distinct).1 component listed)).2 fun v => ?_
  simpa using members v

/-- The order of visits lists each node once. -/
theorem bottomUp_perm (closed : g.Closed) : g.bottomUp.Perm g.nodes := by
  refine List.Perm.trans ?_ (flatten_components closed)
  rw [bottomUp, ← List.flatMap_id]
  exact List.Perm.flatMap_left _ fun component listed => perm_of_mem_components closed listed

/-- Where a node stands in front of one that it calls, that one leads back to it. -/
theorem pairwise_bottomUp (closed : g.Closed) :
    g.bottomUp.Pairwise fun v w => w ∈ g.callees v → Reaches g.callees w v := by
  have first := calleesFirst_components closed
  have distinct := (flatten_components closed).nodup_iff.2 closed.distinct
  refine List.pairwise_flatMap.2 ⟨fun component listed => ?_, ?_⟩
  · obtain ⟨earlier, later, split⟩ := List.append_of_mem listed
    refine List.Pairwise.imp_of_mem (R := fun _ _ => True) (fun {v w} hv hw _ _ => ?_)
      (List.pairwise_of_forall fun _ _ => trivial)
    exact (first earlier component later split).1 w (by simpa using (List.mem_filter.1 hw).2) v
      (by simpa using (List.mem_filter.1 hv).2)
  · refine (first.pairwise distinct).imp fun {component later} apart v hv w hw called => ?_
    exact absurd called (apart v (by simpa using (List.mem_filter.1 hv).2) w
      (by simpa using (List.mem_filter.1 hw).2))

/-- No node leads back to itself. -/
def Acyclic (g : CallGraph) : Prop :=
  ∀ v, ¬Relation.TransGen (fun v w => w ∈ g.callees v) v v

/-- Without recursion no node stands in front of one that it calls. -/
theorem Acyclic.pairwise_bottomUp (acyclic : g.Acyclic) (closed : g.Closed) :
    g.bottomUp.Pairwise fun v w => w ∉ g.callees v :=
  (CallGraph.pairwise_bottomUp closed).imp fun {v w} back called =>
    acyclic v (Relation.TransGen.head' (b := w) called (back called))

end CallGraph

end ErrorContracts
