import ErrorContracts.Proofs.VisitOrder

/-!
# Components and the order that they give

The walk for components is a loop: while a frame is open it tries the next call of the node on top,
and then it goes on with the next root.  Here it is given as a relation between where the loop begins
and where it ends, in which a node is new if it has no number yet.  So a loop that runs for ever is
related to nothing.  Over the call graph of any functions the loop ends, and the components that it
has closed are the classes of mutual reachability, callees first.  The functions are then visited
component by component, those of one component in the order in which they are listed.
-/

namespace ErrorContracts

namespace Survey

/-- The walk from the open frames and the remaining roots ends with the survey `t`. -/
inductive Walks (next : Handle → List Handle) :
    List Handle → List (Handle × List Handle) → Survey → Survey → Prop where
  | done (s : Survey) : Walks next [] [] s s
  | root {v : Handle} {roots : List Handle} {s t : Survey} (new : s.number.get? v = none)
      (onward : Walks next roots [(v, next v)] (s.enter v) t) : Walks next (v :: roots) [] s t
  | skip {v : Handle} {roots : List Handle} {s t : Survey} (old : s.number.get? v ≠ none)
      (onward : Walks next roots [] s t) : Walks next (v :: roots) [] s t
  | leave {v : Handle} {roots : List Handle} {rest : List (Handle × List Handle)} {s t : Survey}
      (onward : Walks next roots rest (s.leave v (rest.head?.map Prod.fst)) t) :
      Walks next roots ((v, []) :: rest) s t
  | enter {v w : Handle} {roots untried : List Handle} {rest : List (Handle × List Handle)}
      {s t : Survey} (new : s.number.get? w = none)
      (onward : Walks next roots ((w, next w) :: (v, untried) :: rest) (s.enter w) t) :
      Walks next roots ((v, w :: untried) :: rest) s t
  | touch {v w : Handle} {roots untried : List Handle} {rest : List (Handle × List Handle)}
      {s t : Survey} (old : s.number.get? w ≠ none)
      (onward : Walks next roots ((v, untried) :: rest) (s.touch v w) t) :
      Walks next roots ((v, w :: untried) :: rest) s t

variable {next : Handle → List Handle} {nodes fresh roots : List Handle}
  {frames : List (Handle × List Handle)} {s : Survey} {v : Handle}

@[simp]
theorem number_touch (s : Survey) (v w : Handle) : (s.touch v w).number = s.number := by
  unfold touch
  split <;> rfl

@[simp]
theorem number_leave (s : Survey) (v : Handle) (parent : Option Handle) :
    (s.leave v parent).number = s.number := by
  unfold leave
  cases parent <;> dsimp only <;> split <;> rfl

/-- The fresh nodes are those without a number. -/
structure Tracks (nodes fresh : List Handle) (s : Survey) : Prop where
  distinct : fresh.Nodup
  unnumbered : ∀ v ∈ nodes, v ∈ fresh ↔ s.number.get? v = none

theorem Tracks.enter (tracks : s.Tracks nodes fresh) (v : Handle) :
    (s.enter v).Tracks nodes (fresh.erase v) where
  distinct := tracks.distinct.erase v
  unnumbered w node := by
    change w ∈ fresh.erase v ↔ (s.number.insert v s.number.size).get? w = none
    rw [tracks.distinct.mem_erase_iff, SortedMap.get?_insert, tracks.unnumbered w node]
    split
    · simp_all
    · simp_all

theorem Tracks.of_number {t : Survey} (tracks : s.Tracks nodes fresh)
    (same : t.number = s.number) : t.Tracks nodes fresh where
  distinct := tracks.distinct
  unnumbered v node := by
    rw [same]
    exact tracks.unnumbered v node

/-- Over nodes whose calls stay within them, the loop ends as the walk does. -/
theorem Tracks.walks (inside : ∀ v ∈ nodes, ∀ w ∈ next v, w ∈ nodes)
    (tracks : s.Tracks nodes fresh) (rooted : ∀ v ∈ roots, v ∈ nodes)
    (framed : ∀ frame ∈ frames, ∀ w ∈ frame.2, w ∈ nodes) :
    Walks next roots frames s (walk next fresh roots frames s) := by
  fun_induction walk next fresh roots frames s with
  | case1 fresh s => exact .done s
  | case2 fresh s v roots new ih =>
      obtain ⟨node, others⟩ := List.forall_mem_cons.1 rooted
      exact .root ((tracks.unnumbered v node).1 new)
        (ih (tracks.enter v) others (by simpa using inside v node))
  | case3 fresh s v roots old ih =>
      obtain ⟨node, others⟩ := List.forall_mem_cons.1 rooted
      exact .skip (mt (tracks.unnumbered v node).2 old) (ih tracks others framed)
  | case4 fresh roots s v rest ih =>
      exact .leave (ih (tracks.of_number (number_leave ..)) rooted (List.forall_mem_cons.1 framed).2)
  | case5 fresh roots s v w untried rest new ih =>
      obtain ⟨calls, below⟩ := List.forall_mem_cons.1 framed
      obtain ⟨node, untried⟩ := List.forall_mem_cons.1 calls
      exact .enter ((tracks.unnumbered w node).1 new) (ih (tracks.enter w) rooted
        (List.forall_mem_cons.2 ⟨inside w node, List.forall_mem_cons.2 ⟨untried, below⟩⟩))
  | case6 fresh roots s v w untried rest old ih =>
      obtain ⟨calls, below⟩ := List.forall_mem_cons.1 framed
      obtain ⟨node, untried⟩ := List.forall_mem_cons.1 calls
      exact .touch (mt (tracks.unnumbered w node).2 old) (ih (tracks.of_number (number_touch ..))
        rooted (List.forall_mem_cons.2 ⟨untried, below⟩))

theorem closed_leave (s : Survey) (v : Handle) (parent : Option Handle) :
    (s.leave v parent).closed = s.closed ∨
      ∃ above, (s.leave v parent).closed = s.closed ++ [above ++ [v]] := by
  unfold leave
  cases parent <;> dsimp only <;> split
  · exact .inr ⟨_, rfl⟩
  · exact .inl rfl
  · exact .inr ⟨_, rfl⟩
  · exact .inl rfl

/-- No component is closed without the node that closes it. -/
theorem ne_nil_of_mem_closed (nonempty : ∀ c ∈ s.closed, c ≠ []) :
    ∀ c ∈ (walk next fresh roots frames s).closed, c ≠ [] := by
  fun_induction walk next fresh roots frames s with
  | case1 fresh s => exact nonempty
  | case2 fresh s v roots new ih => exact ih nonempty
  | case3 fresh s v roots old ih => exact ih nonempty
  | case4 fresh roots s v rest ih =>
      refine ih fun c listed => ?_
      rcases closed_leave s v (rest.head?.map Prod.fst) with same | ⟨above, more⟩
      · exact nonempty c (same ▸ listed)
      · rw [more, List.mem_append, List.mem_singleton] at listed
        rcases listed with old | rfl
        · exact nonempty c old
        · simp
  | case5 fresh roots s v w untried rest new ih => exact ih nonempty
  | case6 fresh roots s v w untried rest old ih =>
      refine ih ?_
      unfold touch
      split <;> exact nonempty

end Survey

/-! ## What components have in common -/

section Prefixes

variable {next : Handle → List Handle} {components front back : List (List Handle)}

/-- From the first components nothing leads to the others. -/
theorem CalleesFirst.reaches (first : CalleesFirst next components)
    (split : components = front ++ back) {v w : Handle} (early : v ∈ front.flatten)
    (leads : Reaches next v w) : w ∈ front.flatten := by
  induction leads with
  | refl => exact early
  | tail _ called ih =>
      obtain ⟨c, listed, member⟩ := List.mem_flatten.1 ih
      obtain ⟨earlier, later, rfl⟩ := List.append_of_mem listed
      rcases (first earlier c (later ++ back) (by simp [split])).2 _ member _ called with own | before
      · exact List.mem_flatten.2 ⟨c, listed, own⟩
      · rw [List.flatten_append]
        exact List.mem_append_left _ before

/-- A node is in one component only. -/
theorem eq_of_mem_components (once : components.flatten.Nodup) {c d : List Handle} {v : Handle}
    (listed : c ∈ components) (listed' : d ∈ components) (here : v ∈ c) (there : v ∈ d) : c = d := by
  have symmetric : Std.Symm (List.Disjoint (α := Handle)) := ⟨fun _ _ => List.Disjoint.symm⟩
  by_contra other
  exact (List.nodup_flatten.1 once).2.forall listed listed' other here there

/-- Nodes that lead to each other are in the same component. -/
theorem CalleesFirst.mem_of_mutual (first : CalleesFirst next components)
    (once : components.flatten.Nodup) {c : List Handle} {v w : Handle} (listed : c ∈ components)
    (here : v ∈ c) (leads : Reaches next v w) (back : Reaches next w v) : w ∈ c := by
  obtain ⟨earlier, later, split⟩ := List.append_of_mem listed
  have ahead : components = (earlier ++ [c]) ++ later := by simp [split]
  have early : w ∈ (earlier ++ [c]).flatten := first.reaches ahead (by simp [here]) leads
  rw [List.flatten_append, List.flatten_singleton, List.mem_append] at early
  rcases early with before | own
  · -- what `w` leads to stands before `c` then, but `v` does not
    rw [split, List.flatten_append] at once
    have again := first.reaches split before back
    exact (List.disjoint_of_nodup_append once again (by simp [here])).elim
  · exact own

end Prefixes

namespace CallGraph

/-- The components are the classes of mutual reachability, what is called in front. -/
structure IsCondensation (g : CallGraph) (components : List (List Handle)) : Prop where
  nonempty : ∀ c ∈ components, c ≠ []
  once : components.flatten.Nodup
  covers : ∀ f, f ∈ components.flatten ↔ f ∈ g.nodes
  shared : ∀ f ∈ g.nodes, ∀ h ∈ g.nodes, (∃ c ∈ components, f ∈ c ∧ h ∈ c) ↔
    Reaches g.callees f h ∧ Reaches g.callees h f
  calleesFirst : ∀ e ∈ g.edges, ∀ c ∈ components, ∀ d ∈ components, e.caller ∈ c → e.callee ∈ d →
    c ≠ d → [d, c].Sublist components

/--
The order lists each node once, component by component and the nodes of one component in their own
order, so that what is called stands in front unless it leads back.
-/
structure Arranges (g : CallGraph) (components : List (List Handle)) (order : List Handle) : Prop
    where
  once : order.Nodup
  covers : ∀ f, f ∈ order ↔ f ∈ g.nodes
  calleesFirst : ∀ e ∈ g.edges, ¬Reaches g.callees e.callee e.caller →
    [e.callee, e.caller].Sublist order
  grouped : ∃ groups, order = groups.flatten ∧ List.Forall₂
    (fun group component => group.Perm component ∧ group.Sublist g.nodes) groups components

variable {g : CallGraph}

theorem mem_callees_of_edge {e : CallEdge} (edge : e ∈ g.edges) : e.callee ∈ g.callees e.caller :=
  List.mem_map.2 ⟨e, List.mem_filter.2 ⟨edge, by simp⟩, rfl⟩

theorem isCondensation_components (closed : g.Closed) : g.IsCondensation g.components := by
  have flat := flatten_components closed
  have once := flat.nodup_iff.2 closed.distinct
  have first := calleesFirst_components closed
  refine ⟨Survey.ne_nil_of_mem_closed (by simp), once, fun f => flat.mem_iff, ?_, ?_⟩
  · intro f node h _
    constructor
    · rintro ⟨c, listed, here, there⟩
      obtain ⟨earlier, later, split⟩ := List.append_of_mem listed
      have connected := (first earlier c later split).1
      exact ⟨connected f here h there, connected h there f here⟩
    · rintro ⟨leads, back⟩
      obtain ⟨c, listed, here⟩ := List.mem_flatten.1 (flat.mem_iff.2 node)
      exact ⟨c, listed, here, first.mem_of_mutual once listed here leads back⟩
  · intro e edge c listed d listed' here there other
    obtain ⟨earlier, later, split⟩ := List.append_of_mem listed
    rcases (first earlier c later split).2 _ here _ (mem_callees_of_edge edge) with own | before
    · exact absurd (eq_of_mem_components once listed listed' own there) other
    · obtain ⟨d', inside, there'⟩ := List.mem_flatten.1 before
      obtain rfl : d' = d :=
        eq_of_mem_components once (by simp [split, inside]) listed' there' there
      rw [split]
      exact (List.singleton_sublist.2 inside).append (by simp)

theorem arranges_bottomUp (closed : g.Closed)
    (within : ∀ e ∈ g.edges, e.caller ∈ g.nodes) : g.Arranges g.components g.bottomUp := by
  have perm := bottomUp_perm closed
  refine ⟨perm.nodup_iff.2 closed.distinct, fun f => perm.mem_iff, ?_, ?_⟩
  · intro e edge apart
    have caller := within e edge
    have called := mem_callees_of_edge edge
    obtain ⟨before, after, split⟩ :=
      List.append_of_mem (perm.mem_iff.2 (closed.inside _ caller _ called))
    have order := pairwise_bottomUp closed
    have placed := perm.mem_iff.2 caller
    rw [split] at order placed ⊢
    rcases List.mem_append.1 placed with early | late
    · exact absurd ((List.pairwise_append.1 order).2.2 _ early _ List.mem_cons_self called) apart
    · rcases List.mem_cons.1 late with same | late
      · exact absurd (same ▸ .refl) apart
      · exact ((List.singleton_sublist.2 late).cons_cons _).trans (List.sublist_append_right ..)
  · refine ⟨g.components.map fun c => g.nodes.filter fun f => f ∈ c, ?_, ?_⟩
    · rw [bottomUp, List.flatMap_def]
    · rw [List.forall₂_map_left_iff, List.forall₂_same]
      exact fun c listed => ⟨perm_of_mem_components closed listed, List.filter_sublist⟩

/--
Whatever functions are listed and whatever their calls may reach, the walk for components ends.  The
components are the classes of mutual reachability, callees first, and the order of visits follows
them: it has each listed function once.
-/
theorem bottomUp_follows_components (m : Module) (calls : IndirectCalls) (functions : List Handle) :
    let g := ofFunctions m calls functions
    (g.nodes = functions.eraseDups ∧ ∀ f, f ∈ g.nodes ↔ f ∈ functions) ∧
      (∃ last, Survey.Walks g.callees g.nodes [] {} last ∧ last.closed = g.components) ∧
      g.IsCondensation g.components ∧ g.Arranges g.components g.bottomUp := by
  intro g
  have closed : g.Closed := closed_ofFunctions
  have tracks : ({} : Survey).Tracks g.nodes g.nodes :=
    ⟨closed.distinct, fun v node => ⟨fun _ => rfl, fun _ => node⟩⟩
  have within : ∀ e ∈ g.edges, e.caller ∈ g.nodes := by
    intro e edge
    have listed := (mem_callees.1 (mem_callees_of_edge edge)).1
    simpa [g, ofFunctions] using listed
  refine ⟨⟨rfl, fun f => by simp [g, ofFunctions]⟩, ⟨_, ?_, rfl⟩,
    isCondensation_components closed, arranges_bottomUp closed within⟩
  exact tracks.walks closed.inside (fun _ node => node) (by simp)

end CallGraph

end ErrorContracts
