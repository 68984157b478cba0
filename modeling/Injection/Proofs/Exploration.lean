import Injection.Cycle
import Injection.Proofs.Search

/-!
# The search as a recursion along paths

The search of a graph for cycles keeps frames and the edges between them, last ones first, and
skips beforehand the edges that it may not follow. It gives out what a plain recursion gives out:
one that has the path from its first node on, tries the edges of the last node in order, skips an
edge when it comes up, and cuts the path at the node that an edge leads back to.

## Main definitions

* `Graph.explore` — the recursion. It gives the nodes of a cycle, too.
* `Search.Aligned` — how the frames and the edges between them stand to each other.
* `Search.Steps` — one step of the search.
* `Search.records` — the cycles that are closed from a state on, with the nodes of their frames.
-/

namespace Injection

open Relation

/-! ## What a search holds -/

namespace Search

variable {order : Nat} {edges taken : List Edge} {frames : List Frame} {state after : Search}
  {found : List Edge}

/-- One step of a search, whatever it gives out. -/
def Steps (order : Nat) (edges : List Edge) (state after : Search) : Prop :=
  ∃ found, next? order edges state = some (found, after)

/-- The nodes of the frames are different, and what a frame has not tried are the last ones of the
edges that leave its node. There is one edge less than there are frames: each edge leaves the node
of a frame and leads to that of the frame on top of it. -/
structure Aligned (edges : List Edge) (state : Search) : Prop where
  distinct : (state.frames.map (·.node)).Nodup
  untried : ∀ frame ∈ state.frames, frame.untried <:+ leaving edges frame.node
  sources : state.taken.map (·.source) = (state.frames.map (·.node)).tail
  targets : state.taken.map (·.target) = (state.frames.map (·.node)).dropLast

theorem aligned_start (edges : List Edge) (node : Nat) : (start edges node).Aligned edges := by
  constructor <;> simp [start]

/-- A frame that is done is taken off together with the edge that leads to its node. -/
theorem Aligned.pop {frame : Frame} (h : Aligned edges ⟨frame :: frames, taken⟩) :
    Aligned edges ⟨frames, taken.tail⟩ := by
  obtain ⟨hdistinct, huntried, hsources, htargets⟩ := h
  refine ⟨(List.nodup_cons.mp hdistinct).2, fun f hf => huntried f (List.mem_cons_of_mem _ hf), ?_,
    ?_⟩
  · simpa using congrArg List.tail hsources
  · cases frames with
    | nil => simpa using congrArg List.tail htargets
    | cons => simpa using congrArg List.tail htargets

/-- An edge that has been tried is not tried again. -/
theorem Aligned.advance {node : Nat} {e : Edge} {untried : List Edge}
    (h : Aligned edges ⟨⟨node, e :: untried⟩ :: frames, taken⟩) :
    Aligned edges ⟨⟨node, untried⟩ :: frames, taken⟩ := by
  obtain ⟨hdistinct, huntried, hsources, htargets⟩ := h
  refine ⟨hdistinct, List.forall_mem_cons.mpr ⟨?_, ?_⟩, hsources, htargets⟩
  · exact (List.suffix_cons e untried).trans (huntried _ List.mem_cons_self)
  · exact fun f hf => huntried f (List.mem_cons_of_mem _ hf)

/-- An edge to a new node puts a frame on top, and the edge between the two frames. -/
theorem Aligned.push {frame : Frame} {e : Edge} (h : Aligned edges ⟨frame :: frames, taken⟩)
    (hsource : e.source = frame.node) (hnew : e.target ∉ (frame :: frames).map (·.node)) :
    Aligned edges ⟨⟨e.target, leaving edges e.target⟩ :: frame :: frames, e :: taken⟩ := by
  obtain ⟨hdistinct, huntried, hsources, htargets⟩ := h
  refine ⟨List.nodup_cons.mpr ⟨hnew, hdistinct⟩,
    List.forall_mem_cons.mpr ⟨List.suffix_rfl, huntried⟩, ?_, ?_⟩
  · simpa [hsource] using hsources
  · simpa using htargets

theorem Aligned.source_eq {node : Nat} {e : Edge} {untried : List Edge}
    (h : Aligned edges ⟨⟨node, e :: untried⟩ :: frames, taken⟩) : e.source = node :=
  (mem_leaving_iff.mp ((h.untried _ List.mem_cons_self).subset List.mem_cons_self)).2

/-- A step keeps frames and edges aligned. -/
theorem Aligned.next {given : Option (List Edge)} (h : state.Aligned edges)
    (hstep : next? order edges state = some (given, after)) : after.Aligned edges := by
  obtain ⟨frames, taken⟩ := state
  unfold next? at hstep
  split at hstep
  · cases hstep
  · next node below hframes =>
    subst hframes
    obtain ⟨-, rfl⟩ := Prod.mk.inj (Option.some.inj hstep)
    exact h.pop
  · next node e untried below hframes =>
    subst hframes
    simp only [findIdx?_frames] at hstep
    split at hstep
    · obtain ⟨-, rfl⟩ := Prod.mk.inj (Option.some.inj hstep)
      exact h.advance
    · next hout =>
      split at hstep
      · obtain ⟨-, rfl⟩ := Prod.mk.inj (Option.some.inj hstep)
        exact h.advance.push h.source_eq (by simpa using hout)
      · obtain ⟨-, rfl⟩ := Prod.mk.inj (Option.some.inj hstep)
        exact h.advance

/-- Frames and edges are aligned at any time. -/
theorem Aligned.of_steps (h : state.Aligned edges)
    (hsteps : ReflTransGen (Steps order edges) state after) : after.Aligned edges := by
  induction hsteps with
  | refl => exact h
  | tail _ hstep ih =>
    obtain ⟨given, hnext⟩ := hstep
    exact ih.next hnext

/-- The edges of a cycle leave the nodes of the frames on top, in their order. -/
theorem Aligned.map_source (h : state.Aligned edges)
    (hstep : next? order edges state = some (some found, after)) :
    found.map (·.source) = ((state.frames.take found.length).map (·.node)).reverse := by
  obtain ⟨frames, taken⟩ := state
  unfold next? at hstep
  split at hstep
  · cases hstep
  · cases hstep
  · next node e untried below hframes =>
    subst hframes
    simp only [findIdx?_frames] at hstep
    split at hstep
    · next depth hdepth =>
      obtain ⟨hfound, -⟩ := Prod.mk.inj (Option.some.inj hstep)
      obtain rfl := Option.some.inj hfound
      have hsources : taken.map (·.source) = below.map (·.node) := by simpa using h.sources
      have hlength : taken.length = below.length := by simpa using congrArg List.length hsources
      have hle : depth ≤ taken.length := by
        split at hdepth
        · next hmem =>
          obtain rfl := Option.some.inj hdepth
          rw [hlength, ← Nat.lt_succ_iff]
          simpa using List.idxOf_lt_length_of_mem hmem
        · cases hdepth
      have htake : (taken.take depth).length = depth := List.length_take_of_le hle
      rw [List.length_reverse, List.length_cons, htake, List.take_succ_cons, List.map_reverse,
        List.map_cons, List.map_cons, List.map_take, List.map_take, hsources, h.source_eq]
    · split at hstep <;> cases hstep

/-- The cycles that are closed from a state on, each with the nodes of the frames on top. -/
def records (order : Nat) (edges : List Edge) (state : Search) : List (List Nat × List Edge) :=
  match _h : next? order edges state with
  | none => []
  | some (none, after) => records order edges after
  | some (some found, after) =>
    (((state.frames.take found.length).map (·.node)).reverse, found) :: records order edges after
termination_by weight order (base edges) state.frames
decreasing_by all_goals exact weight_next_lt order edges _h

theorem records_of_next? {given : Option (List Edge)}
    (hstep : next? order edges state = some (given, after)) :
    records order edges state =
      (given.map fun found =>
        (((state.frames.take found.length).map (·.node)).reverse, found)).toList ++
          records order edges after := by
  rw [records]
  cases given <;> split <;> simp_all

/-- The nodes of the frames are those that the edges leave. -/
theorem Aligned.records_eq (h : state.Aligned edges) :
    records order edges state =
      (loops order edges state).map fun loop => (loop.map (·.source), loop) := by
  fun_induction records order edges state with
  | case1 state hnext =>
    rw [loops]
    split <;> simp_all
  | case2 state after hnext ih =>
    rw [loops]
    split <;> simp_all [h.next hnext]
  | case3 state found after hnext ih =>
    rw [loops]
    split <;> simp_all [h.next hnext, h.map_source hnext]

end Search

/-! ## The recursion along paths -/

/-- To see a new point last leaves fewer points unseen, too. -/
theorem Reach.unseen_append_lt {α : Type} [DecidableEq α] {all seen : List α} {a : α}
    (ha : a ∈ all) (hs : a ∉ seen) : unseen all (seen ++ [a]) < unseen all seen := by
  have hperm : unseen all (seen ++ [a]) = unseen all (a :: seen) := by
    simp [unseen, and_comm]
  exact hperm ▸ unseen_cons_lt ha hs

namespace Graph

variable {g : Graph} {components : List (Option Nat)} {exhausted before : List Nat}
  {taken : List Edge} {node : Nat}

/-- The edges that the search may follow. -/
def followed (g : Graph) (components : List (Option Nat)) (exhausted : List Nat) : List Edge :=
  g.edges.filter (follows components exhausted)

theorem leaving_followed (node : Nat) :
    Search.leaving (g.followed components exhausted) node =
      (g.edgesFrom node).filter (follows components exhausted) :=
  List.filter_comm _ _ _

/-- To leave out elements beforehand is to give nothing for them. -/
theorem flatMap_filter {α β : Type} (p : α → Bool) (f : α → List β) (list : List α) :
    (list.filter p).flatMap f = list.flatMap fun a => if p a then f a else [] := by
  induction list with
  | nil => rfl
  | cons a list ih => by_cases ha : p a <;> simp [ha, ih]

/-- The cycles that are closed by extending a path, each by its nodes and its edges. The path goes
through the nodes `before` along the edges `taken` to a node, and is extended by the edges that
leave this node, in order. An edge to a node of another component or to an exhausted node is
skipped. -/
def explore (g : Graph) (components : List (Option Nat)) (exhausted before : List Nat)
    (taken : List Edge) (node : Nat) : List (List Nat × List Edge) :=
  let path := before ++ [node]
  (g.edgesFrom node).attach.flatMap fun ⟨e, _he⟩ =>
    if components[e.source]? = components[e.target]? ∧ e.target ∉ exhausted then
      if e.target ∈ path then
        let place := path.idxOf e.target
        [(path.drop place, taken.drop place ++ [e])]
      else g.explore components exhausted path (taken ++ [e]) e.target
    else []
termination_by Reach.unseen (g.edges.map (·.target)) (before ++ [node])
decreasing_by
  exact Reach.unseen_append_lt (List.mem_map_of_mem (List.mem_filter.mp _he).1) ‹_›

/-- To skip an edge when it comes up is to leave it out beforehand. -/
theorem explore_eq (g : Graph) (components : List (Option Nat)) (exhausted before : List Nat)
    (taken : List Edge) (node : Nat) :
    g.explore components exhausted before taken node =
      (Search.leaving (g.followed components exhausted) node).flatMap fun e =>
        if e.target ∈ before ++ [node] then
          [((before ++ [node]).drop ((before ++ [node]).idxOf e.target),
            taken.drop ((before ++ [node]).idxOf e.target) ++ [e])]
        else g.explore components exhausted (before ++ [node]) (taken ++ [e]) e.target := by
  rw [explore, leaving_followed, flatMap_filter]
  simp only [follows_eq_true_iff]
  exact (List.flatMap_subtype fun _ _ => rfl).trans (congrArg _ List.unattach_attach)

/-- In a list without repetitions the places from the front and from the back add up. -/
theorem idxOf_reverse_add {path : List Nat} {n : Nat} (hnodup : path.Nodup) (hn : n ∈ path) :
    path.reverse.idxOf n + (path.idxOf n + 1) = path.length := by
  obtain ⟨front, back, rfl, hfront⟩ := List.eq_append_cons_of_mem hn
  have hback : n ∉ back.reverse := by
    have := (List.nodup_cons.mp (List.nodup_append.mp hnodup).2.1).1
    simpa using this
  rw [List.reverse_append, List.reverse_cons, List.append_assoc, List.singleton_append,
    List.idxOf_append_of_notMem hback, List.idxOf_append_of_notMem hfront]
  simp
  omega

/-- An edge back to the path cuts the nodes and the edges at the same place. -/
theorem cut_eq {edges : List Edge} {path : List Nat} {e : Edge}
    (h : SimplePath edges path taken) (hsource : path.head? = some e.source)
    (htarget : e.target ∈ path) :
    ((e :: taken.take (path.idxOf e.target)).reverse.map (·.source),
        (e :: taken.take (path.idxOf e.target)).reverse) =
      (path.reverse.drop (path.reverse.idxOf e.target),
        taken.reverse.drop (path.reverse.idxOf e.target) ++ [e]) := by
  have hplaces := idxOf_reverse_add h.nodup htarget
  obtain ⟨rest, rfl⟩ := List.head?_eq_some_iff.mp hsource
  have hsources := h.map_source
  have hlength : taken.length = rest.length := by simpa using congrArg List.length hsources
  rw [List.length_cons] at hplaces
  generalize (e.source :: rest).idxOf e.target = place at *
  generalize (e.source :: rest).reverse.idxOf e.target = place' at *
  have hnodes : (e.source :: rest).length - place' = place + 1 := by
    rw [List.length_cons]
    omega
  have hedges : taken.length - place' = place := by omega
  rw [Prod.mk.injEq, List.drop_reverse, List.drop_reverse, hnodes, hedges]
  refine ⟨?_, List.reverse_cons⟩
  rw [List.map_reverse, List.map_cons, List.map_take, hsources, List.take_succ_cons]

/-- The search with frames extends a path as the recursion does. -/
theorem extend_explores {path : List Nat} {untried : List Edge}
    (horder : ∀ e ∈ g.edges, e.target < g.order)
    (h : SimplePath (g.followed components exhausted) path taken)
    (huntried : ∀ e ∈ untried, e ∈ g.followed components exhausted ∧ path.head? = some e.source) :
    (Search.extend g.order (g.followed components exhausted) path taken untried).map
        (fun loop => (loop.map (·.source), loop)) =
      untried.flatMap fun e =>
        if e.target ∈ path.reverse then
          [(path.reverse.drop (path.reverse.idxOf e.target),
            taken.reverse.drop (path.reverse.idxOf e.target) ++ [e])]
        else g.explore components exhausted path.reverse (taken.reverse ++ [e]) e.target := by
  fun_induction Search.extend g.order (g.followed components exhausted) path taken untried with
  | case1 => rfl
  | case2 path taken e untried hmem ih =>
    obtain ⟨⟨he, hsource⟩, hrest⟩ := List.forall_mem_cons.mp huntried
    rw [List.map_cons, List.flatMap_cons, ih h hrest, if_pos (List.mem_reverse.mpr hmem),
      cut_eq h hsource hmem, List.singleton_append]
  | case3 path taken e untried hout hlt ih1 ih2 =>
    obtain ⟨⟨he, hsource⟩, hrest⟩ := List.forall_mem_cons.mp huntried
    obtain ⟨below, rfl⟩ := List.head?_eq_some_iff.mp hsource
    have hleaving := ih1 (h.step he hout) fun f hf => by
      obtain ⟨hf, hfs⟩ := Search.mem_leaving_iff.mp hf
      exact ⟨hf, by simp [hfs]⟩
    rw [List.map_append, List.flatMap_cons, ih2 h hrest, if_neg (List.mem_reverse.not.mpr hout),
      hleaving, explore_eq]
    simp only [List.reverse_cons]
  | case4 path taken e untried _ hge _ =>
    exact absurd (horder e (List.mem_filter.mp (huntried e List.mem_cons_self).1).1) hge

/-- In a graph whose edges lead to its nodes, the search from a node closes the cycles that the
recursion along paths closes, in the same order, with the same nodes and the same edges. At any time
the nodes of its frames and the edges between them are aligned. -/
theorem search_explores (g : Graph) (components : List (Option Nat)) (exhausted : List Nat)
    (node : Nat) (horder : ∀ e ∈ g.edges, e.target < g.order) :
    let edges := g.followed components exhausted
    Search.records g.order edges (.start edges node) = g.explore components exhausted [] [] node ∧
      g.loopsFrom components exhausted node =
        (g.explore components exhausted [] [] node).map Prod.snd ∧
      ∀ state, ReflTransGen (Search.Steps g.order edges) (.start edges node) state →
        state.Aligned edges := by
  intro edges
  have haligned := Search.aligned_start edges node
  have hexplore : (Search.loops g.order edges (.start edges node)).map
      (fun loop => (loop.map (·.source), loop)) = g.explore components exhausted [] [] node := by
    rw [Search.loops_start, extend_explores horder (.start node) fun e he => ?_, explore_eq]
    · rfl
    · obtain ⟨he, hsource⟩ := Search.mem_leaving_iff.mp he
      exact ⟨he, by simp [hsource]⟩
  refine ⟨haligned.records_eq.trans hexplore, ?_, fun state => haligned.of_steps⟩
  rw [← hexplore, List.map_map]
  exact (List.map_id _).symm

end Graph

/-- Two nodes that depend on each other. The second depends on itself, too, and on a third. -/
def knotted : Graph where
  home := "m"
  nodes := [.bean { name := ⟨"m", "a"⟩ }, .bean { name := ⟨"m", "b"⟩ },
    .socket { name := ⟨"m", "s"⟩ }]
  edges := [⟨0, 1, "x", false⟩, ⟨1, 2, "s", false⟩, ⟨1, 1, "y", false⟩, ⟨1, 0, "z", false⟩]

/-- The cycle of the second node is closed below the first one, and its edge is the last one of the
two that are taken. -/
theorem search_explores_knotted :
    (∀ e ∈ knotted.edges, e.target < knotted.order) ∧
      Search.records knotted.order (knotted.followed knotted.components [])
          (.start (knotted.followed knotted.components []) 0) =
        [([1], [⟨1, 1, "y", false⟩]), ([0, 1], [⟨0, 1, "x", false⟩, ⟨1, 0, "z", false⟩])] := by
  have horder : ∀ e ∈ knotted.edges, e.target < knotted.order := by decide
  exact ⟨horder, (Graph.search_explores knotted _ [] 0 horder).1.trans (by cbv)⟩

end Injection
