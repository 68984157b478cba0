import Injection.Cycle.Search
import Injection.Proofs.Walk

/-!
# What the search finds

The search with frames closes the same cycles, in the same order, as a recursion that extends a
path by each edge that leaves its last node. All that the recursion gives out are loops, and every
loop through the node that it starts at is given out.

## Main definitions

* `Search.extend` — the cycles that are closed by extending a path.
* `Search.remaining` — the cycles that are closed from a stack of frames on.
* `SimplePath` — the paths through different nodes, with their edges.
-/

namespace Injection

/-! ## The recursion -/

namespace Search

variable {order : Nat} {edges : List Edge}

/-- The cycles that are closed by extending a path by the given edges. The nodes of the path and
the edges between them stand last first. -/
def extend (order : Nat) (edges : List Edge) (path : List Nat) (taken : List Edge) :
    List Edge → List (List Edge)
  | [] => []
  | edge :: untried =>
    if edge.target ∈ path then
      (edge :: taken.take (path.idxOf edge.target)).reverse ::
        extend order edges path taken untried
    else if _h : edge.target < order then
      extend order edges (edge.target :: path) (edge :: taken) (leaving edges edge.target) ++
        extend order edges path taken untried
    else extend order edges path taken untried
termination_by untried => (Reach.unseen (List.range order) path, untried.length)
decreasing_by
  · exact Prod.Lex.right _ (Nat.lt_succ_self _)
  · exact Prod.Lex.left _ _ (Reach.unseen_cons_lt (List.mem_range.mpr _h) ‹_›)
  · exact Prod.Lex.right _ (Nat.lt_succ_self _)
  · exact Prod.Lex.right _ (Nat.lt_succ_self _)

/-- The cycles that are closed from a stack of frames on: the frame on top goes first. -/
def remaining (order : Nat) (edges : List Edge) : List Frame → List Edge → List (List Edge)
  | [], _ => []
  | ⟨node, untried⟩ :: below, taken =>
    extend order edges (node :: below.map (·.node)) taken untried ++
      remaining order edges below taken.tail

/-- The frame of a node is looked up by the node's place on the path. -/
theorem findIdx?_frames (frames : List Frame) (target : Nat) :
    frames.findIdx? (·.node == target) =
      if target ∈ frames.map (·.node) then some ((frames.map (·.node)).idxOf target) else none := by
  induction frames with
  | nil => rfl
  | cons frame rest ih =>
    rw [List.findIdx?_cons, ih]
    by_cases hnode : frame.node = target
    · simp [hnode]
    · by_cases hrest : target ∈ rest.map (·.node)
      · simp [hnode, Ne.symm hnode, hrest]
      · simp [hnode, Ne.symm hnode, hrest]

/-- One step gives out what comes first of the remaining cycles. -/
theorem remaining_next? {state after : Search} {found : Option (List Edge)}
    (h : next? order edges state = some (found, after)) :
    remaining order edges state.frames state.taken =
      found.toList ++ remaining order edges after.frames after.taken := by
  obtain ⟨frames, taken⟩ := state
  cases frames with
  | nil => cases h
  | cons frame below =>
    obtain ⟨node, untried⟩ := frame
    cases untried with
    | nil =>
      obtain ⟨rfl, rfl⟩ := Prod.mk.inj (Option.some.inj h)
      simp [remaining, extend]
    | cons edge untried =>
      simp only [next?, findIdx?_frames, List.map_cons] at h
      simp only [remaining]
      rw [extend]
      split
      · next hmem =>
        rw [if_pos hmem] at h
        obtain ⟨rfl, rfl⟩ := Prod.mk.inj (Option.some.inj h)
        simp [remaining]
      · next hout =>
        rw [if_neg hout] at h
        dsimp only at h
        split
        · next hlt =>
          rw [if_pos hlt] at h
          obtain ⟨rfl, rfl⟩ := Prod.mk.inj (Option.some.inj h)
          simp [remaining]
        · next hge =>
          rw [if_neg hge] at h
          obtain ⟨rfl, rfl⟩ := Prod.mk.inj (Option.some.inj h)
          simp [remaining]

theorem frames_eq_nil_of_next? {state : Search} (h : next? order edges state = none) :
    state.frames = [] := by
  unfold next? at h
  split at h
  · assumption
  · cases h
  · dsimp only at h
    split at h
    · cases h
    · split at h <;> cases h

theorem loops_eq_remaining (state : Search) :
    loops order edges state = remaining order edges state.frames state.taken := by
  fun_induction loops order edges state with
  | case1 state h => rw [frames_eq_nil_of_next? h, remaining]
  | case2 state after h ih => simpa [ih] using (remaining_next? h).symm
  | case3 state found after h ih => simpa [ih] using (remaining_next? h).symm

theorem loops_start (node : Nat) :
    loops order edges (start edges node) = extend order edges [node] [] (leaving edges node) := by
  simp [loops_eq_remaining, start, remaining]

end Search

/-! ## Simple paths -/

/-- A path through different nodes. The nodes and the edges between them stand last first. -/
inductive SimplePath (edges : List Edge) : List Nat → List Edge → Prop
  | start (node : Nat) : SimplePath edges [node] []
  | step {path : List Nat} {taken : List Edge} {e : Edge}
      (h : SimplePath edges (e.source :: path) taken) (he : e ∈ edges)
      (hnew : e.target ∉ e.source :: path) :
      SimplePath edges (e.target :: e.source :: path) (e :: taken)

namespace SimplePath

variable {edges taken : List Edge} {path : List Nat} {u v : Nat}

theorem nodup (h : SimplePath edges path taken) : path.Nodup := by
  induction h with
  | start => simp
  | step _ _ hnew ih => exact List.nodup_cons.mpr ⟨hnew, ih⟩

/-- The edges leave all nodes of the path but the last one. -/
theorem map_source (h : SimplePath edges (u :: path) taken) : taken.map (·.source) = path := by
  generalize hp : u :: path = nodes at h
  induction h generalizing u path with
  | start => exact ((List.cons.inj hp).2).symm
  | @step path' _ e _ _ _ ih =>
    rw [List.map_cons, ih rfl]
    exact ((List.cons.inj hp).2).symm

/-- The edges from a node of the path on are a walk to its last node. -/
theorem walk_take (h : SimplePath edges (u :: path) taken) (hv : v ∈ u :: path) :
    Walk edges v (taken.take ((u :: path).idxOf v)).reverse u := by
  generalize hp : u :: path = nodes at h hv
  induction h generalizing u path with
  | start node =>
    obtain ⟨rfl, -⟩ := List.cons.inj hp
    rw [List.mem_singleton.mp hv]
    simpa using Walk.nil u
  | @step path' taken e h he hnew ih =>
    obtain ⟨rfl, rfl⟩ := List.cons.inj hp
    by_cases hve : e.target = v
    · subst hve
      simpa using Walk.nil e.target
    · have hv' := (List.mem_cons.mp hv).resolve_left (Ne.symm hve)
      rw [List.idxOf_cons_ne _ hve, List.take_succ_cons, List.reverse_cons]
      exact (ih rfl hv').append (.cons he (.nil _))

/-- An edge from the last node of the path back to the path closes a loop. -/
theorem isLoop (h : SimplePath edges path taken) {e : Edge} (he : e ∈ edges)
    (hsource : path.head? = some e.source) (htarget : e.target ∈ path) :
    IsLoop edges (e :: taken.take (path.idxOf e.target)).reverse := by
  obtain ⟨rest, rfl⟩ := List.head?_eq_some_iff.mp hsource
  refine ⟨by simp, ?_, e.target, ?_⟩
  · rw [List.map_reverse, List.nodup_reverse, List.map_cons, List.map_take, h.map_source]
    have hnodup := List.nodup_cons.mp h.nodup
    refine List.nodup_cons.mpr ⟨fun hm => hnodup.1 (List.mem_of_mem_take hm), ?_⟩
    exact hnodup.2.sublist (List.take_sublist _ _)
  · rw [List.reverse_cons]
    exact (h.walk_take htarget).append (.cons he (.nil _))

end SimplePath

namespace Search

variable {order : Nat} {edges taken untried loop : List Edge} {path : List Nat}

theorem mem_leaving_iff {node : Nat} {e : Edge} :
    e ∈ leaving edges node ↔ e ∈ edges ∧ e.source = node := by
  simp [leaving]

theorem isLoop_of_mem_extend (h : SimplePath edges path taken)
    (huntried : ∀ e ∈ untried, e ∈ edges ∧ path.head? = some e.source)
    (hloop : loop ∈ extend order edges path taken untried) : IsLoop edges loop := by
  fun_induction extend order edges path taken untried with
  | case1 => cases hloop
  | case2 path taken edge untried hmem ih =>
    obtain ⟨he, hsource⟩ := huntried edge List.mem_cons_self
    rcases List.mem_cons.mp hloop with rfl | hloop
    · exact h.isLoop he hsource hmem
    · exact ih h (fun e he => huntried e (List.mem_cons_of_mem _ he)) hloop
  | case3 path taken edge untried hout hlt ih1 ih2 =>
    obtain ⟨he, hsource⟩ := huntried edge List.mem_cons_self
    rcases List.mem_append.mp hloop with hloop | hloop
    · obtain ⟨rest, rfl⟩ := List.head?_eq_some_iff.mp hsource
      refine ih1 (h.step he hout) (fun e he => ?_) hloop
      obtain ⟨he, hsource⟩ := mem_leaving_iff.mp he
      exact ⟨he, by simp [hsource]⟩
    · exact ih2 h (fun e he => huntried e (List.mem_cons_of_mem _ he)) hloop
  | case4 path taken edge untried _ _ ih =>
    exact ih h (fun e he => huntried e (List.mem_cons_of_mem _ he)) hloop

theorem extend_eq_flatMap :
    extend order edges path taken untried =
      untried.flatMap fun e => extend order edges path taken [e] := by
  induction untried with
  | nil => simp [extend]
  | cons e rest ih =>
    have hone : extend order edges path taken [] = [] := by rw [extend]
    rw [List.flatMap_cons, ← ih, extend.eq_2, extend.eq_2, hone]
    split
    · rfl
    · split <;> simp

/-- Every way to close the path to a loop at one of its nodes is given out. -/
theorem mem_extend_of_walk {n : Nat} {below : List Nat} {e : Edge} {rest : List Edge}
    (horder : ∀ e ∈ edges, e.target < order) (h : SimplePath edges (e.source :: below) taken)
    (hn : n ∈ e.source :: below) (hwalk : Walk edges e.source (e :: rest) n)
    (hnodup : ((e :: rest).map (·.source)).Nodup)
    (hnew : ∀ f ∈ rest, f.source ∉ e.source :: below) :
    (taken.take ((e.source :: below).idxOf n)).reverse ++ e :: rest ∈
      extend order edges (e.source :: below) taken [e] := by
  have he := hwalk.mem_edges List.mem_cons_self
  induction rest generalizing e below taken with
  | nil =>
    obtain rfl : e.target = n := hwalk.tail.eq_of_nil
    rw [extend, if_pos hn, List.reverse_cons]
    exact List.mem_cons_self
  | cons f rest ih =>
    have htarget : f.source = e.target := hwalk.tail.source_eq.symm
    have hout : e.target ∉ e.source :: below := htarget ▸ hnew f List.mem_cons_self
    have hne : e.target ≠ n := fun hsame => hout (hsame ▸ hn)
    have hstep := h.step he hout
    rw [extend, if_neg hout, dif_pos (horder e he), extend_eq_flatMap]
    refine List.mem_append_left _ (List.mem_flatMap.mpr ⟨f, ?_, ?_⟩)
    · exact mem_leaving_iff.mpr ⟨hwalk.mem_edges (by simp), htarget⟩
    · rw [List.map_cons, List.map_cons] at hnodup
      have hrest := (List.nodup_cons.mp hnodup).2
      have hwalk' : Walk edges f.source (f :: rest) n := htarget ▸ hwalk.tail
      have hloop := ih (htarget ▸ hstep) (List.mem_cons_of_mem _ hn) hwalk' hrest
        (fun f' hf' => ?_) (hwalk'.mem_edges List.mem_cons_self)
      · rw [htarget, List.idxOf_cons_ne _ hne, List.take_succ_cons] at hloop
        simpa using hloop
      refine List.mem_cons.not.mpr (not_or.mpr ⟨fun hsame => ?_, ?_⟩)
      · exact (List.nodup_cons.mp hrest).1 (hsame ▸ List.mem_map_of_mem hf')
      · exact hnew f' (List.mem_cons_of_mem f hf')

theorem isLoop_of_mem_loops {node : Nat} (h : loop ∈ loops order edges (start edges node)) :
    IsLoop edges loop := by
  rw [loops_start] at h
  refine isLoop_of_mem_extend (.start node) (fun e he => ?_) h
  obtain ⟨he, hsource⟩ := mem_leaving_iff.mp he
  exact ⟨he, by simp [hsource]⟩

/-- The search from a node gives out all loops that start there. -/
theorem mem_loops_of_isLoop {e : Edge} {rest : List Edge}
    (horder : ∀ e ∈ edges, e.target < order) (h : IsLoop edges (e :: rest)) :
    e :: rest ∈ loops order edges (start edges e.source) := by
  obtain ⟨u, hwalk⟩ := h.closed
  obtain rfl := hwalk.source_eq
  rw [loops_start, extend_eq_flatMap]
  refine List.mem_flatMap.mpr ⟨e, mem_leaving_iff.mpr ⟨h.mem_edges List.mem_cons_self, rfl⟩, ?_⟩
  have hloop := mem_extend_of_walk horder (.start e.source) List.mem_cons_self hwalk h.distinct
    fun f hf hm => ?_
  · simpa using hloop
  rw [List.mem_singleton] at hm
  exact (List.nodup_cons.mp h.distinct).1 (List.mem_map.mpr ⟨f, hf, hm⟩)

end Search

end Injection
