import Injection.Graph
import Injection.Reach

/-!
# Searching for cycles

The search walks along simple paths. It keeps a frame for each node of the current path, with the
edges that leave the node and have not been tried, and the edges between these nodes. An edge that
leads back to a node of the path closes a cycle, which is given out; an edge that leads to another
node makes the path longer; a node without further edges is taken off the path and can be visited
again on another one.

The search comes to an end although nodes are visited again and again: the weight of its state,
which counts the untried edges of a frame the more the earlier the frame stands, becomes less in
every step.

## Main definitions

* `Search` — the state: frames and the edges between them.
* `Search.next?` — one step, with the cycle that it closes.
* `Search.weight`, `Search.weight_next_lt` — the measure.
* `Search.loops` — all cycles that are closed from a state on.
-/

namespace Injection

/-- A node of the current path, with the edges that leave it and have not been tried. -/
structure Frame where
  node : Nat
  untried : List Edge
deriving Inhabited

structure Search where
  /-- The nodes of the current path, the last one first. -/
  frames : List Frame
  /-- The edges between these nodes, the last one first. -/
  taken : List Edge
deriving Inhabited

namespace Search

variable (order : Nat) (edges : List Edge)

/-- The edges that leave a node, in order. -/
def leaving (node : Nat) : List Edge := edges.filter (·.source == node)

def start (node : Nat) : Search := ⟨[⟨node, leaving edges node⟩], []⟩

/-- One step in a graph with the nodes below `order`: the state after it, and the cycle that it
closes, if any. There is no step when no path is left. -/
def next? (state : Search) : Option (Option (List Edge) × Search) :=
  match state.frames with
  | [] => none
  | ⟨_, []⟩ :: below => some (none, ⟨below, state.taken.tail⟩)
  | ⟨node, edge :: untried⟩ :: below =>
    let frames := ⟨node, untried⟩ :: below
    match frames.findIdx? (·.node == edge.target) with
    | some depth =>
      some (some (edge :: state.taken.take depth).reverse, ⟨frames, state.taken⟩)
    | none =>
      if edge.target < order then
        some (none, ⟨⟨edge.target, leaving edges edge.target⟩ :: frames, edge :: state.taken⟩)
      else some (none, ⟨frames, state.taken⟩)

/-! ## The measure -/

/-- The untried edges of each frame, and the frame itself, count as often as a power tells whose
exponent is the number of nodes that are on the path neither at the frame nor before it. -/
def weight (order base : Nat) : List Frame → Nat
  | [] => 0
  | frame :: below =>
    (frame.untried.length + 1) *
      base.pow (Reach.unseen (List.range order) (frame.node :: below.map (·.node))) +
    weight order base below

/-- A number of edges that no node exceeds by its own. -/
def base : Nat := edges.length + 2

theorem length_leaving_lt (node : Nat) : (leaving edges node).length + 1 < base edges := by
  have := List.length_filter_le (·.source == node) edges
  simp only [leaving, base]
  omega

/-- A frame adds something to the weight, however few edges it has. -/
theorem pow_base_pos (exponent : Nat) : 0 < (base edges).pow exponent :=
  Nat.pow_pos (Nat.succ_pos _)

/-- One more in the exponent outweighs all edges of a node. -/
theorem base_mul_pow_le {small large : Nat} (h : small < large) :
    base edges * (base edges).pow small ≤ (base edges).pow large := by
  rw [Nat.mul_comm]
  show (base edges).pow (small + 1) ≤ _
  exact Nat.pow_le_pow_right (Nat.succ_pos _) h

/-- Every step makes the weight of the state less. -/
theorem weight_next_lt {state after : Search} {found : Option (List Edge)}
    (h : next? order edges state = some (found, after)) :
    weight order (base edges) after.frames < weight order (base edges) state.frames := by
  obtain ⟨frames, taken⟩ := state
  unfold next? at h
  split at h
  · cases h
  · next node below hf =>
    simp only at hf
    obtain ⟨-, rfl⟩ := Prod.mk.inj (Option.some.inj h)
    simp only [hf, weight, List.length_nil, Nat.zero_add, Nat.one_mul]
    exact Nat.lt_add_of_pos_left (pow_base_pos edges _)
  · next node edge untried below hf =>
    simp only at hf
    have hless (k : Nat) : (untried.length + 1) * (base edges).pow k + (base edges).pow k =
        ((edge :: untried).length + 1) * (base edges).pow k := by
      rw [List.length_cons, Nat.succ_mul (untried.length + 1)]
    dsimp only at h
    split at h
    · obtain ⟨-, rfl⟩ := Prod.mk.inj (Option.some.inj h)
      simp only [hf, weight, ← hless]
      have := pow_base_pos edges (Reach.unseen (List.range order) (node :: below.map (·.node)))
      omega
    · next hout =>
      split at h
      · next hlt =>
        obtain ⟨-, rfl⟩ := Prod.mk.inj (Option.some.inj h)
        simp only [hf, weight, ← hless, List.map_cons]
        have hnew : edge.target ∉ node :: below.map (·.node) := by
          simp only [List.findIdx?_eq_none_iff, List.mem_cons, beq_eq_false_iff_ne] at hout
          simp only [List.mem_cons, List.mem_map, not_or, not_exists, not_and]
          exact ⟨fun he => hout _ (.inl rfl) he.symm, fun f hm he => hout f (.inr hm) he⟩
        have hu := Reach.unseen_cons_lt (List.mem_range.mpr hlt) hnew
        generalize Reach.unseen (List.range order) (node :: below.map (·.node)) = u at hu ⊢
        generalize Reach.unseen (List.range order)
          (edge.target :: node :: below.map (·.node)) = v at hu ⊢
        have h1 := base_mul_pow_le edges hu
        have h2 := Nat.mul_lt_mul_of_pos_right (length_leaving_lt edges edge.target)
          (pow_base_pos edges v)
        omega
      · obtain ⟨-, rfl⟩ := Prod.mk.inj (Option.some.inj h)
        simp only [hf, weight, ← hless]
        have := pow_base_pos edges (Reach.unseen (List.range order) (node :: below.map (·.node)))
        omega

/-! ## All cycles -/

/-- The cycles that are closed from a state on, each by its edges in order. -/
def loops (state : Search) : List (List Edge) :=
  match _h : next? order edges state with
  | none => []
  | some (none, after) => loops after
  | some (some found, after) => found :: loops after
termination_by weight order (base edges) state.frames
decreasing_by all_goals exact weight_next_lt order edges _h

end Search

end Injection
