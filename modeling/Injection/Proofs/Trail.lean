import Injection.Proofs.Exploration

/-!
# The search turn by turn

The search for cycles as a loop that looks at one edge in each turn, also at those that it may not
follow. Each node of the current path has all the edges that leave it, and a cursor; beside the path
stand the edges between its nodes, and the place of each node. A turn moves the cursor of the last
node by one, or takes this node off the path when its cursor is at the end.

The loop ends although nodes come back on the path again and again: a turn makes the weight of the
path less. When it ends, it has closed the cycles of the search with frames, in the same order.

## Main definitions

* `Stop`, `Trail` — the state: the path with its cursors, edges and places.
* `Trail.turn?`, `Trail.run` — one turn, with the cycle that it closes, and turns in a row.
* `Trail.weight` — the measure.
* `Trail.Turn` — what a turn can do.
* `Trail.Kept` — how the parts of the state stand to each other.
-/

namespace Injection

open Relation

/-- A node of the current path, with all the edges that leave it and how many have been tried. -/
structure Stop where
  node : Nat
  edges : List Edge
  next : Nat
deriving Inhabited

/-- The path that the search is on. -/
structure Trail where
  /-- The nodes of the path, the last one first. -/
  stops : List Stop
  /-- The edges between these nodes, the last one first. -/
  taken : List Edge
  /-- For each node of the path, how many nodes stand before it. -/
  places : List (Nat × Nat)
deriving Inhabited

/-- The stop after one more edge has been tried. -/
def Stop.advance (stop : Stop) : Stop := { stop with next := stop.next + 1 }

@[simp] theorem Stop.advance_node (stop : Stop) : stop.advance.node = stop.node := rfl

@[simp] theorem Stop.advance_edges (stop : Stop) : stop.advance.edges = stop.edges := rfl

@[simp] theorem Stop.advance_next (stop : Stop) : stop.advance.next = stop.next + 1 := rfl

namespace Trail

/-! ## Turns -/

section Turns

variable (g : Graph) (components : List (Option Nat)) (exhausted : List Nat)

/-- A node that has just come on the path. -/
def stopAt (node : Nat) : Stop := ⟨node, g.edgesFrom node, 0⟩

def start (node : Nat) : Trail := ⟨[stopAt g node], [], [(node, 0)]⟩

/-- One turn: the state after it, and the cycle that it closes, if any, by its nodes and its edges.
There is no turn when no path is left, nor when a cursor is behind the end. -/
def turn? (trail : Trail) : Option (Option (List Nat × List Edge) × Trail) :=
  match trail.stops with
  | [] => none
  | stop :: below =>
    if stop.next = stop.edges.length then
      some (none, ⟨below, trail.taken.tail, trail.places.filter (·.1 != stop.node)⟩)
    else
      match stop.edges[stop.next]? with
      | none => none
      | some edge =>
        let stops := stop.advance :: below
        if Graph.follows components exhausted edge then
          match trail.places.lookup edge.target with
          | some place =>
            let nodes := (stops.take (stops.length - place)).map (·.node)
            let edges := edge :: trail.taken.take (trail.taken.length - place)
            some (some (nodes.reverse, edges.reverse), ⟨stops, trail.taken, trail.places⟩)
          | none =>
            some (none, ⟨stopAt g edge.target :: stops, edge :: trail.taken,
              (edge.target, stops.length) :: trail.places⟩)
        else some (none, ⟨stops, trail.taken, trail.places⟩)

/-- The cycles that at most some turns close, and the state after them. -/
def run : Nat → Trail → List (List Nat × List Edge) × Trail
  | 0, trail => ([], trail)
  | turns + 1, trail =>
    match turn? g components exhausted trail with
    | none => ([], trail)
    | some (given, after) =>
      let (records, last) := run turns after
      (given.toList ++ records, last)

/-- The untried edges of each node of the path, and the node itself, count as often as a power tells
whose exponent is the number of nodes that are on the path neither there nor before. -/
def weight (trail : Trail) : Nat :=
  Search.weight g.order (Search.base g.edges)
    (trail.stops.map fun stop => ⟨stop.node, stop.edges.drop stop.next⟩)

/-- One turn, whatever it closes. -/
def Turns (trail after : Trail) : Prop :=
  ∃ given, turn? g components exhausted trail = some (given, after)

/-- What a turn can do. -/
inductive Turn : Trail → Option (List Nat × List Edge) → Trail → Prop
  /-- A node without further edges is taken off the path. -/
  | pop {stop : Stop} {below : List Stop} {taken : List Edge} {places : List (Nat × Nat)}
      (hend : stop.next = stop.edges.length) :
      Turn ⟨stop :: below, taken, places⟩ none
        ⟨below, taken.tail, places.filter (·.1 != stop.node)⟩
  /-- An edge that may not be followed is left out. -/
  | skip {stop : Stop} {below : List Stop} {taken : List Edge} {places : List (Nat × Nat)}
      {edge : Edge} (hedge : stop.edges[stop.next]? = some edge)
      (hfollows : Graph.follows components exhausted edge = false) :
      Turn ⟨stop :: below, taken, places⟩ none ⟨stop.advance :: below, taken, places⟩
  /-- An edge that leads back to the path closes a cycle. -/
  | close {stop : Stop} {below : List Stop} {taken : List Edge} {places : List (Nat × Nat)}
      {edge : Edge} {place : Nat} (hedge : stop.edges[stop.next]? = some edge)
      (hfollows : Graph.follows components exhausted edge = true)
      (hplace : places.lookup edge.target = some place) :
      Turn ⟨stop :: below, taken, places⟩
        (some ((((stop.advance :: below).take (below.length + 1 - place)).map (·.node)).reverse,
          (edge :: taken.take (taken.length - place)).reverse))
        ⟨stop.advance :: below, taken, places⟩
  /-- An edge that leads to another node puts it on the path. -/
  | push {stop : Stop} {below : List Stop} {taken : List Edge} {places : List (Nat × Nat)}
      {edge : Edge} (hedge : stop.edges[stop.next]? = some edge)
      (hfollows : Graph.follows components exhausted edge = true)
      (hplace : places.lookup edge.target = none) :
      Turn ⟨stop :: below, taken, places⟩ none
        ⟨stopAt g edge.target :: stop.advance :: below, edge :: taken,
          (edge.target, below.length + 1) :: places⟩

end Turns

variable {g : Graph} {components : List (Option Nat)} {exhausted : List Nat}
  {trail after : Trail} {stop : Stop} {stops below : List Stop} {taken : List Edge}
  {places : List (Nat × Nat)} {edge : Edge} {given : Option (List Nat × List Edge)}

theorem turn_of_turn? (h : turn? g components exhausted trail = some (given, after)) :
    Turn g components exhausted trail given after := by
  obtain ⟨stops, taken, places⟩ := trail
  cases stops with
  | nil => cases h
  | cons stop below =>
    simp only [turn?] at h
    split at h
    · next hend =>
      obtain ⟨rfl, rfl⟩ := Prod.mk.inj (Option.some.inj h)
      exact .pop hend
    · split at h
      · cases h
      · next edge hedge =>
        split at h
        · next hfollows =>
          split at h
          · next place hplace =>
            obtain ⟨rfl, rfl⟩ := Prod.mk.inj (Option.some.inj h)
            exact .close hedge hfollows hplace
          · next hplace =>
            obtain ⟨rfl, rfl⟩ := Prod.mk.inj (Option.some.inj h)
            exact .push hedge hfollows hplace
        · next hfollows =>
          obtain ⟨rfl, rfl⟩ := Prod.mk.inj (Option.some.inj h)
          exact .skip hedge (Bool.eq_false_iff.mpr hfollows)

/-! ## What a trail holds -/

/-- The nodes of a path, each with the number of nodes before it. -/
def placesOf : List Stop → List (Nat × Nat)
  | [] => []
  | stop :: below => (stop.node, below.length) :: placesOf below

theorem map_fst_placesOf (stops : List Stop) :
    (placesOf stops).map Prod.fst = stops.map (·.node) := by
  induction stops with
  | nil => rfl
  | cons stop below ih => simp [placesOf, ih]

/-- Places are counted from the first node of the path, depths from the last one. -/
theorem lookup_placesOf (stops : List Stop) (node : Nat) :
    (placesOf stops).lookup node =
      (stops.findIdx? (·.node == node)).map (stops.length - 1 - ·) := by
  induction stops with
  | nil => rfl
  | cons stop below ih =>
    rw [placesOf, List.lookup_cons, List.findIdx?_cons, ih, BEq.comm]
    cases stop.node == node with
    | true => simp
    | false =>
      simp only [Bool.false_eq_true, if_false, Option.map_map]
      congr 1
      funext depth
      simp
      omega

/-- A stop holds the edges that leave its node, and its cursor is not behind their end. The nodes of
the path are different, the map tells their places, and all nodes but the first are reached along an
edge that is taken. -/
structure Kept (g : Graph) (trail : Trail) : Prop where
  edges : ∀ stop ∈ trail.stops, stop.edges = g.edgesFrom stop.node
  cursors : ∀ stop ∈ trail.stops, stop.next ≤ stop.edges.length
  distinct : (trail.stops.map (·.node)).Nodup
  places : trail.places = placesOf trail.stops
  taken : trail.taken.length = trail.stops.length - 1

theorem kept_start (g : Graph) (node : Nat) : Kept g (start g node) := by
  constructor <;> simp [start, stopAt, placesOf]

namespace Kept

theorem pop (h : Kept g ⟨stop :: below, taken, places⟩) :
    Kept g ⟨below, taken.tail, places.filter (·.1 != stop.node)⟩ where
  edges other hother := h.edges other (List.mem_cons_of_mem _ hother)
  cursors other hother := h.cursors other (List.mem_cons_of_mem _ hother)
  distinct := (List.nodup_cons.mp h.distinct).2
  places := by
    have hplaces : places = placesOf (stop :: below) := h.places
    have hout : stop.node ∉ below.map (·.node) := (List.nodup_cons.mp h.distinct).1
    rw [hplaces, placesOf, List.filter_cons_of_neg (by simp), List.filter_eq_self]
    intro entry hentry
    have hnode : entry.1 ∈ below.map (·.node) :=
      map_fst_placesOf below ▸ List.mem_map_of_mem hentry
    exact bne_iff_ne.mpr (ne_of_mem_of_not_mem hnode hout)
  taken := by
    have := h.taken
    simp_all

theorem advance (h : Kept g ⟨stop :: below, taken, places⟩)
    (hedge : stop.edges[stop.next]? = some edge) :
    Kept g ⟨stop.advance :: below, taken, places⟩ where
  edges := by
    obtain ⟨hstop, hbelow⟩ := List.forall_mem_cons.mp h.edges
    exact List.forall_mem_cons.mpr ⟨hstop, hbelow⟩
  cursors := by
    obtain ⟨-, hbelow⟩ := List.forall_mem_cons.mp h.cursors
    obtain ⟨hlt, -⟩ := List.getElem?_eq_some_iff.mp hedge
    exact List.forall_mem_cons.mpr ⟨hlt, hbelow⟩
  distinct := h.distinct
  places := h.places
  taken := h.taken

theorem lookup_eq (h : Kept g trail) (node : Nat) :
    trail.places.lookup node =
      (trail.stops.findIdx? (·.node == node)).map (trail.stops.length - 1 - ·) :=
  h.places ▸ lookup_placesOf trail.stops node

theorem push {node : Nat} (h : Kept g ⟨stop :: below, taken, places⟩)
    (hplace : places.lookup node = none) :
    Kept g ⟨stopAt g node :: stop :: below, edge :: taken, (node, below.length + 1) :: places⟩ where
  edges := List.forall_mem_cons.mpr ⟨rfl, h.edges⟩
  cursors := List.forall_mem_cons.mpr ⟨Nat.zero_le _, h.cursors⟩
  distinct := by
    have hlookup := (h.lookup_eq node).symm.trans hplace
    refine List.nodup_cons.mpr ⟨fun hmem => ?_, h.distinct⟩
    obtain ⟨other, hother, hnode⟩ := List.mem_map.mp hmem
    have hnone := List.findIdx?_eq_none_iff.mp (Option.map_eq_none_iff.mp hlookup) other hother
    exact absurd hnode (beq_eq_false_iff_ne.mp hnone)
  places := congrArg (_ :: ·) h.places
  taken := by
    have := h.taken
    simp_all

/-- A turn keeps the parts of the state together. -/
theorem turn (h : Kept g trail) (hturn : Turn g components exhausted trail given after) :
    Kept g after := by
  cases hturn with
  | pop => exact h.pop
  | skip hedge => exact h.advance hedge
  | close hedge => exact h.advance hedge
  | push hedge _ hplace => exact (h.advance hedge).push hplace

/-- The parts of the state are together at any time. -/
theorem of_turns (h : Kept g trail)
    (hturns : ReflTransGen (Turns g components exhausted) trail after) : Kept g after := by
  induction hturns with
  | refl => exact h
  | tail _ hturn ih =>
    obtain ⟨given, hturn⟩ := hturn
    exact ih.turn (turn_of_turn? hturn)

/-- There is a turn as long as there is a path. -/
theorem eq_of_turn?_eq_none (h : Kept g trail)
    (hend : turn? g components exhausted trail = none) : trail = ⟨[], [], []⟩ := by
  obtain ⟨stops, taken, places⟩ := trail
  cases stops with
  | nil =>
    obtain rfl : places = [] := h.places
    obtain rfl : taken = [] := List.length_eq_zero_iff.mp h.taken
    rfl
  | cons stop below =>
    have hcursor := h.cursors stop List.mem_cons_self
    simp only [turn?] at hend
    split at hend
    · cases hend
    · next hne =>
      split at hend
      · next hnone =>
        have := List.getElem?_eq_none_iff.mp hnone
        omega
      · split at hend
        · split at hend <;> cases hend
        · cases hend

end Kept

/-! ## The search with frames -/

/-- The path as a state of the search with frames that sees only some of the edges. -/
def searchOf (seen : Edge → Bool) (stops : List Stop) (taken : List Edge) : Search :=
  ⟨stops.map fun stop => ⟨stop.node, (stop.edges.drop stop.next).filter seen⟩, taken⟩

section Frames

variable {seen : Edge → Bool} {order : Nat} {edges : List Edge}

theorem findIdx?_searchOf (seen : Edge → Bool) (stops : List Stop) (taken : List Edge)
    (node : Nat) :
    (searchOf seen stops taken).frames.findIdx? (·.node == node) =
      stops.findIdx? (·.node == node) :=
  List.findIdx?_map

theorem next?_pop (hend : stop.next = stop.edges.length) :
    Search.next? order edges (searchOf seen (stop :: below) taken) =
      some (none, searchOf seen below taken.tail) := by
  simp [searchOf, Search.next?, hend]

/-- The search with frames goes on with the edge that the cursor is at. -/
theorem next?_eq (hedge : stop.edges[stop.next]? = some edge) (hseen : seen edge = true) :
    Search.next? order edges (searchOf seen (stop :: below) taken) =
      match (stop.advance :: below).findIdx? (·.node == edge.target) with
      | some depth => some (some (edge :: taken.take depth).reverse,
          searchOf seen (stop.advance :: below) taken)
      | none =>
        if edge.target < order then
          some (none, ⟨⟨edge.target, Search.leaving edges edge.target⟩ ::
            (searchOf seen (stop.advance :: below) taken).frames, edge :: taken⟩)
        else some (none, searchOf seen (stop.advance :: below) taken) := by
  rw [← findIdx?_searchOf seen _ taken]
  obtain ⟨hlt, rfl⟩ := List.getElem?_eq_some_iff.mp hedge
  simp only [searchOf, Search.next?, List.map_cons, List.drop_eq_getElem_cons hlt,
    List.filter_cons_of_pos hseen]
  rfl

/-- The place of a node on the path tells how deep its frame is. -/
theorem Kept.findIdx?_eq {node place : Nat} (h : Kept g trail)
    (hplace : trail.places.lookup node = some place) :
    trail.stops.findIdx? (·.node == node) = some (trail.taken.length - place) ∧
      place ≤ trail.taken.length ∧ trail.taken.length + 1 = trail.stops.length := by
  obtain ⟨depth, hdepth, rfl⟩ := Option.map_eq_some_iff.mp ((h.lookup_eq node).symm.trans hplace)
  obtain ⟨hlt, -⟩ := List.findIdx?_eq_some_iff_getElem.mp hdepth
  have htaken := h.taken
  refine ⟨hdepth.trans (congrArg some ?_), ?_, ?_⟩ <;> omega

theorem Kept.next?_close {place : Nat} (h : Kept g ⟨stop :: below, taken, places⟩)
    (hedge : stop.edges[stop.next]? = some edge) (hseen : seen edge = true)
    (hplace : places.lookup edge.target = some place) :
    Search.next? order edges (searchOf seen (stop :: below) taken) =
      some (some (edge :: taken.take (taken.length - place)).reverse,
        searchOf seen (stop.advance :: below) taken) := by
  rw [next?_eq hedge hseen, ((h.advance hedge).findIdx?_eq hplace).1]

theorem Kept.next?_push (h : Kept g ⟨stop :: below, taken, places⟩)
    (hedge : stop.edges[stop.next]? = some edge) (hseen : seen edge = true)
    (hplace : places.lookup edge.target = none) (hlt : edge.target < g.order) :
    Search.next? g.order (g.edges.filter seen) (searchOf seen (stop :: below) taken) =
      some (none,
        searchOf seen (stopAt g edge.target :: stop.advance :: below) (edge :: taken)) := by
  have hdepth : (stop.advance :: below).findIdx? (·.node == edge.target) = none :=
    Option.map_eq_none_iff.mp (((h.advance hedge).lookup_eq edge.target).symm.trans hplace)
  have hleaving : Search.leaving (g.edges.filter seen) edge.target =
      (g.edgesFrom edge.target).filter seen := List.filter_comm _ _ _
  rw [next?_eq hedge hseen, hdepth, hleaving]
  exact if_pos hlt

end Frames

/-! ## The measure -/

theorem weight_eq (g : Graph) (stops : List Stop) (taken : List Edge) (places : List (Nat × Nat)) :
    weight g ⟨stops, taken, places⟩ =
      Search.weight g.order (Search.base g.edges)
        (searchOf (fun _ => true) stops taken).frames := by
  simp [weight, searchOf]

/-- To move a cursor by one makes the weight less. -/
theorem weight_advance_lt (hedge : stop.edges[stop.next]? = some edge) :
    weight g ⟨stop.advance :: below, taken, places⟩ < weight g ⟨stop :: below, taken, places⟩ := by
  obtain ⟨hlt, -⟩ := List.getElem?_eq_some_iff.mp hedge
  simp only [weight, List.map_cons, Search.weight, List.drop_eq_getElem_cons hlt, List.length_cons]
  refine Nat.add_lt_add_right (Nat.mul_lt_mul_of_pos_right ?_ (Search.pow_base_pos _ _)) _
  exact Nat.lt_succ_self _

/-- The edge at a cursor leads to a node of the graph. -/
theorem Kept.target_lt (h : Kept g ⟨stop :: below, taken, places⟩)
    (horder : ∀ e ∈ g.edges, e.target < g.order)
    (hedge : stop.edges[stop.next]? = some edge) : edge.target < g.order := by
  have hmem : edge ∈ g.edgesFrom stop.node :=
    h.edges stop List.mem_cons_self ▸ List.mem_of_getElem? hedge
  exact horder edge (List.mem_filter.mp hmem).1

/-- A turn makes the weight less: it moves a cursor or takes a node off, and when it puts a node on,
then one with a lower exponent than that of the edge which leads there. -/
theorem Kept.weight_lt (h : Kept g trail) (horder : ∀ e ∈ g.edges, e.target < g.order)
    (hturn : Turn g components exhausted trail given after) : weight g after < weight g trail := by
  cases hturn with
  | pop hend =>
    rw [weight_eq, weight_eq]
    exact Search.weight_next_lt _ _ (next?_pop hend)
  | skip hedge => exact weight_advance_lt hedge
  | close hedge => exact weight_advance_lt hedge
  | push hedge _ hplace =>
    have hlt := h.target_lt horder hedge
    have hnext : Search.next? _ _ (searchOf (fun _ => true) _ _) = _ :=
      h.next?_push hedge rfl hplace hlt
    rw [List.filter_true] at hnext
    rw [weight_eq, weight_eq]
    exact Search.weight_next_lt _ _ hnext

/-! ## What the turns give out -/

/-- The cycles that the search with frames closes from a path on. -/
def remaining (g : Graph) (components : List (Option Nat)) (exhausted : List Nat)
    (trail : Trail) : List (List Nat × List Edge) :=
  Search.records g.order (g.followed components exhausted)
    (searchOf (Graph.follows components exhausted) trail.stops trail.taken)

/-- A turn gives out what comes first of the remaining cycles. -/
theorem Kept.remaining_eq (h : Kept g trail) (horder : ∀ e ∈ g.edges, e.target < g.order)
    (hturn : Turn g components exhausted trail given after) :
    remaining g components exhausted trail =
      given.toList ++ remaining g components exhausted after := by
  cases hturn with
  | pop hend => exact Search.records_of_next? (next?_pop hend)
  | @skip stop below taken places edge hedge hfollows =>
    obtain ⟨hlt, rfl⟩ := List.getElem?_eq_some_iff.mp hedge
    have hskip : ((stop.edges.drop stop.next).filter (Graph.follows components exhausted)) =
        (stop.edges.drop (stop.next + 1)).filter (Graph.follows components exhausted) := by
      rw [List.drop_eq_getElem_cons hlt, List.filter_cons_of_neg (Bool.eq_false_iff.mp hfollows)]
    simp [remaining, searchOf, hskip]
  | @close stop below taken places edge place hedge hfollows hplace =>
    obtain ⟨-, hle, hlength⟩ := h.findIdx?_eq hplace
    refine (Search.records_of_next? (h.next?_close hedge hfollows hplace)).trans ?_
    have hdepth : below.length + 1 - place = taken.length - place + 1 := by
      simp_all
      omega
    simp [searchOf, hdepth, remaining, Function.comp_def]
  | push hedge hfollows hplace =>
    have hlt := h.target_lt horder hedge
    exact Search.records_of_next? (h.next?_push hedge hfollows hplace hlt)

/-- The search with frames starts with the edges that it may follow. -/
theorem remaining_start {node : Nat} :
    remaining g components exhausted (start g node) =
      (g.loopsFrom components exhausted node).map fun loop => (loop.map (·.source), loop) := by
  have hstart : searchOf (Graph.follows components exhausted) (start g node).stops
      (start g node).taken = .start (g.followed components exhausted) node := by
    rw [Search.start, Graph.leaving_followed]
    rfl
  rw [remaining, hstart]
  exact (Search.aligned_start _ node).records_eq

/-- The loop ends within as many turns as the weight tells. -/
theorem Kept.exists_run (components : List (Option Nat)) (exhausted : List Nat)
    (h : Kept g trail) (horder : ∀ e ∈ g.edges, e.target < g.order) :
    ∃ turns ≤ weight g trail, run g components exhausted turns trail =
      (remaining g components exhausted trail, ⟨[], [], []⟩) := by
  induction hweight : weight g trail using Nat.strong_induction_on generalizing trail with
  | _ n ih =>
    subst hweight
    cases hturn : turn? g components exhausted trail with
    | none =>
      obtain rfl := h.eq_of_turn?_eq_none hturn
      have hrecords : remaining g components exhausted ⟨[], [], []⟩ = [] := by
        rw [remaining, Search.records]
        rfl
      exact ⟨0, Nat.zero_le _, by rw [run, hrecords]⟩
    | some result =>
      obtain ⟨given, after⟩ := result
      have hturn' := turn_of_turn? hturn
      have hlt := h.weight_lt horder hturn'
      obtain ⟨turns, hle, hrun⟩ := ih _ hlt (h.turn hturn') rfl
      refine ⟨turns + 1, Nat.lt_of_le_of_lt hle hlt, ?_⟩
      rw [run, hturn, h.remaining_eq horder hturn']
      simp only [hrun]

/-- In a graph whose edges lead to its nodes, every turn of a search makes its weight less,
whichever nodes have been on the path before. So the search from a node ends: within as many turns
as the weight tells it leaves no path, and it has closed the cycles that the search with frames
finds. -/
theorem run_ends (g : Graph) (components : List (Option Nat)) (exhausted : List Nat) (node : Nat)
    (horder : ∀ e ∈ g.edges, e.target < g.order) :
    (∀ trail given after,
        ReflTransGen (Turns g components exhausted) (start g node) trail →
        turn? g components exhausted trail = some (given, after) →
          weight g after < weight g trail) ∧
      ∃ turns ≤ weight g (start g node), run g components exhausted turns (start g node) =
        ((g.loopsFrom components exhausted node).map fun loop => (loop.map (·.source), loop),
          ⟨[], [], []⟩) := by
  have hstart := kept_start g node
  refine ⟨fun trail given after hturns hturn => ?_, ?_⟩
  · exact (hstart.of_turns hturns).weight_lt horder (turn_of_turn? hturn)
  · obtain ⟨turns, hle, hrun⟩ := hstart.exists_run components exhausted horder
    exact ⟨turns, hle, hrun.trans (congrArg (·, _) remaining_start)⟩

end Trail

/-- Two ways from a node to another one, which depends on the first. -/
def forked : Graph where
  home := "m"
  nodes := [.bean { name := ⟨"m", "a"⟩ }, .bean { name := ⟨"m", "b"⟩ },
    .bean { name := ⟨"m", "c"⟩ }, .bean { name := ⟨"m", "d"⟩ }]
  edges := [⟨0, 1, "x", false⟩, ⟨0, 2, "y", false⟩, ⟨1, 3, "z", false⟩, ⟨2, 3, "z", false⟩,
    ⟨3, 0, "w", false⟩]

/-- The last node comes on the path a second time after it has been taken off. -/
theorem run_ends_forked :
    (∀ e ∈ forked.edges, e.target < forked.order) ∧
      ∃ turns ≤ 1029, Trail.run forked forked.components [] turns (.start forked 0) =
        ([([0, 1, 3], [⟨0, 1, "x", false⟩, ⟨1, 3, "z", false⟩, ⟨3, 0, "w", false⟩]),
          ([0, 2, 3], [⟨0, 2, "y", false⟩, ⟨2, 3, "z", false⟩, ⟨3, 0, "w", false⟩])],
          ⟨[], [], []⟩) := by
  have horder : ∀ e ∈ forked.edges, e.target < forked.order := by decide
  obtain ⟨turns, hle, hrun⟩ := (Trail.run_ends forked forked.components [] 0 horder).2
  rw [Graph.loopsFrom, Search.loops_start] at hrun
  exact ⟨horder, turns, hle.trans (by decide), hrun.trans (by cbv)⟩

end Injection
