import Injection.Proofs.Emission

/-!
# Counting down

The loop of the schedule, one change of a counter at a time: a node is emitted, and then each node
that depends on it has its counter lowered, once for each edge between the two and in whatever order
the edges are visited. At every moment the counter of a node tells how many of its edges have not
been counted off. So no counter is lowered below zero, no node becomes ready twice, and no node is
emitted twice.

## Main definitions

* `Stage` — a schedule, with the nodes whose counters are still to be lowered.
* `Stage.Step` — what the loop does next.
* `Stage.Exact` — what the counters, the ready nodes and the emitted nodes are at a stage.

The order in which counters are lowered makes no difference: once all of them are, the schedule is
that of `Schedule.run` after as many steps as there are emitted nodes.
-/

namespace Injection

open Relation

/-! ## Releases in any order -/

namespace Schedule

variable {g : Graph} {s after : Schedule} {steps : Nat}

theorem release_eq (s : Schedule) (v : Nat) :
    s.release v = ⟨s.pending.modify v (· - 1),
      if s.pending[v]?.map (· - 1) = some 0 then insertReady v s.ready else s.ready,
      s.emitted⟩ := by
  rw [release, List.getElem?_modify_eq, Option.map_eq_map]
  split <;> rfl

theorem insertReady_comm (v w : Nat) (ready : List Nat) :
    insertReady v (insertReady w ready) = insertReady w (insertReady v ready) := by
  induction ready with
  | nil => grind [insertReady]
  | cons head rest ih => grind [insertReady]

/-- Which of two nodes is released first makes no difference. -/
theorem release_comm (s : Schedule) (v w : Nat) :
    (s.release v).release w = (s.release w).release v := by
  by_cases hvw : v = w
  · rw [hvw]
  · have hpending : (s.pending.modify v (· - 1)).modify w (· - 1) =
        (s.pending.modify w (· - 1)).modify v (· - 1) := by
      apply List.ext_getElem?
      intro u
      grind
    simp only [release_eq, hpending, List.getElem?_modify_ne _ _ hvw,
      List.getElem?_modify_ne _ _ (Ne.symm hvw)]
    split_ifs <;> simp [insertReady_comm]

/-- A run can be made longer at its end. -/
theorem run_succ_of_next? (h : next? g (run g steps s) = some after) :
    run g (steps + 1) s = after := by
  induction steps generalizing s with
  | zero =>
    change next? g s = some after at h
    simp [run, h]
  | succ steps ih =>
    rw [run] at h ⊢
    cases hnext : next? g s with
    | none =>
      simp only [hnext] at h
      cases h
    | some middle =>
      simp only [hnext] at h ⊢
      exact ih h

end Schedule

/-! ## Stages -/

/-- How far the loop of the schedule has come. -/
structure Stage where
  schedule : Schedule
  /-- The nodes whose counters are still to be lowered for the last emitted node, once for each
  edge. -/
  waiting : List Nat
deriving Inhabited

namespace Stage

variable {g : Graph} {stage after : Stage}

/-- The stage before any node is emitted. -/
def start (g : Graph) : Stage := ⟨.initial g, []⟩

/-- What the loop does next. -/
inductive Step (g : Graph) : Stage → Stage → Prop
  /-- When no counter is left to be lowered, the lowest ready node is emitted. The counters of the
  nodes that depend on it come next, in any order. -/
  | take {pending ready emitted waiting : List Nat} {node : Nat}
      (hwaiting : waiting.Perm (g.dependents node)) :
      Step g ⟨⟨pending, node :: ready, emitted⟩, []⟩ ⟨⟨pending, ready, node :: emitted⟩, waiting⟩
  /-- One counter is lowered. -/
  | release {schedule : Schedule} {node : Nat} {waiting : List Nat} :
      Step g ⟨schedule, node :: waiting⟩ ⟨schedule.release node, waiting⟩

/-- What the counters, the ready nodes and the emitted nodes are at a stage. -/
structure Exact (g : Graph) (stage : Stage) : Prop where
  /-- A counter tells how many edges of its node lead to nodes that are not emitted, and how many
  lead to the last emitted node and are not counted off. -/
  pending : ∀ v < g.order, stage.schedule.pending[v]? =
    some (Schedule.openEdges g stage.schedule.emitted v + stage.waiting.count v)
  /-- A counter that is to be lowered is not at zero. -/
  lowerable : ∀ v ∈ stage.waiting, ∃ left, stage.schedule.pending[v]? = some (left + 1)
  /-- The ready nodes are those at zero that are not emitted. -/
  mem_ready : ∀ v, v ∈ stage.schedule.ready ↔
    v < g.order ∧ v ∉ stage.schedule.emitted ∧ stage.schedule.pending[v]? = some 0
  /-- The ready nodes stand in ascending order, each once. -/
  ascending : stage.schedule.ready.Pairwise (· < ·)
  nodup_emitted : stage.schedule.emitted.Nodup
  emitted_lt : ∀ v ∈ stage.schedule.emitted, v < g.order
  length_emitted_le : stage.schedule.emitted.length ≤ g.order

theorem exact_of_sound (h : Schedule.Sound g stage.waiting stage.schedule) : stage.Exact g where
  pending := h.pending
  lowerable := by
    intro v hv
    have hcount : 0 < stage.waiting.count v := List.count_pos_iff.mpr hv
    refine ⟨Schedule.openEdges g stage.schedule.emitted v + (stage.waiting.count v - 1), ?_⟩
    rw [h.pending v (h.waiting v hv).1]
    congr 1
    omega
  mem_ready := h.mem_ready
  ascending := h.ascending
  nodup_emitted := h.emitted.nodup
  emitted_lt := fun _ hv => h.emitted.lt hv
  length_emitted_le := h.emitted.length_le

/-! ## What the loop keeps -/

theorem Step.sound (hsource : ∀ e ∈ g.edges, e.source < g.order) (hstep : Step g stage after)
    (h : Schedule.Sound g stage.waiting stage.schedule) :
    Schedule.Sound g after.waiting after.schedule := by
  cases hstep with
  | take hwaiting => exact h.take hsource hwaiting
  | release => exact h.release

theorem sound_of_steps (hsource : ∀ e ∈ g.edges, e.source < g.order)
    (hsteps : ReflTransGen (Step g) (start g) stage) :
    Schedule.Sound g stage.waiting stage.schedule := by
  induction hsteps with
  | refl => exact .initial g
  | tail _ hstep ih => exact hstep.sound hsource ih

/-- A step of the loop leads to the same schedule, once all counters are lowered. -/
theorem Step.foldl_release_eq (hstep : Step g stage after)
    (h : stage.waiting.foldl Schedule.release stage.schedule =
      Schedule.run g stage.schedule.emitted.length (.initial g)) :
    after.waiting.foldl Schedule.release after.schedule =
      Schedule.run g after.schedule.emitted.length (.initial g) := by
  cases hstep with
  | @take pending ready emitted waiting node hwaiting =>
    symm
    apply Schedule.run_succ_of_next?
    rw [← h, hwaiting.foldl_eq' fun v _ w _ s => Schedule.release_comm s v w]
    rfl
  | release =>
    rw [List.foldl_cons] at h
    rw [h, Schedule.emitted_release]

theorem foldl_release_of_steps (hsteps : ReflTransGen (Step g) (start g) stage) :
    stage.waiting.foldl Schedule.release stage.schedule =
      Schedule.run g stage.schedule.emitted.length (.initial g) := by
  induction hsteps with
  | refl => rfl
  | tail _ hstep ih => exact hstep.foldl_release_eq ih

/-! ## The stages of a run -/

theorem steps_foldl_release (schedule : Schedule) (waiting : List Nat) :
    ReflTransGen (Step g) ⟨schedule, waiting⟩ ⟨waiting.foldl Schedule.release schedule, []⟩ := by
  induction waiting generalizing schedule with
  | nil => exact .refl
  | cons node waiting ih => exact .head .release (ih (schedule.release node))

theorem steps_next? {schedule later : Schedule} (hnext : Schedule.next? g schedule = some later) :
    ReflTransGen (Step g) ⟨schedule, []⟩ ⟨later, []⟩ := by
  obtain ⟨pending, ready, emitted⟩ := schedule
  cases ready with
  | nil => cases hnext
  | cons node ready =>
    obtain rfl := Option.some.inj hnext
    exact .head (.take (.refl _)) (steps_foldl_release _ _)

theorem steps_run (schedule : Schedule) (steps : Nat) :
    ReflTransGen (Step g) ⟨schedule, []⟩ ⟨Schedule.run g steps schedule, []⟩ := by
  induction steps generalizing schedule with
  | zero => exact .refl
  | succ steps ih =>
    rw [Schedule.run]
    split
    · exact .refl
    · next later hnext => exact (steps_next? hnext).trans (ih later)

/-- As many steps as there are nodes bring the run to its end. -/
theorem ready_run_order (hsource : ∀ e ∈ g.edges, e.source < g.order) :
    (Schedule.run g g.order (.initial g)).ready = [] := by
  rcases Schedule.ready_run_eq_nil_or (.initial g) g.order with hready | hlength
  · exact hready
  · -- the next step would emit more nodes than there are
    rw [← Schedule.next?_eq_none_iff, Option.eq_none_iff_forall_ne_some]
    intro later hnext
    have hsteps := (steps_run (.initial g) g.order).trans (steps_next? hnext)
    have hle : later.emitted.length ≤ g.order := (sound_of_steps hsource hsteps).emitted.length_le
    have hmore := Schedule.length_emitted_of_next? hnext
    have hnone : (Schedule.initial g).emitted.length = 0 := rfl
    omega

/-- In a graph whose edges leave its nodes, whatever cycles and parallel edges it has, every stage
of the loop is exact: a counter tells how many edges are still to be counted off, and is above zero
when it is lowered; the ready nodes are those at zero that are not emitted, each once; and no node
is emitted twice. When the remaining counters are lowered, the schedule is that of a run. The loop
comes by all schedules of a run, and is at its end after as many steps as there are nodes. -/
theorem countdown_exact (g : Graph) (hsource : ∀ e ∈ g.edges, e.source < g.order) :
    (∀ stage, ReflTransGen (Step g) (start g) stage →
        stage.Exact g ∧ stage.waiting.foldl Schedule.release stage.schedule =
          Schedule.run g stage.schedule.emitted.length (.initial g)) ∧
      (∀ steps, ReflTransGen (Step g) (start g) ⟨Schedule.run g steps (.initial g), []⟩) ∧
      (Schedule.run g g.order (.initial g)).ready = [] := by
  refine ⟨fun stage hsteps => ⟨?_, ?_⟩, fun steps => ?_, ?_⟩
  · exact exact_of_sound (sound_of_steps hsource hsteps)
  · exact foldl_release_of_steps hsteps
  · exact steps_run (.initial g) steps
  · exact ready_run_order hsource

end Stage

/-- A node that depends on another one twice, one that depends on itself, and two that depend on
each other. -/
def looped : Graph where
  home := "m"
  nodes := [.bean { name := ⟨"m", "a"⟩ }, .bean { name := ⟨"m", "b"⟩ },
    .bean { name := ⟨"m", "c"⟩ }, .bean { name := ⟨"m", "d"⟩ }]
  edges := [⟨1, 0, "x", false⟩, ⟨2, 2, "y", false⟩, ⟨1, 0, "z", false⟩, ⟨2, 3, "u", false⟩,
    ⟨3, 2, "v", false⟩, ⟨3, 1, "w", false⟩]

/-- The first of two edges is counted off, and the other one is not. -/
theorem countdown_exact_looped :
    (∀ e ∈ looped.edges, e.source < looped.order) ∧
      ReflTransGen (Stage.Step looped) (.start looped) ⟨⟨[0, 1, 2, 2], [], [0]⟩, [1]⟩ ∧
      Stage.Exact looped ⟨⟨[0, 1, 2, 2], [], [0]⟩, [1]⟩ ∧
      Schedule.run looped 4 (.initial looped) = ⟨[0, 0, 2, 1], [], [1, 0]⟩ ∧
      (Schedule.run looped 4 (.initial looped)).ready = [] := by
  have hsource : ∀ e ∈ looped.edges, e.source < looped.order := by decide
  have htake : Stage.Step looped (.start looped) ⟨⟨[0, 2, 2, 2], [], [0]⟩, [1, 1]⟩ :=
    .take (.refl _)
  have hsteps := (ReflTransGen.single htake).tail .release
  obtain ⟨hstages, -, hend⟩ := Stage.countdown_exact looped hsource
  exact ⟨hsource, hsteps, (hstages _ hsteps).1, rfl, hend⟩

end Injection
