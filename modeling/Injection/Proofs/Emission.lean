import Injection.Proofs.Before
import Injection.Proofs.Build
import Injection.Proofs.Walk
import Injection.Schedule
import Mathlib.Data.List.Perm.Subperm

/-!
# Emission

What the schedule emits: each node at its turn is the lowest one whose dependencies are all there.
From this alone it follows which of two nodes comes first.

## Main definitions

* `Graph.Eligible` — whether a node can come next.
* `Graph.Emitted` — the lists of nodes that come about by emitting the lowest eligible node.
* `Schedule.Sound` — what holds of a schedule while the nodes that depend on the last one are
  released.
-/

namespace Injection

open Relation

namespace Graph

variable {g : Graph} {done front back : List Nat} {u v w : Nat}

/-! ## Eligible nodes -/

/-- Whether a node can come next: it is not there, and all that it depends on is. -/
structure Eligible (g : Graph) (done : List Nat) (v : Nat) : Prop where
  lt : v < g.order
  new : v ∉ done
  ready : ∀ u, Adjacent g.edges v u → u ∈ done

/-- The nodes, the last one first, that are there after emitting the lowest eligible node again
and again. -/
inductive Emitted (g : Graph) : List Nat → Prop
  | nil : Emitted g []
  | cons {done : List Nat} {v : Nat} (h : Emitted g done) (hv : g.Eligible done v)
      (hleast : ∀ w, g.Eligible done w → v ≤ w) : Emitted g (v :: done)

namespace Emitted

theorem nodup (h : g.Emitted done) : done.Nodup := by
  induction h with
  | nil => exact .nil
  | cons _ hv _ ih => exact List.nodup_cons.mpr ⟨hv.new, ih⟩

theorem lt (h : g.Emitted done) (hv : v ∈ done) : v < g.order := by
  induction h with
  | nil => cases hv
  | cons _ hw _ ih =>
    rcases List.mem_cons.mp hv with rfl | hv
    · exact hw.lt
    · exact ih hv

theorem subset_range (h : g.Emitted done) : done ⊆ List.range g.order :=
  fun _ hv => List.mem_range.mpr (h.lt hv)

theorem length_le (h : g.Emitted done) : done.length ≤ g.order := by
  simpa using (List.subperm_of_subset h.nodup h.subset_range).length_le

theorem tail (h : g.Emitted (v :: done)) : g.Emitted done := by
  cases h with
  | cons h => exact h

theorem of_append (h : g.Emitted (front ++ done)) : g.Emitted done := by
  induction front with
  | nil => exact h
  | cons _ _ ih =>
    cases h with
    | cons h => exact ih h

theorem eligible (h : g.Emitted (front ++ v :: back)) : g.Eligible back v := by
  cases h.of_append with
  | cons _ hv => exact hv

theorem least (h : g.Emitted (front ++ v :: back)) (hw : g.Eligible back w) : v ≤ w := by
  cases h.of_append with
  | cons _ _ hleast => exact hleast w hw

/-- All that the nodes that are there lead to is there. -/
theorem mem_of_reflTransGen (h : g.Emitted done) (hv : v ∈ done)
    (hvu : ReflTransGen (Adjacent g.edges) v u) : u ∈ done := by
  induction hvu with
  | refl => exact hv
  | tail _ hadj ih =>
    obtain ⟨front, back, rfl⟩ := List.append_of_mem ih
    exact List.mem_append_right _ (List.mem_cons_of_mem _ (h.eligible.ready _ hadj))

/-- All that a node leads to is there before it. -/
theorem mem_of_transGen (h : g.Emitted (front ++ v :: back))
    (hvu : TransGen (Adjacent g.edges) v u) : u ∈ back := by
  obtain ⟨x, hadj, hxu⟩ := TransGen.head'_iff.mp hvu
  exact h.of_append.tail.mem_of_reflTransGen (h.eligible.ready x hadj) hxu

/-- A node that comes later leads to a node that is not lower, and not there yet. -/
theorem exists_le (h : g.Emitted (front ++ w :: back)) (hv : v ∈ front) :
    ∃ z, ReflTransGen (Adjacent g.edges) v z ∧ z ∉ back ∧ w ≤ z := by
  induction front generalizing v with
  | nil => cases hv
  | cons f rest ih =>
    obtain _ | ⟨hrest, hlast, -⟩ := h
    rcases List.mem_cons.mp hv with rfl | hv
    · by_cases hready : ∀ u, Adjacent g.edges v u → u ∈ back
      · have hnew : v ∉ back := fun hm => hlast.new (by simp [hm])
        exact ⟨v, .refl, hnew, hrest.least ⟨hlast.lt, hnew, hready⟩⟩
      · push Not at hready
        obtain ⟨u, hvu, hu⟩ := hready
        rcases List.mem_append.mp (hlast.ready u hvu) with hm | hm
        · obtain ⟨z, huz, hz, hwz⟩ := ih hrest hm
          exact ⟨z, .head hvu huz, hz, hwz⟩
        · obtain rfl := (List.mem_cons.mp hm).resolve_right hu
          exact ⟨u, .single hvu, hu, le_rfl⟩
    · exact ih hrest hv

/-! ## Which of two nodes comes first -/

/-- The law of which node comes first, for nodes that stand last first. -/
theorem before_iff (h : g.Emitted done) (hv : v ∈ done) (hw : w ∈ done) :
    Before done w v ↔ ∀ x, ReflTransGen (Adjacent g.edges) v x →
      x < w ∨ ∃ y, Adjacent g.edges w y ∧ (x = y ∨ Before done y x) := by
  obtain ⟨front, back, rfl⟩ := List.append_of_mem hw
  have hnodup := h.nodup
  have hw' := h.eligible
  rw [before_append_cons_iff hnodup]
  constructor
  · intro hv x hx
    have hback : g.Emitted back := h.of_append.tail
    obtain ⟨b1, b2, rfl⟩ := List.append_of_mem (hback.mem_of_reflTransGen hv hx)
    by_cases hready : g.Eligible b2 w
    · -- `w` could have come in place of `x`
      refine .inl (lt_of_le_of_ne (hback.least hready) ?_)
      rintro rfl
      exact hw'.new (by simp)
    · -- `w` was held up by a dependency that comes no earlier than `x`
      have hex : ∃ y, Adjacent g.edges w y ∧ y ∉ b2 := by
        by_contra hno
        push Not at hno
        exact hready ⟨hw'.lt, fun hm => hw'.new (by simp [hm]), hno⟩
      obtain ⟨y, hwy, hy⟩ := hex
      refine .inr ⟨y, hwy, ?_⟩
      rcases List.mem_append.mp (hw'.ready y hwy) with hm | hm
      · obtain ⟨c1, c2, rfl⟩ := List.append_of_mem hm
        exact .inr (before_iff_exists.mpr ⟨front ++ w :: c1, c2 ++ x :: b2, by simp, by simp⟩)
      · exact .inl ((List.mem_cons.mp hm).resolve_right hy).symm
  · intro hcond
    -- no node at or behind `w` can satisfy the condition
    have hlate : ∀ z, z ∉ back → w ≤ z → ¬ ReflTransGen (Adjacent g.edges) v z := by
      intro z hz hwz hreach
      obtain hlt | ⟨y, hwy, hzy⟩ := hcond z hreach
      · omega
      · have hy := hw'.ready y hwy
        rcases hzy with rfl | hzy
        · exact hz hy
        · obtain ⟨b1, b2, rfl⟩ := List.append_of_mem hy
          rw [List.append_cons, ← List.append_assoc] at hnodup hzy
          have := (before_append_cons_iff hnodup).mp hzy
          exact hz (by simp [this])
    rcases List.mem_append.mp hv with hm | hm
    · obtain ⟨z, hvz, hz, hwz⟩ := h.exists_le hm
      exact absurd hvz (hlate z hz hwz)
    · refine (List.mem_cons.mp hm).resolve_left ?_
      rintro rfl
      exact hlate v hw'.new le_rfl .refl

end Emitted

end Graph

/-! ## The schedule -/

namespace Schedule

variable {g : Graph} {s after : Schedule} {ready rest : List Nat} {node v : Nat}

theorem mem_insertReady : v ∈ insertReady node ready ↔ v = node ∨ v ∈ ready := by
  fun_induction insertReady node ready with
  | case1 => simp
  | case2 => simp
  | case3 head rest _ ih => simp only [List.mem_cons, ih]; tauto

theorem pairwise_insertReady (h : ready.Pairwise (· < ·)) (hnew : node ∉ ready) :
    (insertReady node ready).Pairwise (· < ·) := by
  fun_induction insertReady node ready with
  | case1 => simp
  | case2 head rest hle =>
    have hlt : node < head := by grind
    refine .cons (fun x hx => ?_) h
    rcases List.mem_cons.mp hx with rfl | hx
    · exact hlt
    · exact hlt.trans (List.rel_of_pairwise_cons h hx)
  | case3 head rest hle ih =>
    refine .cons (fun x hx => ?_) (ih h.of_cons fun hm => hnew (List.mem_cons_of_mem _ hm))
    rcases mem_insertReady.mp hx with rfl | hx
    · omega
    · exact List.rel_of_pairwise_cons h hx

@[simp] theorem emitted_release (s : Schedule) (v : Nat) : (s.release v).emitted = s.emitted := by
  rw [release]
  split <;> rfl

@[simp] theorem emitted_foldl_release (s : Schedule) (nodes : List Nat) :
    (nodes.foldl release s).emitted = s.emitted := by
  induction nodes generalizing s with
  | nil => rfl
  | cons v rest ih => rw [List.foldl_cons, ih, emitted_release]

theorem length_emitted_of_next? (h : next? g s = some after) :
    after.emitted.length = s.emitted.length + 1 := by
  obtain ⟨pending, ready, emitted⟩ := s
  cases ready with
  | nil => cases h
  | cons node ready =>
    obtain rfl := Option.some.inj h
    simp

theorem next?_eq_none_iff : next? g s = none ↔ s.ready = [] := by
  rw [next?]
  split <;> simp_all

/-- A run emits a node in every step, unless no node is ready at its end. -/
theorem ready_run_eq_nil_or (s : Schedule) (steps : Nat) :
    (run g steps s).ready = [] ∨ (run g steps s).emitted.length = s.emitted.length + steps := by
  induction steps generalizing s with
  | zero => exact .inr rfl
  | succ steps ih =>
    cases hnext : next? g s with
    | none =>
      rw [run, hnext]
      exact .inl (next?_eq_none_iff.mp hnext)
    | some after =>
      rw [run, hnext]
      refine (ih after).imp_right fun h => ?_
      rw [h, length_emitted_of_next? hnext]
      omega

/-- How many edges of a node lead to nodes that are not there. -/
def openEdges (g : Graph) (done : List Nat) (v : Nat) : Nat :=
  (g.edgesFrom v).countP fun e => decide (e.target ∉ done)

/-- A schedule that has emitted a node, and has still to release some of the nodes that depend on
it. -/
structure Sound (g : Graph) (rest : List Nat) (s : Schedule) : Prop where
  pending : ∀ v < g.order, s.pending[v]? = some (openEdges g s.emitted v + rest.count v)
  ascending : s.ready.Pairwise (· < ·)
  mem_ready : ∀ v, v ∈ s.ready ↔ v < g.order ∧ v ∉ s.emitted ∧ s.pending[v]? = some 0
  waiting : ∀ v ∈ rest, v < g.order ∧ v ∉ s.emitted
  emitted : g.Emitted s.emitted

namespace Sound

/-- To release a node that waits keeps the schedule sound. -/
theorem release (h : Sound g (v :: rest) s) : Sound g rest (s.release v) := by
  obtain ⟨hlt, hnew⟩ := h.waiting v List.mem_cons_self
  have hv : s.pending[v]? = some (openEdges g s.emitted v + rest.count v + 1) := by
    rw [h.pending v hlt, List.count_cons_self, ← Nat.add_assoc]
  have hpending : ∀ w, (s.pending.modify v (· - 1))[w]? =
      if w = v then some (openEdges g s.emitted v + rest.count v) else s.pending[w]? := by
    intro w
    rw [List.getElem?_modify]
    split
    · next he => rw [if_pos he.symm, ← he, hv]; rfl
    · next he => rw [if_neg (Ne.symm he)]; simp
  have hwaiting : ∀ w ∈ rest, w < g.order ∧ w ∉ s.emitted :=
    fun w hw => h.waiting w (List.mem_cons_of_mem v hw)
  have hkept : ∀ w < g.order, (s.pending.modify v (· - 1))[w]? =
      some (openEdges g s.emitted w + rest.count w) := by
    intro w hw
    rw [hpending]
    split
    · next he => rw [he]
    · next he => rw [h.pending w hw, List.count_cons_of_ne (Ne.symm he)]
  have hnotReady : v ∉ s.ready := by
    intro hm
    have hzero := ((h.mem_ready v).mp hm).2.2
    rw [hv] at hzero
    cases hzero
  unfold Schedule.release
  dsimp only
  split
  · next hzero =>
    refine ⟨hkept, pairwise_insertReady h.ascending hnotReady, fun w => ?_, hwaiting, h.emitted⟩
    rw [mem_insertReady, h.mem_ready]
    by_cases hw : w = v
    · subst hw
      exact iff_of_true (.inl rfl) ⟨hlt, hnew, hzero⟩
    · simp [hpending, hw]
  · next hpos =>
    refine ⟨hkept, h.ascending, fun w => ?_, hwaiting, h.emitted⟩
    by_cases hw : w = v
    · subst hw
      exact iff_of_false hnotReady fun hw => hpos hw.2.2
    · simp [hpending, hw, h.mem_ready]

theorem foldl_release (h : Sound g rest s) : Sound g [] (rest.foldl Schedule.release s) := by
  induction rest generalizing s with
  | nil => exact h
  | cons v rest ih => exact ih h.release

theorem openEdges_eq_zero_iff {done : List Nat} :
    openEdges g done v = 0 ↔ ∀ u, Adjacent g.edges v u → u ∈ done := by
  simp only [openEdges, Graph.edgesFrom, List.countP_eq_zero, List.mem_filter, beq_iff_eq,
    decide_eq_true_eq, not_not]
  constructor
  · rintro h u ⟨e, he, hsource, rfl⟩
    exact h e ⟨he, hsource⟩
  · exact fun h e he => h e.target ⟨e, he.1, he.2, rfl⟩

theorem mem_ready_iff (h : Sound g [] s) : v ∈ s.ready ↔ g.Eligible s.emitted v := by
  rw [h.mem_ready]
  constructor
  · rintro ⟨hlt, hnew, hzero⟩
    rw [h.pending v hlt, List.count_nil, Nat.add_zero, Option.some.injEq] at hzero
    exact ⟨hlt, hnew, openEdges_eq_zero_iff.mp hzero⟩
  · rintro ⟨hlt, hnew, hready⟩
    rw [h.pending v hlt, openEdges_eq_zero_iff.mpr hready]
    exact ⟨hlt, hnew, rfl⟩

theorem openEdges_eq_add {done : List Nat} (hnew : node ∉ done) :
    openEdges g done v = openEdges g (node :: done) v + (g.dependents node).count v := by
  simp only [openEdges, Graph.edgesFrom, Graph.dependents, Graph.edgesInto, List.count,
    List.countP_map, List.countP_filter]
  induction g.edges with
  | nil => rfl
  | cons e es ih =>
    simp only [List.countP_cons, ih]
    by_cases hs : e.source = v <;> by_cases ht : e.target = node <;> grind

/-- To emit the lowest ready node keeps the schedule sound, in whatever order the nodes that depend
on it wait to be released. -/
theorem take {pending emitted : List Nat} (hsource : ∀ e ∈ g.edges, e.source < g.order)
    (h : Sound g [] ⟨pending, node :: ready, emitted⟩) (hwaiting : rest.Perm (g.dependents node)) :
    Sound g rest ⟨pending, ready, node :: emitted⟩ := by
  have hnode : g.Eligible emitted node := h.mem_ready_iff.mp List.mem_cons_self
  have hascending := List.pairwise_cons.mp h.ascending
  have hleast : ∀ w, g.Eligible emitted w → node ≤ w := by
    intro w hw
    rcases List.mem_cons.mp (h.mem_ready_iff.mpr hw) with rfl | hm
    · exact le_rfl
    · exact (hascending.1 w hm).le
  refine ⟨fun v hv => ?_, hascending.2, fun v => ?_, fun v hv => ?_,
    .cons h.emitted hnode hleast⟩
  · have hpending := h.pending v hv
    rw [List.count_nil, Nat.add_zero] at hpending
    rw [hpending, openEdges_eq_add hnode.new, hwaiting.count_eq]
  · have hv := h.mem_ready v
    have hnode' : node ∉ ready := fun hm => lt_irrefl node (hascending.1 node hm)
    by_cases he : v = node
    · subst he
      exact iff_of_false hnode' fun hw => hw.2.1 List.mem_cons_self
    · simpa [he] using hv
  · obtain ⟨e, he, rfl⟩ := List.mem_map.mp (hwaiting.mem_iff.mp hv)
    obtain ⟨he, htarget⟩ := List.mem_filter.mp he
    have hadj : Adjacent g.edges e.source node := ⟨e, he, rfl, by simpa using htarget⟩
    refine ⟨hsource e he, fun hm => hnode.new ?_⟩
    rcases List.mem_cons.mp hm with hself | hm
    · exact hnode.ready node (hself ▸ hadj)
    · exact h.emitted.mem_of_reflTransGen hm (.single hadj)

/-- One step keeps the schedule sound. -/
theorem next? (hg : g.Sound) (h : Sound g [] s)
    (hnext : Schedule.next? g s = some after) : Sound g [] after := by
  obtain ⟨pending, ready, emitted⟩ := s
  cases ready with
  | nil => cases hnext
  | cons node ready =>
    obtain rfl := Option.some.inj hnext
    exact (h.take hg.source_lt (.refl _)).foldl_release

theorem run (hg : g.Sound) (h : Sound g [] s) (steps : Nat) :
    Sound g [] (Schedule.run g steps s) := by
  induction steps generalizing s with
  | zero => exact h
  | succ steps ih =>
    unfold Schedule.run
    split
    · exact h
    · next after hnext => exact ih (h.next? hg hnext)

theorem initial (g : Graph) : Sound g [] (.initial g) := by
  have hpending : ∀ v < g.order,
      (Schedule.initial g).pending[v]? = some (g.edgesFrom v).length := by
    intro v hv
    simp [Schedule.initial, hv]
  refine ⟨fun v hv => ?_, List.pairwise_lt_range.filter _, fun v => ?_, by simp, .nil⟩
  · have hopen : openEdges g [] v = (g.edgesFrom v).length := by simp [openEdges]
    exact (hpending v hv).trans (congrArg some hopen.symm)
  · have hready : v ∈ (Schedule.initial g).ready ↔ v < g.order ∧ g.edgesFrom v = [] := by
      simp [Schedule.initial]
    rw [hready]
    apply and_congr_right
    intro hv
    rw [hpending v hv, Option.some.injEq, List.length_eq_zero_iff]
    exact ⟨fun he => ⟨List.not_mem_nil, he⟩, And.right⟩

end Sound

end Schedule

/-! ## The order -/

namespace Graph

variable {g : Graph} {order : List Nat} {v w : Nat}

/-- The order emits the nodes as the schedule says, all of them. -/
theorem Sound.emitted_of_schedule? (hs : g.Sound) (h : g.schedule? = some order) :
    g.Emitted order.reverse ∧ order.length = g.order := by
  unfold schedule? at h
  dsimp only at h
  split at h
  · next hlength =>
    obtain rfl := Option.some.inj h
    rw [List.reverse_reverse]
    exact ⟨((Schedule.Sound.initial g).run hs g.order).emitted, hlength⟩
  · cases h

theorem Sound.perm_of_schedule? (hs : g.Sound) (h : g.schedule? = some order) :
    order.Perm (List.range g.order) := by
  obtain ⟨hemitted, hlength⟩ := hs.emitted_of_schedule? h
  have hsubperm := List.subperm_of_subset hemitted.nodup hemitted.subset_range
  exact (List.reverse_perm order).symm.trans (hsubperm.perm_of_length_le (by simp [hlength]))

theorem Sound.before_of_reaches (hs : g.Sound) (h : g.schedule? = some order) (hv : v ∈ order)
    (hvw : TransGen (Adjacent g.edges) v w) : Before order w v := by
  obtain ⟨hemitted, -⟩ := hs.emitted_of_schedule? h
  obtain ⟨front, back, hsplit⟩ := List.append_of_mem (List.mem_reverse.mpr hv)
  rw [← before_reverse, hsplit, before_append_cons_iff (hsplit ▸ hemitted.nodup)]
  exact (hsplit ▸ hemitted).mem_of_transGen hvw

/-- What holds a node up is what it depends on, and lower nodes: a node comes before another one
exactly if each node that it leads to is lower than the other one, or no later than something that
the other one depends on. -/
theorem Sound.before_iff (hs : g.Sound) (h : g.schedule? = some order) (hv : v ∈ order)
    (hw : w ∈ order) :
    Before order v w ↔ ∀ x, ReflTransGen (Adjacent g.edges) v x →
      x < w ∨ ∃ y, Adjacent g.edges w y ∧ (x = y ∨ Before order x y) := by
  obtain ⟨hemitted, -⟩ := hs.emitted_of_schedule? h
  have hlaw := hemitted.before_iff (List.mem_reverse.mpr hv) (List.mem_reverse.mpr hw)
  simpa only [before_reverse] using hlaw

end Graph

end Injection
