import Injection.Graph
import Mathlib.Data.List.Rotate
import Mathlib.Logic.Relation

/-!
# Walks and loops

A walk is a list of edges in which each edge starts where the one before it ends. A loop is a
closed walk that leaves no node twice; it can be walked from any of its nodes.

## Main definitions

* `Walk` — the walks along the edges of a list, from a node to a node.
* `Adjacent` — whether an edge leads from a node to a node.
* `IsLoop` — the closed walks through different nodes.

Walks are the derivations of reachability, and every closed walk contains a loop.
-/

namespace Injection

open Relation

variable {edges edges' es fs : List Edge} {u v w : Nat}

/-! ## Walks -/

/-- A walk along the edges of a list, from a node to a node. -/
inductive Walk (edges : List Edge) : Nat → List Edge → Nat → Prop
  | nil (u : Nat) : Walk edges u [] u
  | cons {e : Edge} {es : List Edge} {w : Nat} (he : e ∈ edges) (h : Walk edges e.target es w) :
      Walk edges e.source (e :: es) w

/-- Whether an edge leads from a node to a node. -/
def Adjacent (edges : List Edge) (u v : Nat) : Prop := ∃ e ∈ edges, e.source = u ∧ e.target = v

namespace Walk

theorem append (h : Walk edges u es v) (h' : Walk edges v fs w) : Walk edges u (es ++ fs) w := by
  induction h with
  | nil => exact h'
  | cons he _ ih => exact .cons he (ih h')

theorem exists_of_append (h : Walk edges u (es ++ fs) w) :
    ∃ v, Walk edges u es v ∧ Walk edges v fs w := by
  induction es generalizing u with
  | nil => exact ⟨u, .nil u, h⟩
  | cons e es ih =>
    cases h with
    | cons he h =>
      obtain ⟨v, h1, h2⟩ := ih h
      exact ⟨v, .cons he h1, h2⟩

theorem mem_edges (h : Walk edges u es w) {e : Edge} (he : e ∈ es) : e ∈ edges := by
  induction h with
  | nil => cases he
  | cons hmem _ ih =>
    rcases List.mem_cons.mp he with rfl | he
    · exact hmem
    · exact ih he

theorem of_forall_mem (h : Walk edges u es w) (hsub : ∀ e ∈ es, e ∈ edges') :
    Walk edges' u es w := by
  induction h with
  | nil u => exact .nil u
  | cons _ _ ih =>
    exact .cons (hsub _ List.mem_cons_self) (ih fun e he => hsub e (List.mem_cons_of_mem _ he))

theorem source_eq {e : Edge} (h : Walk edges u (e :: es) w) : u = e.source := by
  cases h
  rfl

theorem tail {e : Edge} (h : Walk edges u (e :: es) w) : Walk edges e.target es w := by
  cases h with
  | cons _ h => exact h

theorem eq_of_nil (h : Walk edges u [] w) : u = w := by
  cases h
  rfl

/-- A list of edges is a walk if each edge but the first starts where the one before it ends. -/
theorem iff_map_target :
    Walk edges u es w ↔
      (∀ e ∈ es, e ∈ edges) ∧ u :: es.map (·.target) = es.map (·.source) ++ [w] := by
  induction es generalizing u with
  | nil =>
    refine ⟨fun h => ?_, fun ⟨_, h⟩ => ?_⟩
    · simp [h.eq_of_nil]
    · obtain rfl : u = w := by simpa using h
      exact .nil u
  | cons e es ih =>
    simp only [List.map_cons, List.cons_append, List.cons.injEq, List.forall_mem_cons]
    constructor
    · intro h
      have hrest := ih.mp h.tail
      exact ⟨⟨h.mem_edges List.mem_cons_self, hrest.1⟩, h.source_eq, hrest.2⟩
    · rintro ⟨⟨he, hes⟩, rfl, h⟩
      exact .cons he (ih.mpr ⟨hes, h⟩)

/-- A closed walk can be started at any of its cuts. -/
theorem rotate (h : Walk edges u (es ++ fs) u) : ∃ v, Walk edges v (fs ++ es) v := by
  obtain ⟨v, h1, h2⟩ := h.exists_of_append
  exact ⟨v, h2.append h1⟩

/-- An edge of a closed walk leads to a node that an edge of the walk leaves. -/
theorem exists_source_eq_target (h : Walk edges u es u) {e : Edge} (he : e ∈ es) :
    ∃ f ∈ es, f.source = e.target := by
  obtain ⟨front, back, rfl⟩ := List.append_of_mem he
  obtain ⟨v, hv⟩ := h.rotate
  obtain rfl := hv.source_eq
  have hrest : Walk edges e.target (back ++ front) e.source := hv.tail
  cases hnext : back ++ front with
  | nil => exact ⟨e, he, (hnext ▸ hrest).eq_of_nil.symm⟩
  | cons f rest =>
    have hf : f ∈ back ++ front := hnext ▸ List.mem_cons_self
    exact ⟨f, by grind, (hnext ▸ hrest).source_eq.symm⟩

/-! ## Reachability -/

theorem reflTransGen (h : Walk edges u es w) : ReflTransGen (Adjacent edges) u w := by
  induction h with
  | nil => exact .refl
  | @cons e _ _ he _ ih => exact .head ⟨e, he, rfl, rfl⟩ ih

theorem transGen (h : Walk edges u es w) (hne : es ≠ []) : TransGen (Adjacent edges) u w := by
  cases h with
  | nil => exact absurd rfl hne
  | @cons e _ _ he h => exact .head' ⟨e, he, rfl, rfl⟩ h.reflTransGen

theorem exists_of_transGen (h : TransGen (Adjacent edges) u w) :
    ∃ es, Walk edges u es w ∧ es ≠ [] := by
  induction h with
  | single hadj =>
    obtain ⟨e, he, rfl, rfl⟩ := hadj
    exact ⟨[e], .cons he (.nil _), by simp⟩
  | tail _ hadj ih =>
    obtain ⟨es, hes, -⟩ := ih
    obtain ⟨e, he, rfl, rfl⟩ := hadj
    exact ⟨es ++ [e], hes.append (.cons he (.nil _)), by simp⟩

end Walk

/-! ## Loops -/

/-- A closed walk that leaves no node twice. -/
structure IsLoop (edges loop : List Edge) : Prop where
  nonempty : loop ≠ []
  distinct : (loop.map (·.source)).Nodup
  closed : ∃ u, Walk edges u loop u

namespace IsLoop

variable {loop loop' : List Edge}

theorem mem_edges (h : IsLoop edges loop) {e : Edge} (he : e ∈ loop) : e ∈ edges :=
  h.closed.elim fun _ hw => hw.mem_edges he

theorem of_forall_mem (h : IsLoop edges loop) (hsub : ∀ e ∈ loop, e ∈ edges') :
    IsLoop edges' loop :=
  ⟨h.nonempty, h.distinct, h.closed.imp fun _ hw => hw.of_forall_mem hsub⟩

/-- Edges are a loop if they leave different nodes and each leads to the node that the next one
leaves, the last one to the node that the first one leaves. -/
theorem iff_map_target :
    IsLoop edges loop ↔ loop ≠ [] ∧ (∀ e ∈ loop, e ∈ edges) ∧ (loop.map (·.source)).Nodup ∧
      loop.map (·.target) = (loop.map (·.source)).rotate 1 := by
  cases loop with
  | nil => exact iff_of_false (fun h => h.nonempty rfl) (by simp)
  | cons e es =>
    rw [List.map_cons, List.map_cons, List.rotate_cons_succ, List.rotate_zero]
    constructor
    · intro h
      obtain ⟨u, hwalk⟩ := h.closed
      obtain rfl := hwalk.source_eq
      obtain ⟨hsub, hends⟩ := Walk.iff_map_target.mp hwalk
      exact ⟨h.nonempty, hsub, h.distinct, (List.cons.inj hends).2⟩
    · intro ⟨hne, hsub, hnodup, hends⟩
      exact ⟨hne, hnodup, e.source, Walk.iff_map_target.mpr ⟨hsub, congrArg _ hends⟩⟩

/-- A loop can be started at any of its nodes. -/
theorem of_isRotated (h : IsLoop edges loop) (hr : loop ~r loop') : IsLoop edges loop' := by
  obtain ⟨n, hn, rfl⟩ := List.isRotated_iff_mod.mp hr
  obtain ⟨u, hu⟩ := h.closed
  refine ⟨?_, ?_, ?_⟩
  · exact fun he => h.nonempty (List.rotate_eq_nil_iff.mp he)
  · rw [List.map_rotate]
    exact List.nodup_rotate.mpr h.distinct
  · rw [List.rotate_eq_drop_append_take hn]
    exact Walk.rotate ((List.take_append_drop n loop).symm ▸ hu)

/-- The loop from one of its edges on. -/
theorem exists_cons (h : IsLoop edges loop) {e : Edge} (he : e ∈ loop) :
    ∃ rest, loop ~r (e :: rest) ∧ Walk edges e.source (e :: rest) e.source := by
  obtain ⟨front, back, rfl⟩ := List.append_of_mem he
  have hr : front ++ e :: back ~r e :: (back ++ front) := List.isRotated_append
  obtain ⟨u, hu⟩ := (h.of_isRotated hr).closed
  obtain rfl := hu.source_eq
  exact ⟨back ++ front, hr, hu⟩

/-- The nodes of a loop reach each other. -/
theorem transGen (h : IsLoop edges loop) {e f : Edge} (he : e ∈ loop) (hf : f ∈ loop) :
    TransGen (Adjacent edges) e.source f.source := by
  obtain ⟨rest, hr, hw⟩ := h.exists_cons he
  obtain ⟨front, back, hsplit⟩ := List.append_of_mem (hr.mem_iff.mp hf)
  have hround : TransGen (Adjacent edges) e.source e.source := hw.transGen (by simp)
  rw [hsplit] at hw
  obtain ⟨v, h1, h2⟩ := hw.exists_of_append
  obtain rfl := h2.source_eq
  exact hround.trans_left h1.reflTransGen

theorem exists_source_eq_target (h : IsLoop edges loop) {e : Edge} (he : e ∈ loop) :
    ∃ f ∈ loop, f.source = e.target :=
  h.closed.elim fun _ hw => hw.exists_source_eq_target he

end IsLoop

/-- A walk passes no node twice, or contains a loop. -/
theorem Walk.nodup_or_exists_loop (h : Walk edges u es w) :
    ((es.map (·.source)).Nodup ∧ w ∉ es.map (·.source)) ∨ ∃ loop, IsLoop edges loop := by
  induction h with
  | nil => exact .inl ⟨.nil, List.not_mem_nil⟩
  | @cons e es w he h ih =>
    rcases ih with ⟨hnodup, hend⟩ | hloop
    · by_cases hback : e.source ∈ es.map (·.source)
      · -- the walk comes back to `e.source` before its end: cut it there
        obtain ⟨f, hf, hfe⟩ := List.mem_map.mp hback
        obtain ⟨front, back, rfl⟩ := List.append_of_mem hf
        obtain ⟨v, h1, h2⟩ := h.exists_of_append
        obtain rfl := h2.source_eq
        refine .inr ⟨e :: front, by simp, ?_, e.source, .cons he (hfe ▸ h1)⟩
        simp only [List.map_append, List.map_cons, List.nodup_append, hfe] at hnodup
        refine List.nodup_cons.mpr ⟨fun hm => ?_, hnodup.1⟩
        exact hnodup.2.2 _ hm _ List.mem_cons_self rfl
      · by_cases hw : e.source = w
        · subst hw
          exact .inr ⟨e :: es, by simp, List.nodup_cons.mpr ⟨hback, hnodup⟩, _, .cons he h⟩
        · refine .inl ⟨List.nodup_cons.mpr ⟨hback, hnodup⟩, ?_⟩
          simp only [List.map_cons, List.mem_cons, not_or]
          exact ⟨Ne.symm hw, hend⟩
    · exact .inr hloop

theorem exists_loop_of_transGen (h : TransGen (Adjacent edges) u u) :
    ∃ loop, IsLoop edges loop := by
  obtain ⟨es, hes, hne⟩ := Walk.exists_of_transGen h
  refine hes.nodup_or_exists_loop.resolve_left fun ⟨_, hu⟩ => hu ?_
  cases hes with
  | nil => exact absurd rfl hne
  | cons => exact List.mem_cons_self

end Injection
