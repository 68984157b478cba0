import Injection.Proofs.Acyclic

/-!
# The least order

Of all the orders in which each node stands behind what it depends on, the schedule gives the one
that comes first when they are compared number by number. Where another such order first differs
from it, that order has a node that could have come next; and the schedule took the lowest.

## Main definitions

* `Graph.Arranged` — whether a list holds all nodes, each of them behind what it depends on.
-/

namespace Injection

/-- Different lists of one length have a first place at which they differ. -/
theorem exists_first_difference {α : Type} {xs ys : List α} (hlength : xs.length = ys.length)
    (hne : xs ≠ ys) : ∃ front x y xs' ys',
      xs = front ++ x :: xs' ∧ ys = front ++ y :: ys' ∧ x ≠ y := by
  induction xs generalizing ys with
  | nil => exact absurd (List.length_eq_zero_iff.mp hlength.symm).symm hne
  | cons x xs ih =>
    cases ys with
    | nil => cases hlength
    | cons y ys =>
      by_cases hxy : x = y
      · subst hxy
        have hrest : xs ≠ ys := fun he => hne (congrArg (x :: ·) he)
        obtain ⟨front, a, b, xs', ys', rfl, rfl, hab⟩ := ih (Nat.succ.inj hlength) hrest
        exact ⟨x :: front, a, b, xs', ys', rfl, rfl, hab⟩
      · exact ⟨[], x, y, xs, ys, rfl, rfl, hxy⟩

namespace Graph

variable {g : Graph} {order other front back : List Nat} {v w : Nat}

/-! ## Arrangements -/

/-- Whether a list holds each node once, and each behind all that it depends on. -/
structure Arranged (g : Graph) (order : List Nat) : Prop where
  perm : order.Perm (List.range g.order)
  before : ∀ e ∈ g.edges, Before order e.target e.source

theorem Arranged.nodup (h : g.Arranged order) : order.Nodup :=
  h.perm.nodup_iff.mpr List.nodup_range

/-- Each node of an arrangement could come next when it comes. -/
theorem Arranged.eligible (h : g.Arranged (front ++ v :: back)) : g.Eligible front v := by
  have hnew := (List.nodup_cons.mp (List.nodup_middle.mp h.nodup)).1
  refine ⟨?_, fun hm => hnew (List.mem_append_left _ hm), ?_⟩
  · exact List.mem_range.mp (h.perm.mem_iff.mp (by simp))
  · rintro u ⟨e, he, rfl, rfl⟩
    have hbefore := h.before e he
    have hmem := hbefore.left_mem
    rw [List.mem_append] at hmem
    refine hmem.resolve_right fun hmem => ?_
    rcases List.mem_cons.mp hmem with hself | hback
    · exact hbefore.ne h.nodup hself
    · exact hbefore.asymm h.nodup ((before_append_cons_iff h.nodup).mpr hback)

/-- Whether a node can come next depends on which nodes are there, not on how they are listed. -/
theorem Eligible.of_mem_iff {done done' : List Nat} (h : g.Eligible done v)
    (hdone : ∀ u, u ∈ done ↔ u ∈ done') : g.Eligible done' v where
  lt := h.lt
  new := fun hm => h.new ((hdone v).mpr hm)
  ready := fun u hu => (hdone u).mp (h.ready u hu)

theorem eligible_reverse : g.Eligible front.reverse v ↔ g.Eligible front v :=
  ⟨fun h => h.of_mem_iff fun _ => List.mem_reverse,
    fun h => h.of_mem_iff fun _ => List.mem_reverse.symm⟩

/-! ## The order of the schedule -/

namespace Sound

variable (hs : g.Sound)

include hs

theorem arranged_of_schedule? (h : g.schedule? = some order) : g.Arranged order := by
  refine ⟨hs.perm_of_schedule? h, fun e he => ?_⟩
  have hsource : e.source ∈ order :=
    (hs.perm_of_schedule? h).mem_iff.mpr (List.mem_range.mpr (hs.source_lt e he))
  exact hs.before_of_reaches h hsource (.single ⟨e, he, rfl, rfl⟩)

/-- At each place of the order stands the lowest node that can come next. -/
theorem least_of_schedule? (h : g.schedule? = some (front ++ v :: back)) :
    g.Eligible front v ∧ ∀ w, g.Eligible front w → v ≤ w := by
  obtain ⟨hemitted, -⟩ := hs.emitted_of_schedule? h
  rw [List.reverse_append, List.reverse_cons, List.append_assoc, List.singleton_append]
    at hemitted
  exact ⟨eligible_reverse.mp hemitted.eligible,
    fun w hw => hemitted.least (eligible_reverse.mpr hw)⟩

/-- No arrangement comes before the order of the schedule. -/
theorem lex_of_schedule? (h : g.schedule? = some order) (hother : g.Arranged other)
    (hne : other ≠ order) : List.Lex (· < ·) order other := by
  have hlength : order.length = other.length :=
    ((hs.perm_of_schedule? h).trans hother.perm.symm).length_eq
  -- where the lists first differ, the other one has a node that could have come next
  obtain ⟨front, v, w, back, back', rfl, rfl, hvw⟩ := exists_first_difference hlength hne.symm
  have hle : v ≤ w := (hs.least_of_schedule? h).2 w hother.eligible
  exact .append_left _ (.rel (lt_of_le_of_ne hle hvw)) front

end Sound

/-- A graph of a module without cycles has an order, which holds each node once and behind all that
it depends on. Of all such lists of nodes it is the least one, compared number by number; at each
place stands the lowest node all of whose dependencies stand before that place. -/
theorem schedule_least {m : ModuleDecl} (hacyclic : ∀ i, ¬ (build m).Reaches i i) :
    ∃ order, (build m).schedule? = some order ∧ (build m).Arranged order ∧
      (∀ other, (build m).Arranged other → other ≠ order → List.Lex (· < ·) order other) ∧
      ∀ front v back, order = front ++ v :: back →
        (build m).Eligible front v ∧ ∀ w, (build m).Eligible front w → v ≤ w := by
  have hs := sound_build m
  have hsome : (build m).schedule? ≠ none := fun hnone => by
    obtain ⟨i, hi⟩ := hs.schedule?_eq_none_iff.mp hnone
    exact hacyclic i hi
  obtain ⟨order, horder⟩ := Option.ne_none_iff_exists'.mp hsome
  refine ⟨order, horder, hs.arranged_of_schedule? horder, fun other => ?_, ?_⟩
  · exact hs.lex_of_schedule? horder
  · rintro front v back rfl
    exact hs.least_of_schedule? horder

end Graph

/-- A bean that needs two others, both of which need a fourth one, the second of them twice. -/
def diamond : ModuleDecl where
  name := "m"
  beans := [
    { name := ⟨"m", "a"⟩
      dependencies := [⟨⟨"m", "b"⟩, "b", .direct⟩, ⟨⟨"m", "c"⟩, "c", .direct⟩] },
    { name := ⟨"m", "b"⟩, dependencies := [⟨⟨"m", "d"⟩, "d", .direct⟩] },
    { name := ⟨"m", "c"⟩
      dependencies := [⟨⟨"m", "d"⟩, "x", .direct⟩, ⟨⟨"m", "d"⟩, "y", .direct⟩] },
    { name := ⟨"m", "d"⟩ }]

theorem schedule_least_diamond :
    (∀ i, ¬ (Graph.build diamond).Reaches i i) ∧
      (Graph.build diamond).schedule? = some [3, 1, 2, 0] ∧
      (Graph.build diamond).Arranged [3, 2, 1, 0] ∧
      ∀ other, (Graph.build diamond).Arranged other → other ≠ [3, 1, 2, 0] →
        List.Lex (· < ·) [3, 1, 2, 0] other := by
  have horder : (Graph.build diamond).schedule? = some [3, 1, 2, 0] := by cbv
  have hacyclic : ∀ i, ¬ (Graph.build diamond).Reaches i i := fun i hi => by
    have hnone := (Graph.sound_build diamond).schedule?_eq_none_iff.mpr ⟨i, hi⟩
    rw [horder] at hnone
    cases hnone
  obtain ⟨order, horder', -, hleast, -⟩ := Graph.schedule_least hacyclic
  obtain rfl : [3, 1, 2, 0] = order := Option.some.inj (horder.symm.trans horder')
  refine ⟨hacyclic, horder, ⟨by decide, ?_⟩, hleast⟩
  decide

end Injection
