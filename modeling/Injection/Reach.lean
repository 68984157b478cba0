/-!
# Reachability

The points that can be reached from a point by steps of a finite relation. The relation is given
by the successors of each point, and only the points of a given list have any.

## Main definitions

* `Reach.unseen` — how many points of a list have not been seen.
* `Reach.visit` — sees the points of a work list and all that they lead to.
* `Reach.fromAny` — the points reached from any of a list of points.
-/

namespace Injection.Reach

variable {α : Type} [DecidableEq α]

/-! ## Points not yet seen -/

/-- How many points of `all` are not among `seen`. -/
def unseen (all seen : List α) : Nat := all.countP fun a => decide (a ∉ seen)

theorem unseen_cons_left (b : α) (rest seen : List α) :
    unseen (b :: rest) seen = unseen rest seen + if b ∈ seen then 0 else 1 := by
  by_cases hb : b ∈ seen <;> simp [unseen, hb]

/-- To see one more point leaves no more points unseen. -/
theorem unseen_cons_le (all seen : List α) (a : α) : unseen all (a :: seen) ≤ unseen all seen := by
  refine List.countP_mono_left fun x _ hx => ?_
  simp only [decide_eq_true_eq, List.mem_cons, not_or] at hx ⊢
  exact hx.2

/-- To see a new point of `all` leaves fewer points unseen. -/
theorem unseen_cons_lt {all seen : List α} {a : α} (ha : a ∈ all) (hs : a ∉ seen) :
    unseen all (a :: seen) < unseen all seen := by
  induction all with
  | nil => cases ha
  | cons b rest ih =>
    rw [unseen_cons_left, unseen_cons_left]
    by_cases hb : b = a
    · subst hb
      have := unseen_cons_le rest seen b
      simp only [List.mem_cons, true_or, if_true, hs, if_false]
      omega
    · have := ih ((List.mem_cons.mp ha).resolve_left (Ne.symm hb))
      simp only [List.mem_cons, hb, false_or]
      omega

/-! ## Visiting -/

/-- The points of `seen`, those of the work list, and all that the latter lead to. -/
def visit (next : α → List α) (all seen : List α) : List α → List α
  | [] => seen
  | a :: todo =>
    if a ∈ seen then visit next all seen todo
    else if _h : a ∈ all then visit next all (a :: seen) (next a ++ todo)
    else visit next all (a :: seen) todo
termination_by todo => (unseen all seen, todo.length)
decreasing_by
  · exact Prod.Lex.right _ (Nat.lt_succ_self _)
  · exact Prod.Lex.left _ _ (unseen_cons_lt _h ‹_›)
  · rcases Nat.lt_or_eq_of_le (unseen_cons_le all seen a) with h | h
    · exact Prod.Lex.left _ _ h
    · rw [h]; exact Prod.Lex.right _ (Nat.lt_succ_self _)

/-- Only the successors of the points of `all` matter. -/
theorem visit_congr {next next' : α → List α} {all : List α} (h : ∀ a ∈ all, next a = next' a)
    (seen todo : List α) : visit next all seen todo = visit next' all seen todo := by
  fun_induction visit next all seen todo with
  | case1 => rw [visit]
  | case2 seen a todo hs ih => rw [visit, if_pos hs, ih]
  | case3 seen a todo hs ha ih => rw [visit, if_neg hs, dif_pos ha, ih, h a ha]
  | case4 seen a todo hs ha ih => rw [visit, if_neg hs, dif_neg ha, ih]

/-- The points that are reached from some of `starts`, these included. -/
def fromAny (next : α → List α) (all starts : List α) : List α := visit next all [] starts

end Injection.Reach
