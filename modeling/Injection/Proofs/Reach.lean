import Injection.Reach
import Mathlib.Algebra.BigOperators.Group.Finset.Basic
import Mathlib.Logic.Relation

/-!
# What a visit sees

A visit is a loop over a work list: it takes a point from the list, and if it has not seen the point
before, it notes that it has now and puts the successors on the list. Here it is left open which
point is taken and where the successors are put. However a loop goes on, it comes to an end: a turn
makes the list shorter, and what it adds are the successors of a point, once and for all. What has
been seen then is what the starting points lead to; for this, what has been seen is at any time
closed up to the work list.

## Main definitions

* `Reach.Leads` — one step of the relation that a visit follows.
* `Reach.ClosedUpTo` — every step from a seen point ends among the seen points or in the work list.
* `Reach.Worklist`, `Reach.Turn` — what a loop holds, and one turn of it.
* `Reach.Worklist.Explores` — what every turn keeps.
* `Reach.Worklist.budget` — how many turns are left at the most.
-/

namespace Injection.Reach

open Relation

variable {α : Type} {next : α → List α} {all seen todo starts : List α} {a b : α}

/-- One step of the relation that a visit follows: only the points of `all` lead on. -/
def Leads (next : α → List α) (all : List α) (a b : α) : Prop := a ∈ all ∧ b ∈ next a

/-- Every step from a seen point ends among the seen points or in the work list. -/
def ClosedUpTo (next : α → List α) (all seen todo : List α) : Prop :=
  ∀ a ∈ seen, ∀ b, Leads next all a b → b ∈ seen ∨ b ∈ todo

/-! ## Turns -/

/-- The points that a loop has seen, and those that it has still to look at. -/
structure Worklist (α : Type) where
  seen : List α
  todo : List α

/-- One turn of a loop. The order of the work list does not count. -/
inductive Turn (next : α → List α) (all : List α) : Worklist α → Worklist α → Prop
  | skip {seen todo rest : List α} {a : α} (htake : todo.Perm (a :: rest)) (hs : a ∈ seen) :
      Turn next all ⟨seen, todo⟩ ⟨seen, rest⟩
  | leaf {seen todo rest : List α} {a : α} (htake : todo.Perm (a :: rest)) (hs : a ∉ seen)
      (ha : a ∉ all) : Turn next all ⟨seen, todo⟩ ⟨a :: seen, rest⟩
  | see {seen todo rest more : List α} {a : α} (htake : todo.Perm (a :: rest)) (hs : a ∉ seen)
      (ha : a ∈ all) (hput : more.Perm (next a ++ rest)) :
      Turn next all ⟨seen, todo⟩ ⟨a :: seen, more⟩

variable {w w' : Worklist α}

/-- A loop goes on exactly while there are points on the work list. -/
theorem exists_turn_iff : (∃ after, Turn next all w after) ↔ w.todo ≠ [] := by
  constructor
  · rintro ⟨_, h⟩ hempty
    have htaken : ∃ a rest, w.todo.Perm (a :: rest) := by
      cases h <;> exact ⟨_, _, ‹_›⟩
    obtain ⟨a, rest, htake⟩ := htaken
    rw [hempty] at htake
    cases htake.nil_eq
  · intro h
    obtain ⟨seen, todo⟩ := w
    obtain ⟨a, rest, rfl⟩ := List.exists_cons_of_ne_nil h
    by_cases hs : a ∈ seen
    · exact ⟨_, .skip (.refl _) hs⟩
    · by_cases ha : a ∈ all
      · exact ⟨_, .see (.refl _) hs ha (.refl _)⟩
      · exact ⟨_, .leaf (.refl _) hs ha⟩

/-- What a loop holds that has come from some points: nothing but what these lead to, the points
themselves, and what is one step from the points that it has seen. -/
structure Worklist.Explores (next : α → List α) (all starts : List α) (w : Worklist α) :
    Prop where
  reached : ∀ b, b ∈ w.seen ∨ b ∈ w.todo → ∃ a ∈ starts, ReflTransGen (Leads next all) a b
  holds : ∀ a ∈ starts, a ∈ w.seen ∨ a ∈ w.todo
  closed : ClosedUpTo next all w.seen w.todo

theorem Worklist.explores_start : Worklist.Explores next all starts ⟨[], starts⟩ where
  reached b hb := ⟨b, hb.resolve_left List.not_mem_nil, .refl⟩
  holds _ ha := .inr ha
  closed _ ha := absurd ha List.not_mem_nil

/-- Once nothing is left to look at, exactly what the starting points lead to has been seen. -/
theorem Worklist.Explores.mem_seen_iff (h : w.Explores next all starts) (hdone : w.todo = []) :
    b ∈ w.seen ↔ ∃ a ∈ starts, ReflTransGen (Leads next all) a b := by
  have hseen : ∀ b, b ∈ w.seen ∨ b ∈ w.todo → b ∈ w.seen := by
    intro b hb
    simpa [hdone] using hb
  constructor
  · exact fun hb => h.reached b (.inl hb)
  · rintro ⟨a, ha, hleads⟩
    induction hleads with
    | refl => exact hseen _ (h.holds a ha)
    | tail _ hstep ih => exact hseen _ (h.closed _ ih _ hstep)

theorem Turn.explores (h : Turn next all w w') (hw : w.Explores next all starts) :
    w'.Explores next all starts := by
  obtain ⟨hreached, hholds, hclosed⟩ := hw
  cases h with
  | @skip seen todo rest a htake hs =>
    simp only [htake.mem_iff, List.mem_cons] at hreached hholds
    refine ⟨by grind, by grind, ?_⟩
    grind [ClosedUpTo, htake.mem_iff]
  | @leaf seen todo rest a htake hs ha =>
    simp only [htake.mem_iff, List.mem_cons] at hreached hholds
    refine ⟨by grind, by grind, ?_⟩
    grind [ClosedUpTo, Leads, htake.mem_iff]
  | @see seen todo rest more a htake hs ha hput =>
    simp only [htake.mem_iff, List.mem_cons] at hreached hholds
    obtain ⟨start, hstart, hleads⟩ := hreached a (.inr (.inl rfl))
    have hheld : ∀ b, b ∈ a :: seen ∨ b ∈ more ↔ b = a ∨ b ∈ seen ∨ b ∈ next a ∨ b ∈ rest := by
      simp [hput.mem_iff, or_assoc]
    refine ⟨fun b hb => ?_, fun b hb => (hheld b).mpr (by grind), ?_⟩
    · rcases (hheld b).mp hb with rfl | hb | hb | hb
      · exact ⟨start, hstart, hleads⟩
      · exact hreached b (.inl hb)
      · exact ⟨start, hstart, hleads.tail ⟨ha, hb⟩⟩
      · exact hreached b (.inr (.inr hb))
    · intro b hb c hc
      refine (hheld c).mpr ?_
      grind [ClosedUpTo, Leads, htake.mem_iff]

theorem explores_of_turns (h : ReflTransGen (Turn next all) w w')
    (hw : w.Explores next all starts) : w'.Explores next all starts := by
  induction h with
  | refl => exact hw
  | tail _ hturn ih => exact hturn.explores ih

variable [DecidableEq α]

/-! ## How many turns there are -/

/-- One turn for each point of the work list, and one for each successor of a point that has not
been seen. -/
def Worklist.budget (next : α → List α) (all : List α) (w : Worklist α) : Nat :=
  w.todo.length + ∑ a ∈ all.toFinset \ w.seen.toFinset, (next a).length

/-- To see a point spends its successors. -/
theorem sum_unseen_cons (next : α → List α) (all : List α) (hs : a ∉ seen) :
    ∑ b ∈ all.toFinset \ (a :: seen).toFinset, (next b).length +
        (if a ∈ all then (next a).length else 0) =
      ∑ b ∈ all.toFinset \ seen.toFinset, (next b).length := by
  rw [List.toFinset_cons, Finset.sdiff_insert]
  split
  · next ha => exact Finset.sum_erase_add _ _ (by simp [ha, hs])
  · next ha => rw [Finset.erase_eq_of_notMem (by simp [ha]), Nat.add_zero]

theorem Turn.budget (h : Turn next all w w') : w'.budget next all + 1 = w.budget next all := by
  cases h with
  | skip htake hs =>
    have hlength := htake.length_eq
    grind [Worklist.budget]
  | leaf htake hs ha =>
    have hlength := htake.length_eq
    have hspent := sum_unseen_cons next all hs
    grind [Worklist.budget]
  | see htake hs ha hput =>
    have hlength := htake.length_eq
    have hmore := hput.length_eq
    have hspent := sum_unseen_cons next all hs
    grind [Worklist.budget]

/-- However a loop goes on, it is over after as many turns as its budget at the most. -/
theorem length_le_budget {later : List (Worklist α)}
    (h : List.IsChain (Turn next all) (w :: later)) : later.length ≤ w.budget next all := by
  induction later generalizing w with
  | nil => exact Nat.zero_le _
  | cons first later ih =>
    obtain ⟨hturn, hrest⟩ := List.isChain_cons_cons.mp h
    have hspent := hturn.budget
    have hbound := ih hrest
    grind

/-! ## Visits -/

/-- A visit is a loop that takes the first point of its list and puts the successors in front. -/
theorem turns_visit (seen todo : List α) :
    ReflTransGen (Turn next all) ⟨seen, todo⟩ ⟨visit next all seen todo, []⟩ := by
  fun_induction visit next all seen todo with
  | case1 => exact .refl
  | case2 seen a todo hs ih => exact .head (.skip (.refl _) hs) ih
  | case3 seen a todo hs ha ih => exact .head (.see (.refl _) hs ha (.refl _)) ih
  | case4 seen a todo hs ha ih => exact .head (.leaf (.refl _) hs ha) ih

/-- From some points, exactly what they lead to is reached. -/
theorem mem_fromAny_iff :
    b ∈ fromAny next all starts ↔ ∃ a ∈ starts, ReflTransGen (Leads next all) a b :=
  (explores_of_turns (turns_visit [] starts) Worklist.explores_start).mem_seen_iff rfl

end Injection.Reach
