import Mathlib.Data.List.Nodup

/-!
# Places in a list

Which of two elements of a list comes first.

## Main definitions

* `Before` — whether an element stands before another one.

In a list without repetitions this is a strict order, and any two elements are comparable.
-/

namespace Injection

variable {α β : Type} {l front back : List α} {a b c : α}

/-- Whether the first element stands before the second in a list. -/
def Before (l : List α) (a b : α) : Prop := [a, b].Sublist l

instance [DecidableEq α] (l : List α) (a b : α) : Decidable (Before l a b) :=
  inferInstanceAs (Decidable ([a, b].Sublist l))

theorem before_iff_exists : Before l a b ↔ ∃ front back, l = front ++ a :: back ∧ b ∈ back := by
  rw [Before, List.cons_sublist_iff]
  constructor
  · rintro ⟨r1, r2, rfl, ha, hb⟩
    obtain ⟨front, back, rfl⟩ := List.append_of_mem ha
    exact ⟨front, back ++ r2, by simp, List.mem_append_right _ (List.singleton_sublist.mp hb)⟩
  · rintro ⟨front, back, rfl, hb⟩
    exact ⟨front ++ [a], back, by simp, by simp, List.singleton_sublist.mpr hb⟩

theorem before_reverse : Before l.reverse a b ↔ Before l b a := by
  rw [Before, Before, ← List.reverse_sublist]
  simp

namespace Before

theorem left_mem (h : Before l a b) : a ∈ l := h.mem (by simp)

theorem map (f : α → β) (h : Before l a b) : Before (l.map f) (f a) (f b) := List.Sublist.map f h

theorem of_sublist {l' : List α} (h : Before l' a b) (hsub : l'.Sublist l) : Before l a b :=
  List.Sublist.trans h hsub

end Before

/-- In a list without repetitions, what stands behind an element is what comes after its place. -/
theorem before_append_cons_iff (hnodup : (front ++ a :: back).Nodup) :
    Before (front ++ a :: back) a b ↔ b ∈ back := by
  refine ⟨fun h => ?_, fun hb => before_iff_exists.mpr ⟨front, back, rfl, hb⟩⟩
  obtain ⟨front', back', he, hb⟩ := before_iff_exists.mp h
  have hnew : a ∉ front ++ back := (List.nodup_cons.mp (List.nodup_middle.mp hnodup)).1
  rw [List.mem_append, not_or] at hnew
  obtain ⟨-, -, rfl⟩ := (List.append_cons_inj_of_notMem hnew.1 hnew.2).mp he
  exact hb

namespace Before

theorem asymm (hnodup : l.Nodup) (h : Before l a b) : ¬ Before l b a := by
  obtain ⟨front, back, rfl, hb⟩ := before_iff_exists.mp h
  intro h'
  obtain ⟨b1, b2, rfl⟩ := List.append_of_mem hb
  rw [show front ++ a :: (b1 ++ b :: b2) = (front ++ a :: b1) ++ b :: b2 by simp] at h' hnodup
  have ha := (before_append_cons_iff hnodup).mp h'
  have hnew := (List.nodup_cons.mp (List.nodup_middle.mp hnodup)).2
  exact (List.nodup_append.mp hnew).2.2 a (by simp) a ha rfl

theorem ne (hnodup : l.Nodup) (h : Before l a b) : a ≠ b := by
  rintro rfl
  exact h.asymm hnodup h

theorem trans (hnodup : l.Nodup) (h : Before l a b) (h' : Before l b c) : Before l a c := by
  obtain ⟨front, back, rfl, hb⟩ := before_iff_exists.mp h
  obtain ⟨b1, b2, rfl⟩ := List.append_of_mem hb
  rw [show front ++ a :: (b1 ++ b :: b2) = (front ++ a :: b1) ++ b :: b2 by simp] at h' hnodup
  have hc := (before_append_cons_iff hnodup).mp h'
  exact before_iff_exists.mpr ⟨front, b1 ++ b :: b2, rfl, by simp [hc]⟩

end Before

theorem before_or_before (ha : a ∈ l) (hb : b ∈ l) (hne : a ≠ b) : Before l a b ∨ Before l b a := by
  obtain ⟨front, back, rfl⟩ := List.append_of_mem ha
  rcases List.mem_append.mp hb with hb | hb
  · obtain ⟨b1, b2, rfl⟩ := List.append_of_mem hb
    exact .inr (before_iff_exists.mpr ⟨b1, b2 ++ a :: back, by simp, by simp⟩)
  · have hback := (List.mem_cons.mp hb).resolve_left (Ne.symm hne)
    exact .inl (before_iff_exists.mpr ⟨front, back, rfl, hback⟩)

/-- What stands before an element of the first part of a list is in that part. -/
theorem before_append_iff (hnodup : (l ++ back).Nodup) (hb : b ∈ l) :
    Before (l ++ back) a b ↔ Before l a b := by
  have hleft : ∀ {x y : α}, Before l x y → Before (l ++ back) x y :=
    fun h => h.of_sublist (List.sublist_append_left l back)
  refine ⟨fun h => ?_, hleft⟩
  rcases List.mem_append.mp h.left_mem with ha | ha
  · exact (before_or_before ha hb (h.ne hnodup)).resolve_right fun h' =>
      h.asymm hnodup (hleft h')
  · have h' : Before (l ++ back) b a :=
      List.Sublist.append (List.singleton_sublist.mpr hb) (List.singleton_sublist.mpr ha)
    exact absurd h' (h.asymm hnodup)

/-- A map that tells the elements of a list apart keeps their places. -/
theorem before_map_iff {f : α → β} (hnodup : (l.map f).Nodup) (ha : a ∈ l) (hb : b ∈ l) :
    Before (l.map f) (f a) (f b) ↔ Before l a b := by
  refine ⟨fun h => ?_, Before.map f⟩
  have hne : a ≠ b := fun he => h.ne hnodup (congrArg f he)
  exact (before_or_before ha hb hne).resolve_right fun h' => h.asymm hnodup (h'.map f)

end Injection
