/-!
# Lists without repetitions

Of the elements with one key the first stays, and all keep their order.

## Main definitions

* `keepFirst` — the elements whose key is new.
* `distinctBy` — the same from the start of a list on.

The keys of the result are different from each other, and no key of the list is lost.
-/

namespace Injection

variable {α κ : Type} [DecidableEq κ] (keyOf : α → κ)

/-- The elements whose key is neither in `seen` nor that of an earlier element. -/
def keepFirst (seen : List κ) : List α → List α
  | [] => []
  | a :: rest =>
    if keyOf a ∈ seen then keepFirst seen rest else a :: keepFirst (keyOf a :: seen) rest

/-- The first element of each key. -/
def distinctBy (list : List α) : List α := keepFirst keyOf [] list

theorem keepFirst_sublist (seen : List κ) (list : List α) :
    (keepFirst keyOf seen list).Sublist list := by
  fun_induction keepFirst keyOf seen list with
  | case1 => exact .slnil
  | case2 seen a rest _ ih => exact ih.cons a
  | case3 seen a rest _ ih => exact ih.cons_cons a

theorem distinctBy_sublist (list : List α) : (distinctBy keyOf list).Sublist list :=
  keepFirst_sublist keyOf [] list

/-- What is kept has none of the keys in `seen`. -/
theorem keyOf_notMem_of_mem_keepFirst {seen : List κ} {list : List α} {a : α}
    (h : a ∈ keepFirst keyOf seen list) : keyOf a ∉ seen := by
  fun_induction keepFirst keyOf seen list with
  | case1 => cases h
  | case2 seen b rest _ ih => exact ih h
  | case3 seen b rest hb ih =>
    rcases List.mem_cons.mp h with rfl | h
    · exact hb
    · exact fun hs => ih h (List.mem_cons_of_mem _ hs)

/-- The keys of what is kept are different from each other. -/
theorem nodup_map_keepFirst (seen : List κ) (list : List α) :
    ((keepFirst keyOf seen list).map keyOf).Nodup := by
  fun_induction keepFirst keyOf seen list with
  | case1 => exact .nil
  | case2 seen a rest _ ih => exact ih
  | case3 seen a rest _ ih =>
    refine List.nodup_cons.mpr ⟨fun h => ?_, ih⟩
    obtain ⟨b, hb, hk⟩ := List.mem_map.mp h
    exact keyOf_notMem_of_mem_keepFirst keyOf hb (hk ▸ List.mem_cons_self)

/-- Each key of the list that is not in `seen` is kept. -/
theorem mem_map_keepFirst {seen : List κ} {list : List α} {key : κ} :
    key ∈ (keepFirst keyOf seen list).map keyOf ↔ key ∈ list.map keyOf ∧ key ∉ seen := by
  fun_induction keepFirst keyOf seen list with
  | case1 => simp
  | case2 seen a rest ha ih =>
    rw [ih, List.map_cons, List.mem_cons]
    exact ⟨fun h => ⟨.inr h.1, h.2⟩, fun h => ⟨h.1.resolve_left (fun he => h.2 (he ▸ ha)), h.2⟩⟩
  | case3 seen a rest ha ih =>
    simp only [List.map_cons, List.mem_cons, ih, not_or]
    by_cases hk : key = keyOf a
    · simp [hk, ha]
    · simp [hk]

end Injection
