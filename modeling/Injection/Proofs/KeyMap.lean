import Injection.KeyMap

/-!
# What maps hold

A map is determined by its entries: filed in turn, in ascending order of the keys, they give the map
again. What is filed comes from the pairs that are filed.
-/

namespace Injection

namespace KeyMap

variable {α : Type} {key : String} {value : α} {entry : String × α} {entries : List (String × α)}

/-- A key above all others is filed at the end. -/
theorem insertEntry_of_lt (h : ∀ entry ∈ entries, entry.1 < key) :
    insertEntry key value entries = entries ++ [(key, value)] := by
  induction entries with
  | nil => rfl
  | cons entry rest ih =>
    obtain ⟨hlt, hrest⟩ := List.forall_mem_cons.mp h
    have hne : key ≠ entry.1 := (String.ne_of_lt hlt).symm
    rw [insertEntry, if_neg (String.lt_asymm hlt), if_neg hne, ih hrest]
    rfl

theorem mem_insertEntry (h : entry ∈ insertEntry key value entries) :
    entry = (key, value) ∨ entry ∈ entries := by
  fun_induction insertEntry key value entries with
  | case1 => exact .inl (List.mem_singleton.mp h)
  | case2 k v rest _ => exact List.mem_cons.mp h
  | case3 v rest _ => exact (List.mem_cons.mp h).imp_right (List.mem_cons_of_mem _)
  | case4 k v rest _ _ ih =>
    rcases List.mem_cons.mp h with rfl | h
    · exact .inr List.mem_cons_self
    · exact (ih h).imp_right (List.mem_cons_of_mem _)

theorem mem_of_mem_ofList {pairs : List (String × α)} (h : entry ∈ (ofList pairs).entries) :
    entry ∈ pairs := by
  have hfold : ∀ map : KeyMap α, entry ∈ (pairs.foldl (fun m p => m.insert p.1 p.2) map).entries →
      entry ∈ map.entries ∨ entry ∈ pairs := by
    clear h
    induction pairs with
    | nil => exact fun map h => .inl h
    | cons pair rest ih =>
      intro map h
      rcases ih _ h with h | h
      · rcases mem_insertEntry h with rfl | h
        · exact .inr List.mem_cons_self
        · exact .inl h
      · exact .inr (List.mem_cons_of_mem _ h)
  exact (hfold empty h).resolve_left List.not_mem_nil

/-- The entries of a map, filed in turn, give the map. -/
theorem ofList_entries (map : KeyMap α) : ofList map.entries = map := by
  have hfold : ∀ (rest : List (String × α)) (done : KeyMap α),
      ((done.entries ++ rest).map Prod.fst).Pairwise (· < ·) →
        (rest.foldl (fun m p => m.insert p.1 p.2) done).entries = done.entries ++ rest := by
    intro rest
    induction rest with
    | nil => exact fun done _ => (List.append_nil _).symm
    | cons pair rest ih =>
      intro done hascending
      have hlast : (done.insert pair.1 pair.2).entries = done.entries ++ [pair] := by
        refine insertEntry_of_lt fun entry hentry => ?_
        rw [List.map_append, List.pairwise_append] at hascending
        exact hascending.2.2 _ (List.mem_map_of_mem hentry) _ List.mem_cons_self
      have happend :
          done.entries ++ pair :: rest = (done.insert pair.1 pair.2).entries ++ rest := by
        rw [hlast, List.append_assoc]
        rfl
      rw [List.foldl_cons, ih _ (happend ▸ hascending), happend]
  exact ext (hfold map.entries empty map.ascending)

theorem contains_iff {map : KeyMap α} : map.contains key = true ↔ key ∈ map.keys := by
  simp [contains, get?, keys]

theorem nodup_keys (map : KeyMap α) : map.keys.Nodup := map.ascending.imp String.ne_of_lt

theorem mem_iff_lookup_eq_some (hnodup : (entries.map Prod.fst).Nodup) :
    (key, value) ∈ entries ↔ entries.lookup key = some value := by
  induction entries with
  | nil => simp
  | cons entry rest ih =>
    obtain ⟨k, v⟩ := entry
    obtain ⟨hnew, hrest⟩ := List.nodup_cons.mp hnodup
    by_cases hkey : key = k
    · subst hkey
      have hnotMem : (key, value) ∉ rest := fun hmem =>
        hnew (List.mem_map.mpr ⟨(key, value), hmem, rfl⟩)
      simp [hnotMem, eq_comm]
    · simp [hkey, ih hrest, List.lookup_cons, beq_eq_false_iff_ne.mpr hkey]

/-- A look-up finds what is filed under a key. -/
theorem mem_entries_iff {map : KeyMap α} :
    (key, value) ∈ map.entries ↔ map.get? key = some value :=
  mem_iff_lookup_eq_some map.nodup_keys

end KeyMap

theorem NameSet.ofNames_keys (set : NameSet) : NameSet.ofNames set.keys = set := by
  have hentries : set.keys.map (·, ()) = set.entries := by
    simp [KeyMap.keys, Function.comp_def]
  rw [NameSet.ofNames, hentries, KeyMap.ofList_entries]

end Injection
