import Injection.Cycle.Rotation
import Mathlib.Data.Finset.Max
import Mathlib.Data.List.Rotate

/-!
# Canonical keys

The canonical form of a key is the key turned so that it starts at its lowest node. Keys whose
nodes are different from each other have the same canonical form exactly if one is a rotation of the
other.
-/

namespace Injection.CycleKey

variable {key a b : CycleKey}

theorem exists_least (h : key ≠ []) : ∃ entry ∈ key, ∀ other ∈ key, entry.1 ≤ other.1 := by
  have hne : key.toFinset.Nonempty := List.toFinset_nonempty_iff key |>.mpr h
  obtain ⟨entry, hmem, hle⟩ := key.toFinset.exists_min_image Prod.fst hne
  exact ⟨entry, List.mem_toFinset.mp hmem, fun other ho => hle other (List.mem_toFinset.mpr ho)⟩

theorem pivot_lt (h : key ≠ []) : key.pivot < key.length := by
  rw [pivot, List.findIdx_lt_length]
  obtain ⟨entry, hmem, hle⟩ := exists_least h
  exact ⟨entry, hmem, by simpa using hle⟩

theorem pivot_le (key : CycleKey) : key.pivot ≤ key.length := List.findIdx_le_length

theorem turn_eq_rotate {place : Nat} (h : place ≤ key.length) : key.turn place = key.rotate place :=
  (List.rotate_eq_drop_append_take h).symm

theorem isRotated_canonical (key : CycleKey) : key ~r key.canonical :=
  ⟨key.pivot, (turn_eq_rotate key.pivot_le).symm⟩

theorem exists_canonical_eq_cons (h : key ≠ []) :
    ∃ first rest, key.canonical = first :: rest ∧ ∀ other ∈ key, first.1 ≤ other.1 := by
  have hlt := pivot_lt h
  refine ⟨key[key.pivot], key.drop (key.pivot + 1) ++ key.take key.pivot, ?_, ?_⟩
  · rw [canonical, turn, List.drop_eq_getElem_cons hlt, List.cons_append]
  · have hall : key.all (key[key.pivot].1 ≤ ·.1) = true := List.findIdx_getElem (w := hlt)
    exact fun other ho => of_decide_eq_true (List.all_eq_true.mp hall other ho)

theorem le_of_canonical_eq_cons {first : Nat × String} {rest : CycleKey}
    (h : key.canonical = first :: rest) : ∀ other ∈ key, first.1 ≤ other.1 := by
  by_cases hkey : key = []
  · rw [hkey]
    simp
  · obtain ⟨first', rest', heq, hle⟩ := exists_canonical_eq_cons hkey
    obtain ⟨rfl, -⟩ := List.cons.inj (h.symm.trans heq)
    exact hle

/-- A key that starts at its lowest node is canonical. -/
theorem canonical_cons_eq_self {first : Nat × String} {rest : CycleKey}
    (hle : ∀ other ∈ rest, first.1 ≤ other.1) : canonical (first :: rest) = first :: rest := by
  have hpivot : pivot (first :: rest) = 0 := by
    have hall : (first :: rest).all (first.1 ≤ ·.1) = true := by simpa using hle
    rw [pivot, List.findIdx_cons, hall, cond_true]
  rw [canonical, hpivot, turn, List.drop_zero, List.take_zero, List.append_nil]

theorem canonical_canonical (key : CycleKey) : key.canonical.canonical = key.canonical := by
  by_cases hkey : key = []
  · rw [hkey]
    rfl
  · obtain ⟨first, rest, heq, hle⟩ := exists_canonical_eq_cons hkey
    have hmem : ∀ other ∈ rest, other ∈ key := by
      intro other ho
      apply (isRotated_canonical key).mem_iff.mpr
      rw [heq]
      exact List.mem_cons_of_mem _ ho
    rw [heq]
    exact canonical_cons_eq_self fun other ho => hle other (hmem other ho)

/-- A list without repetitions has one rotation with a given head. -/
theorem eq_of_isRotated_of_head {α : Type} {x : α} {xs ys : List α} (hnodup : (x :: xs).Nodup)
    (h : x :: xs ~r x :: ys) : xs = ys := by
  obtain ⟨n, hn, he⟩ := List.isRotated_iff_mod.mp h
  rw [List.rotate_eq_drop_append_take hn] at he
  cases n with
  | zero => simpa using he
  | succ k =>
    rw [List.drop_succ_cons, List.take_succ_cons] at he
    cases hd : xs.drop k with
    | nil =>
      rw [hd, List.nil_append, List.take_of_length_le (List.drop_eq_nil_iff.mp hd)] at he
      exact (List.cons.inj he).2
    | cons y rest =>
      rw [hd, List.cons_append] at he
      have hmem : x ∈ xs := (List.cons.inj he).1 ▸ List.mem_of_mem_drop (hd ▸ List.mem_cons_self)
      exact absurd hmem (List.nodup_cons.mp hnodup).1

/-- Rotations of a key with different nodes have the same canonical form. -/
theorem canonical_eq_of_isRotated (hnodup : (a.map Prod.fst).Nodup) (h : a ~r b) :
    a.canonical = b.canonical := by
  by_cases ha : a = []
  · subst ha
    rw [List.isRotated_nil_iff'.mp h]
  have hb : b ≠ [] := fun he => ha (List.isRotated_nil_iff.mp (he ▸ h))
  obtain ⟨x, xs, hx, hxle⟩ := exists_canonical_eq_cons ha
  obtain ⟨y, ys, hy, hyle⟩ := exists_canonical_eq_cons hb
  have hxa : a ~r x :: xs := hx ▸ isRotated_canonical a
  have hyb : b ~r y :: ys := hy ▸ isRotated_canonical b
  have hxy : x :: xs ~r y :: ys := hxa.symm.trans (h.trans hyb)
  have hxm : x ∈ a := hxa.mem_iff.mpr List.mem_cons_self
  have hym : y ∈ a := h.mem_iff.mpr (hyb.mem_iff.mpr List.mem_cons_self)
  have hfst : x.1 = y.1 := Nat.le_antisymm (hxle y hym) (hyle x (h.mem_iff.mp hxm))
  -- entries of `a` are known by their nodes
  obtain rfl : x = y := List.inj_on_of_nodup_map hnodup hxm hym hfst
  have hrot : (x :: xs).Nodup := hxa.nodup_iff.mp (List.Nodup.of_map _ hnodup)
  rw [hx, hy, eq_of_isRotated_of_head hrot hxy]

/-- Keys with different nodes have the same canonical form exactly if one is a rotation of the
other. -/
theorem canonical_eq_iff (hnodup : (a.map Prod.fst).Nodup) :
    a.canonical = b.canonical ↔ a ~r b := by
  refine ⟨fun h => ?_, canonical_eq_of_isRotated hnodup⟩
  exact (isRotated_canonical a).trans (h ▸ (isRotated_canonical b).symm)

/-- The canonical form of a key is the rotation that starts at its lowest node, and stays as it is
when it is made canonical again. Of keys whose nodes are different from each other, exactly those
that are rotations of each other have the same canonical form. -/
theorem canonical_classifies :
    (∀ key : CycleKey, key ~r key.canonical ∧ key.canonical.canonical = key.canonical ∧
        ∀ first rest, key.canonical = first :: rest → ∀ other ∈ key, first.1 ≤ other.1) ∧
      ∀ a b : CycleKey, (a.map Prod.fst).Nodup → (b.map Prod.fst).Nodup →
        (a.canonical = b.canonical ↔ a ~r b) := by
  refine ⟨fun key => ⟨?_, ?_, ?_⟩, fun a b ha _ => ?_⟩
  · exact isRotated_canonical key
  · exact canonical_canonical key
  · exact fun first rest h => le_of_canonical_eq_cons h
  · exact canonical_eq_iff ha

/-- Three nodes from the highest and from the middle one on, and with another label. -/
theorem canonical_classifies_triangle :
    [(3, "x"), (1, "y"), (2, "z")] ~r [(2, "z"), (3, "x"), (1, "y")] ∧
      ¬ [(3, "x"), (1, "y"), (2, "z")] ~r [(2, "z"), (3, "x"), (1, "w")] := by
  have hiff := canonical_classifies.2 [(3, "x"), (1, "y"), (2, "z")]
  constructor
  · exact (hiff [(2, "z"), (3, "x"), (1, "y")] (by decide) (by decide)).mp (by decide)
  · intro hrot
    have hsame := (hiff [(2, "z"), (3, "x"), (1, "w")] (by decide) (by decide)).mpr hrot
    exact absurd hsame (by decide)

/-- Where a node comes twice, rotations can differ in their canonical forms. -/
example : canonical [(0, "x"), (0, "y")] ≠ canonical [(0, "y"), (0, "x")] := by decide

end Injection.CycleKey
