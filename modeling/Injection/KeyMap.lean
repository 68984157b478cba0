/-!
# Maps with ordered text keys

A `KeyMap` files values under distinct keys and lists them in ascending order of the keys, so
that two maps with the same content have the same listing. Code-point order of `String` is also
the order of the UTF-8 bytes.

## Main definitions

* `KeyMap.insert`, `KeyMap.ofList` — file values, a later one replacing an earlier one.
* `KeyMap.get?`, `KeyMap.contains`, `KeyMap.keys` — look at what is filed.
* `NameSet` — a set of texts, as a map with nothing filed under its keys.
-/

namespace Injection

/-- Values filed under distinct text keys, listed in ascending order of the keys. -/
structure KeyMap (α : Type) where
  entries : List (String × α)
  ascending : (entries.map Prod.fst).Pairwise (· < ·)

namespace KeyMap

variable {α : Type}

def empty : KeyMap α := ⟨[], .nil⟩

instance : Inhabited (KeyMap α) := ⟨empty⟩

instance [BEq α] : BEq (KeyMap α) := ⟨fun a b => a.entries == b.entries⟩

/-- Two maps that list the same entries are the same map. -/
theorem ext {a b : KeyMap α} (h : a.entries = b.entries) : a = b := by
  cases a; cases b; cases h; rfl

/-! ## Filing a value -/

/-- The entries with `value` filed under `key`, in place of what was there. -/
def insertEntry (key : String) (value : α) : List (String × α) → List (String × α)
  | [] => [(key, value)]
  | (k, v) :: rest =>
    if key < k then (key, value) :: (k, v) :: rest
    else if key = k then (key, value) :: rest
    else (k, v) :: insertEntry key value rest

/-- Filing a value adds its key and no other. -/
theorem mem_keys_insertEntry {x key : String} {value : α} {entries : List (String × α)}
    (h : x ∈ (insertEntry key value entries).map Prod.fst) :
    x = key ∨ x ∈ entries.map Prod.fst := by
  fun_induction insertEntry key value entries with
  | case1 => simpa using h
  | case2 k v rest hlt => simpa using h
  | case3 v rest hlt => simp_all
  | case4 k v rest hlt hne ih =>
    simp only [List.map_cons, List.mem_cons] at h ⊢
    rcases h with rfl | h
    · exact .inr (.inl rfl)
    · exact (ih h).imp id .inr

/-- Filing a value keeps the keys in ascending order. -/
theorem pairwise_insertEntry {key : String} {value : α} {entries : List (String × α)}
    (h : (entries.map Prod.fst).Pairwise (· < ·)) :
    ((insertEntry key value entries).map Prod.fst).Pairwise (· < ·) := by
  fun_induction insertEntry key value entries with
  | case1 => exact .cons (by simp) .nil
  | case2 k v rest hlt =>
    refine .cons (fun x hx => ?_) h
    simp only [List.map_cons, List.mem_cons] at hx
    rcases hx with rfl | hx
    · exact hlt
    · exact String.lt_trans hlt (List.rel_of_pairwise_cons h hx)
  | case3 v rest hlt => simpa using h
  | case4 k v rest hlt hne ih =>
    simp only [List.map_cons] at h ⊢
    refine .cons (fun x hx => ?_) (ih h.of_cons)
    rcases mem_keys_insertEntry hx with rfl | hx
    · exact Std.lt_of_le_of_ne (Std.not_lt.mp hlt) (Ne.symm hne)
    · exact List.rel_of_pairwise_cons h hx

/-- The map with `value` filed under `key`, in place of what was there. -/
def insert (map : KeyMap α) (key : String) (value : α) : KeyMap α :=
  ⟨insertEntry key value map.entries, pairwise_insertEntry map.ascending⟩

/-- Files each pair of the list in turn, so that of two equal keys the later counts. -/
def ofList (pairs : List (String × α)) : KeyMap α :=
  pairs.foldl (fun map pair => map.insert pair.1 pair.2) empty

/-! ## Looking at a map -/

def get? (map : KeyMap α) (key : String) : Option α := map.entries.lookup key

def contains (map : KeyMap α) (key : String) : Bool := (map.get? key).isSome

/-- The keys, in ascending order. -/
def keys (map : KeyMap α) : List String := map.entries.map Prod.fst

def isEmpty (map : KeyMap α) : Bool := map.entries.isEmpty

end KeyMap

/-- A set of texts, listed in ascending order. -/
abbrev NameSet := KeyMap Unit

/-- The set of the texts in a list. -/
def NameSet.ofNames (names : List String) : NameSet := KeyMap.ofList (names.map (·, ()))

end Injection
