import Injection.Name
import Mathlib.Data.List.TakeWhile

/-!
# Written names

A name can be read back from its written form exactly if it is plain: both parts hold something,
and neither holds the separator. A plain name is the only one that is written as it is.

## Main definitions

* `QualifiedName.IsPlain` — whether a name can be read back.
-/

namespace Injection

/-! ## Cutting a list -/

section Cut

variable {α : Type} {p : α → Prop} {xs xs' ys ys' : List α} {a a' : α}

/-- Equal lists have equal parts, if they are cut at their first element of some kind. -/
theorem eq_of_append_cons_eq (hxs : ∀ x ∈ xs, ¬ p x) (hxs' : ∀ x ∈ xs', ¬ p x) (ha : p a)
    (ha' : p a') (h : xs ++ a :: ys = xs' ++ a' :: ys') : xs = xs' ∧ a = a' ∧ ys = ys' := by
  induction xs generalizing xs' with
  | nil =>
    cases xs' with
    | nil =>
      obtain ⟨rfl, rfl⟩ := List.cons.inj h
      exact ⟨rfl, rfl, rfl⟩
    | cons x' _ =>
      obtain ⟨rfl, -⟩ := List.cons.inj h
      exact absurd ha (hxs' _ List.mem_cons_self)
  | cons x rest ih =>
    cases xs' with
    | nil =>
      obtain ⟨rfl, -⟩ := List.cons.inj h
      exact absurd ha' (hxs _ List.mem_cons_self)
    | cons x' rest' =>
      obtain ⟨rfl, htail⟩ := List.cons.inj h
      obtain ⟨rfl, hrest⟩ := ih (fun y hy => hxs y (List.mem_cons_of_mem _ hy))
        (fun y hy => hxs' y (List.mem_cons_of_mem _ hy)) htail
      exact ⟨rfl, hrest⟩

/-- Equal lists have equal parts, if they are cut at the first occurrence of an element. -/
theorem eq_of_append_cons_self_eq (hxs : a ∉ xs) (hxs' : a ∉ xs')
    (h : xs ++ a :: ys = xs' ++ a :: ys') : xs = xs' ∧ ys = ys' := by
  obtain ⟨hfront, -, hback⟩ := eq_of_append_cons_eq (p := (· = a)) (fun x hx he => hxs (he ▸ hx))
    (fun x hx he => hxs' (he ▸ hx)) rfl rfl h
  exact ⟨hfront, hback⟩

/-- A span ends at the first element of another kind. -/
theorem takeWhile_append_cons {q : α → Bool} (hxs : ∀ x ∈ xs, q x = true) (ha : q a = false) :
    (xs ++ a :: ys).takeWhile q = xs := by
  simp [List.takeWhile_append_of_pos hxs, ha]

theorem dropWhile_append_cons {q : α → Bool} (hxs : ∀ x ∈ xs, q x = true) (ha : q a = false) :
    (xs ++ a :: ys).dropWhile q = a :: ys := by
  simp [List.dropWhile_append_of_pos hxs, ha]

end Cut

namespace QualifiedName

variable {name name' : QualifiedName} {text : String}

theorem toList_rendered (name : QualifiedName) : name.rendered.toList =
    name.modulePart.toList ++ separator :: name.localPart.toList := by
  simp [rendered, separator]

/-- A name with two parts that hold something, but no separator. -/
structure IsPlain (name : QualifiedName) : Prop where
  module_ne : name.modulePart ≠ ""
  local_ne : name.localPart ≠ ""
  module_notMem : separator ∉ name.modulePart.toList
  local_notMem : separator ∉ name.localPart.toList

/-- A plain name is the only one with its written form. -/
theorem IsPlain.eq_of_rendered_eq (h : name.IsPlain) (he : name'.rendered = name.rendered) :
    name' = name := by
  have hchars := congrArg String.toList he
  rw [toList_rendered, toList_rendered] at hchars
  -- the other name cannot hold a second separator
  have hcount := congrArg (List.count separator) hchars
  simp only [List.count_append, List.count_cons_self,
    List.count_eq_zero_of_not_mem h.module_notMem, List.count_eq_zero_of_not_mem h.local_notMem]
    at hcount
  have hmodule : separator ∉ name'.modulePart.toList := List.count_eq_zero.mp (by omega)
  obtain ⟨hfront, hback⟩ := eq_of_append_cons_self_eq hmodule h.module_notMem hchars
  obtain ⟨modulePart, localPart⟩ := name'
  rw [String.toList_inj] at hfront hback
  exact congrArg₂ QualifiedName.mk hfront hback

theorem IsPlain.of_rendered_eq (h : name.IsPlain) (he : name'.rendered = name.rendered) :
    name'.IsPlain :=
  h.eq_of_rendered_eq he ▸ h

theorem IsPlain.parse?_rendered (h : name.IsPlain) : parse? name.rendered = some name := by
  have hspan : ∀ c ∈ name.modulePart.toList, (c != separator) = true := by
    intro c hc
    exact bne_iff_ne.mpr fun he => h.module_notMem (he ▸ hc)
  have hstop : (separator != separator) = false := by simp
  rw [parse?, toList_rendered, dropWhile_append_cons hspan hstop, takeWhile_append_cons hspan hstop]
  simp [h.module_ne, h.local_ne, h.local_notMem]

theorem of_parse?_eq_some (h : parse? text = some name) : name.IsPlain ∧ name.rendered = text := by
  unfold parse? at h
  dsimp only at h
  split at h
  · cases h
  · next c tail htail =>
    split at h
    · cases h
    · next hparts =>
      obtain rfl := Option.some.inj h
      have hc : c = separator := by
        have hstop := List.head?_dropWhile_not (· != separator) text.toList
        rw [htail] at hstop
        simpa using hstop
      subst hc
      simp only [Bool.or_eq_true, List.isEmpty_iff, List.contains_iff_mem, not_or] at hparts
      obtain ⟨⟨hhead, hne⟩, hnotMem⟩ := hparts
      refine ⟨⟨?_, ?_, ?_, ?_⟩, ?_⟩
      · simpa [← String.toList_eq_nil_iff] using hhead
      · simpa [← String.toList_eq_nil_iff] using hne
      · rw [String.toList_ofList]
        intro hmem
        simpa using List.mem_takeWhile_imp hmem
      · simpa using hnotMem
      · rw [← String.toList_inj, toList_rendered, String.toList_ofList, String.toList_ofList, ← htail,
          List.takeWhile_append_dropWhile]

/-- What is read are the plain names, from their written form. -/
theorem parse?_eq_some_iff : parse? text = some name ↔ name.IsPlain ∧ name.rendered = text := by
  refine ⟨of_parse?_eq_some, ?_⟩
  rintro ⟨h, rfl⟩
  exact h.parse?_rendered

/-! ## Members -/

theorem toList_localPart_member (name : QualifiedName) (path : List String) :
    (name.member path).localPart.toList =
      name.localPart.toList ++ path.flatMap fun segment => '.' :: segment.toList := by
  have hfold : ∀ (path : List String) (done : String),
      (path.foldl (fun done segment => done ++ "." ++ segment) done).toList =
        done.toList ++ path.flatMap fun segment => '.' :: segment.toList := by
    intro path
    induction path with
    | nil => simp
    | cons segment rest ih =>
      intro done
      rw [List.foldl_cons, ih]
      simp
  exact hfold path name.localPart

/-- The members of a plain name are plain if no segment holds the separator. -/
theorem IsPlain.isPlain_member_iff (h : name.IsPlain) {path : List String} :
    (name.member path).IsPlain ↔ ∀ segment ∈ path, separator ∉ segment.toList := by
  have hnotMem : separator ∉ (name.member path).localPart.toList ↔
      ∀ segment ∈ path, separator ∉ segment.toList := by
    have hdot : separator ≠ '.' := by decide
    simp [toList_localPart_member, h.local_notMem, hdot]
  constructor
  · exact fun hmember => hnotMem.mp hmember.local_notMem
  · intro hpath
    refine ⟨h.module_ne, fun he => h.local_ne ?_, h.module_notMem, hnotMem.mpr hpath⟩
    have hchars := toList_localPart_member name path
    rw [he, String.toList_empty] at hchars
    exact String.toList_eq_nil_iff.mp (List.append_eq_nil_iff.mp hchars.symm).1

end QualifiedName

end Injection
