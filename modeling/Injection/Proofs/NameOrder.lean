import Injection.Proofs.Name

/-!
# Names and their bytes

The order of names, their equality and what a hasher is given of them all come from the bytes of the
written form, so that they agree with each other. Names that have been read are equal only if both
parts are, since a text can be read in one way at most; other names may be cut in different ways and
still be equal.
-/

namespace Injection

/-! ## Bytes of texts -/

section Bytes

variable {a b : String}

theorem utf8_eq (text : String) : utf8 text = text.toList.flatMap String.utf8EncodeChar := by
  rw [utf8, String.toUTF8, ← String.utf8Encode_toList, List.utf8Encode]
  simp

theorem utf8_inj : utf8 a = utf8 b ↔ a = b := by
  rw [utf8, utf8, Array.toList_inj, ← ByteArray.ext_iff]
  exact String.toByteArray_inj

theorem utf8_append (a b : String) : utf8 (a ++ b) = utf8 a ++ utf8 b := by
  simp [utf8_eq]

theorem utf8_rendered (name : QualifiedName) :
    utf8 name.rendered = utf8 name.modulePart ++ 58 :: utf8 name.localPart := by
  rw [QualifiedName.rendered, utf8_append, utf8_append, List.append_assoc]
  rfl

end Bytes

namespace QualifiedName

variable {a b : QualifiedName} {text : String}

/-! ## Comparing -/

/-- The bytes that are compared are those of the written form. -/
theorem bytes_eq (name : QualifiedName) : name.bytes = utf8 name.rendered :=
  (utf8_rendered name).symm

theorem compare_eq_compareText (a b : QualifiedName) :
    compare a b = compareText a.rendered b.rendered := by
  show compare a.bytes b.bytes = _
  rw [bytes_eq, bytes_eq, compareText]

theorem bytes_eq_iff : a.bytes = b.bytes ↔ (a == b) = true := by
  rw [bytes_eq, bytes_eq, utf8_inj, beq_iff]

instance : Std.TransOrd QualifiedName where
  eq_swap {a b} :=
    show compare a.bytes b.bytes = (compare b.bytes a.bytes).swap from Std.OrientedCmp.eq_swap
  isLE_trans {a b c} hab hbc :=
    show (compare a.bytes c.bytes).isLE from
      Std.TransCmp.isLE_trans (show (compare a.bytes b.bytes).isLE from hab) hbc

instance : Std.LawfulBEqOrd QualifiedName where
  compare_eq_iff_beq {a b} :=
    (Std.compare_eq_iff_eq (a := a.bytes) (b := b.bytes)).trans bytes_eq_iff

/-! ## Hashing -/

/-- A hasher that keeps all that it is given. -/
theorem feed_collect (name : QualifiedName) :
    name.feed (fun given byte => given ++ [byte]) [] = name.bytes := by
  have hfold : ∀ (bytes given : List UInt8),
      bytes.foldl (fun given byte => given ++ [byte]) given = given ++ bytes := by
    intro bytes
    induction bytes with
    | nil => simp
    | cons byte rest ih => simp [ih]
  exact hfold name.bytes []

/-- No hasher can tell equal names apart, and some hasher tells different names apart. -/
theorem feed_eq_iff : (∀ {σ : Type} (write : σ → UInt8 → σ) (state : σ),
    a.feed write state = b.feed write state) ↔ (a == b) = true := by
  rw [← bytes_eq_iff]
  constructor
  · intro h
    rw [← feed_collect a, ← feed_collect b]
    exact h _ []
  · intro h σ write state
    rw [feed, feed, h]

/-! ## Reading -/

/-- What can be read are the texts with one separator, which is neither the first character nor the
last. -/
theorem exists_parse?_iff : (∃ name, parse? text = some name) ↔
    text.toList.count separator = 1 ∧ text.toList.head? ≠ some separator ∧
      text.toList.getLast? ≠ some separator := by
  constructor
  · rintro ⟨name, h⟩
    obtain ⟨hplain, rfl⟩ := of_parse?_eq_some h
    have hmodule : name.modulePart.toList.head? ≠ none := by simpa using hplain.module_ne
    have hlocal : name.localPart.toList.getLast? ≠ none := by simpa using hplain.local_ne
    obtain ⟨first, hfirst⟩ := Option.ne_none_iff_exists'.mp hmodule
    obtain ⟨last, hlast⟩ := Option.ne_none_iff_exists'.mp hlocal
    rw [toList_rendered, List.count_append, List.count_cons_self,
      List.count_eq_zero_of_not_mem hplain.module_notMem,
      List.count_eq_zero_of_not_mem hplain.local_notMem, List.head?_append, hfirst,
      List.getLast?_append, List.getLast?_cons, hlast]
    refine ⟨rfl, fun he => ?_, fun he => ?_⟩
    · obtain rfl : first = separator := Option.some.inj he
      exact hplain.module_notMem (List.mem_of_head? hfirst)
    · obtain rfl : last = separator := Option.some.inj he
      exact hplain.local_notMem (List.mem_of_getLast? hlast)
  · rintro ⟨hcount, hfirst, hlast⟩
    obtain ⟨front, back, hsplit, hfront⟩ := List.eq_append_cons_of_mem
      (List.count_pos_iff.mp (hcount ▸ Nat.one_pos))
    rw [hsplit] at hcount hfirst hlast
    have hback : separator ∉ back := by
      rw [List.count_append, List.count_cons_self, List.count_eq_zero_of_not_mem hfront] at hcount
      exact List.count_eq_zero.mp (by omega)
    have hfront_ne : front ≠ [] := by
      rintro rfl
      exact hfirst rfl
    have hback_ne : back ≠ [] := by
      rintro rfl
      exact hlast List.getLast?_concat
    refine ⟨⟨.ofList front, .ofList back⟩, parse?_eq_some_iff.mpr ⟨⟨?_, ?_, ?_, ?_⟩, ?_⟩⟩
    · simpa [← String.toList_eq_nil_iff] using hfront_ne
    · simpa [← String.toList_eq_nil_iff] using hback_ne
    · simpa using hfront
    · simpa using hback
    · rw [← String.toList_inj, toList_rendered, hsplit, String.toList_ofList, String.toList_ofList]

/-- A name that has been read is equal to no other one. -/
theorem eq_of_parse? (hb : parse? text = some b) (h : (a == b) = true) : a = b :=
  (of_parse?_eq_some hb).1.eq_of_rendered_eq (beq_iff.mp h)

/-- Names are identified by their written form. The order of names is that of the bytes of their
written forms, and is total; equality is to be neither above nor below, which is to be written
alike; and a hasher is given the same bytes of names exactly if they are equal. What can be read are
the texts with one separator and something on both sides of it; a name that is read is written as it
was, a plain name is read back from what is written, and names that have been read are equal exactly
if both parts are. Members of members are members. -/
theorem names_identified :
    (∀ a b : QualifiedName, compare a b = compareText a.rendered b.rendered) ∧
    Std.TransOrd QualifiedName ∧
    (∀ a b : QualifiedName, ((a == b) = true ↔ compare a b = .eq) ∧
      ((a == b) = true ↔ a.rendered = b.rendered) ∧
      ((a == b) = true ↔ ∀ {σ : Type} (write : σ → UInt8 → σ) (state : σ),
        a.feed write state = b.feed write state)) ∧
    (∀ text, (∃ name, parse? text = some name) ↔
      text.toList.count separator = 1 ∧ text.toList.head? ≠ some separator ∧
        text.toList.getLast? ≠ some separator) ∧
    (∀ text name, parse? text = some name → name.rendered = text) ∧
    (∀ home own, home ≠ "" → own ≠ "" → separator ∉ home.toList → separator ∉ own.toList →
      parse? (rendered ⟨home, own⟩) = some ⟨home, own⟩) ∧
    (∀ text text' a b, parse? text = some a → parse? text' = some b →
      ((a == b) = true ↔ a.modulePart = b.modulePart ∧ a.localPart = b.localPart)) ∧
    ∀ (a : QualifiedName) p q, a.member (p ++ q) = (a.member p).member q := by
  refine ⟨compare_eq_compareText, inferInstance, fun a b => ⟨?_, beq_iff, feed_eq_iff.symm⟩,
    fun text => exists_parse?_iff, fun text name h => (of_parse?_eq_some h).2,
    fun home own hhome hown hhome' hown' => ?_, fun _ _ a b _ hb => ⟨fun h => ?_, ?_⟩,
    member_append⟩
  · exact Std.LawfulBEqCmp.compare_eq_iff_beq.symm
  · exact IsPlain.parse?_rendered ⟨hhome, hown, hhome', hown'⟩
  · obtain rfl := eq_of_parse? hb h
    exact ⟨rfl, rfl⟩
  · rintro ⟨hmodule, hlocal⟩
    exact beq_iff.mpr (by rw [rendered, rendered, hmodule, hlocal])

/-- Names that cannot be read may be equal although their parts are different. -/
example : (⟨"a", "b:c"⟩ : QualifiedName) == ⟨"a:b", "c"⟩ := by decide

end QualifiedName

end Injection
