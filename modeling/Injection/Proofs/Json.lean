import Injection.Json.Parser
import Injection.Json.Printer
import Mathlib.Data.List.DropRight
import Mathlib.Tactic.IntervalCases

/-!
# JSON that is printed and read

A value that has a JSON text of its own is read from the text that is printed for it: each part of
the text is read as the part of the value that it was printed for, whatever comes after it.

## Main definitions

* `Json.Printable` — whether a value has a JSON text of its own.
* `Json.Reads` — whether a text is read as a value, whatever comes after it.
-/

namespace Injection.Json

/-! ## Strings -/

theorem stringBody_quotedChar (done : List Char) (c : Char) (rest : List Char) :
    stringBody done ((quotedChar c).toList ++ rest) = stringBody (c :: done) rest := by
  -- the escapes of control characters without a short one
  have hcontrol : ∀ n < 32, ∃ a b,
      ("\\u00" ++ (if n < 16 then "0" else "") ++ Text.hexDigits n).toList =
        ['\\', 'u', '0', '0', a, b] ∧ hexNumber? ['0', '0', a, b] = some n := by
    intro n hn
    interval_cases n <;> exact ⟨_, _, rfl, by decide⟩
  unfold quotedChar
  split
  case h_8 =>
    split
    · next hlt =>
      have hn : c.toNat < 32 := hlt
      obtain ⟨a, b, hchars, hnumber⟩ := hcontrol _ hn
      have hhigh : ¬ 0xd800 ≤ c.toNat := by omega
      have hlow : ¬ 0xdc00 ≤ c.toNat := by omega
      rw [hchars]
      simp [stringBody, hnumber, hhigh, hlow]
    · next hge =>
      rw [Char.toString, String.toList_singleton, List.singleton_append, stringBody.eq_def]
      split <;> simp_all
  all_goals simp [stringBody, escaped?]

/-- A string is read as the text that it quotes. -/
theorem stringBody_quoted (done : List Char) (text : String) (rest : List Char) :
    stringBody done ((String.join (text.toList.map quotedChar)).toList ++ '"' :: rest) =
      some (String.ofList (done.reverse ++ text.toList), rest) := by
  rw [String.toList_join, List.flatMap_map]
  generalize text.toList = chars
  induction chars generalizing done with
  | nil => simp [stringBody]
  | cons c chars ih =>
    rw [List.flatMap_cons, List.append_assoc, stringBody_quotedChar, ih]
    simp

/-! ## Numbers -/

/-- Whether a text does not go on with what could belong to a number. -/
def Ends (rest : List Char) : Prop :=
  ∀ c ∈ rest.head?, c.isDigit = false ∧ c ≠ '.' ∧ c ≠ 'e' ∧ c ≠ 'E'

theorem ends_nil : Ends [] := by
  rintro _ ⟨⟩

theorem isDigit_of_mem_toDigits {c : Char} {n : Nat} (h : c ∈ Nat.toDigits 10 n) :
    c.isDigit = true :=
  Nat.isDigit_of_mem_toDigits (by decide) (by decide) h

theorem head?_toDigits_ne {n : Nat} (hn : 0 < n) : (Nat.toDigits 10 n).head? ≠ some '0' := by
  induction n using Nat.strongRecOn with
  | ind n ih =>
    rw [Nat.toDigits_eq_if (by decide)]
    split
    · interval_cases n <;> decide
    · rw [List.head?_append,
        Option.or_of_isSome (by simp [List.isSome_head?, Nat.toDigits_ne_nil])]
      exact ih (n / 10) (by omega) (by omega)

theorem toList_toString_int (z : Int) : (toString z).toList =
    (if z < 0 then ['-'] else []) ++ Nat.toDigits 10 z.natAbs := by
  cases z with
  | ofNat n => exact Nat.toList_repr
  | negSucc n =>
    have hneg : Int.negSucc n < 0 := Int.negSucc_lt_zero n
    show ("-" ++ (n + 1).repr).toList = _
    simp [hneg, Nat.toList_repr]

theorem exists_cons_toString_int (z : Int) :
    ∃ c rest, (toString z).toList = c :: rest ∧ (c.isDigit = true ∨ c = '-') := by
  rw [toList_toString_int]
  split
  · exact ⟨_, _, rfl, .inr rfl⟩
  · obtain ⟨c, rest, hdigits⟩ :=
      List.exists_cons_of_ne_nil (Nat.toDigits_ne_nil (n := z.natAbs) (b := 10))
    exact ⟨c, rest, hdigits, .inl (isDigit_of_mem_toDigits (hdigits ▸ List.mem_cons_self))⟩

theorem number_toDigits {negative : Bool} {n : Nat} (hn : fits negative n = true)
    {rest : List Char} (hrest : Ends rest) :
    number ((if negative then ['-'] else []) ++ Nat.toDigits 10 n ++ rest) =
      some (.integer (if negative then -(n : Int) else n), rest) := by
  have hdigit : ∀ c ∈ Nat.toDigits 10 n, c.isDigit = true := fun _ => isDigit_of_mem_toDigits
  have hstop : rest.takeWhile Char.isDigit = [] ∧ rest.dropWhile Char.isDigit = rest := by
    cases rest with
    | nil => simp
    | cons c _ => simp [(hrest c rfl).1]
  have htake : (Nat.toDigits 10 n ++ rest).takeWhile Char.isDigit = Nat.toDigits 10 n := by
    rw [List.takeWhile_append_of_pos hdigit, hstop.1, List.append_nil]
  have hdrop : (Nat.toDigits 10 n ++ rest).dropWhile Char.isDigit = rest := by
    rw [List.dropWhile_append_of_pos hdigit, hstop.2]
  have hvalue : digitsValue (Nat.toDigits 10 n) = n :=
    Nat.ofDigitChars_toDigits (by decide) (by decide)
  -- of the numbers that start with a zero only zero itself is printed
  have hlead : ((Nat.toDigits 10 n).length > 1 &&
      (Nat.toDigits 10 n).head? == some '0') = false := by
    cases n with
    | zero => rfl
    | succ n => simp [head?_toDigits_ne]
  have hsign : ((if negative then ['-'] else []) ++ Nat.toDigits 10 n ++ rest).head? ==
      some '-' ↔ negative = true := by
    cases negative with
    | true => simp
    | false =>
      obtain ⟨c, cs, hcs⟩ := List.exists_cons_of_ne_nil (Nat.toDigits_ne_nil (n := n) (b := 10))
      have hc := hdigit c (by simp [hcs])
      refine iff_of_false (fun he => ?_) (by decide)
      obtain rfl : c = '-' := by simpa [hcs] using he
      exact absurd hc (by decide)
  have hbody : (if negative then
      ((if negative then ['-'] else []) ++ Nat.toDigits 10 n ++ rest).tail
        else (if negative then ['-'] else []) ++ Nat.toDigits 10 n ++ rest) =
      Nat.toDigits 10 n ++ rest := by
    cases negative <;> simp
  unfold number
  simp only [Bool.eq_iff_iff.mpr hsign, hbody, htake, hdrop, hlead, hvalue]
  cases rest with
  | nil => simp [hn]
  | cons c rest =>
    obtain ⟨-, hdot, he, hE⟩ := hrest c rfl
    simp [hdot, he, hE, hn]

/-! ## Blanks -/

section Blank

variable {blanks : List Char} (hblanks : ∀ c ∈ blanks, isBlank c = true)

include hblanks

theorem skipBlank_append (text : List Char) : skipBlank (blanks ++ text) = skipBlank text :=
  List.dropWhile_append_of_pos hblanks

theorem value_append (fuel : Nat) (text : List Char) :
    value fuel (blanks ++ text) = value fuel text := by
  cases fuel with
  | zero => rw [value, value]
  | succ fuel => rw [value, value, skipBlank_append hblanks]

theorem members_append (fuel : Nat) (text : List Char) :
    members fuel (blanks ++ text) = members fuel text := by
  cases fuel with
  | zero => rw [members, members]
  | succ fuel => rw [members, members, skipBlank_append hblanks]

theorem ends_append {rest : List Char} (hrest : Ends rest) : Ends (blanks ++ rest) := by
  cases blanks with
  | nil => exact hrest
  | cons c blanks =>
    have hc := hblanks c List.mem_cons_self
    simp only [isBlank, Bool.or_eq_true, beq_iff_eq] at hc
    rintro _ ⟨⟩
    rcases hc with ((rfl | rfl) | rfl) | rfl <;> decide

end Blank

theorem items_skipBlank (fuel : Nat) (text : List Char) :
    items fuel (skipBlank text) = items fuel text := by
  have hvalue : ∀ fuel, value fuel (skipBlank text) = value fuel text := by
    intro fuel
    cases fuel with
    | zero => rw [value, value]
    | succ fuel => simp only [value, skipBlank, List.dropWhile_idempotent]
  cases fuel with
  | zero => rw [items, items]
  | succ fuel => rw [items, items, hvalue]

theorem members_skipBlank (fuel : Nat) (text : List Char) :
    members fuel (skipBlank text) = members fuel text := by
  cases fuel with
  | zero => rw [members, members]
  | succ fuel => simp only [members, skipBlank, List.dropWhile_idempotent]

theorem isBlank_indent (depth : Nat) : ∀ c ∈ (indent depth).toList, isBlank c = true := by
  intro c hc
  simp only [indent, String.toList_append, String.toList_ofList, List.mem_append,
    List.mem_replicate] at hc
  rcases hc with hc | ⟨-, rfl⟩
  · obtain rfl : c = '\n' := by simpa using hc
    decide
  · decide

/-! ## Single values -/

/-- Whether a text is read as a value, whatever comes after it that does not continue a number. Two
steps for each character are enough: a bracket or a comma is followed by a step into the parts and
one into the next of them. -/
def Reads (text : List Char) (v : Value) : Prop :=
  ∀ fuel rest, 2 * text.length < fuel → Ends rest → value fuel (text ++ rest) = some (v, rest)

theorem Reads.of_value {text : List Char} {v : Value}
    (h : ∀ fuel rest, 2 * text.length ≤ fuel → Ends rest →
      value (fuel + 1) (text ++ rest) = some (v, rest)) : Reads text v := by
  intro fuel rest hfuel hrest
  obtain ⟨fuel, rfl⟩ := Nat.exists_eq_succ_of_ne_zero (by omega : fuel ≠ 0)
  exact h fuel rest (by omega) hrest

theorem value_eq_number {c : Char} (hc : c.isDigit = true ∨ c = '-') (fuel : Nat)
    (rest : List Char) : value (fuel + 1) (c :: rest) = number (c :: rest) := by
  have hblank : isBlank c = false := by
    rw [Bool.eq_false_iff]
    intro hblank
    simp only [isBlank, Bool.or_eq_true, beq_iff_eq] at hblank
    rcases hblank with ((rfl | rfl) | rfl) | rfl <;> exact absurd hc (by decide)
  have hskip : skipBlank (c :: rest) = c :: rest := by simp [skipBlank, hblank]
  rw [value, hskip]
  split
  case h_7 => rfl
  all_goals
    next heq =>
    obtain ⟨rfl, -⟩ := List.cons.inj heq
    exact absurd hc (by decide)

theorem reads_integer {z : Int} (hz : fits (decide (z < 0)) z.natAbs = true) :
    Reads (toString z).toList (.integer z) := by
  refine .of_value fun fuel rest _ hrest => ?_
  have hnumber := number_toDigits hz hrest
  simp only [decide_eq_true_eq] at hnumber
  rw [← toList_toString_int] at hnumber
  have hsize : (if z < 0 then -(z.natAbs : Int) else z.natAbs) = z := by omega
  obtain ⟨c, digits, hdigits, hc⟩ := exists_cons_toString_int z
  rw [hdigits, List.cons_append] at hnumber ⊢
  rw [value_eq_number hc, hnumber, hsize]

theorem reads_text (s : String) : Reads (quoted s).toList (.text s) := by
  refine .of_value fun fuel rest _ _ => ?_
  have hchars : (quoted s).toList ++ rest =
      '"' :: ((String.join (s.toList.map quotedChar)).toList ++ '"' :: rest) := by
    simp [quoted]
  rw [hchars, value, show ∀ cs, skipBlank ('"' :: cs) = '"' :: cs from fun _ => rfl]
  simp only [stringBody_quoted, Option.map_some, List.reverse_nil, List.nil_append,
    String.ofList_toList]

/-! ## Parts between commas -/

/-- A field as it is printed. -/
def fieldText (text : Value → String) (field : String × Value) : String :=
  quoted field.1 ++ ": " ++ text field.2

section Parts

variable {front back : String} {text : Value → String}

theorem skipBlank_comma (rest : List Char) : skipBlank (',' :: rest) = ',' :: rest := rfl

theorem ends_comma (rest : List Char) : Ends (',' :: rest) := by
  rintro _ ⟨⟩
  decide

/-- Each item of a list is read as it is printed, on a line of its own. -/
theorem items_intercalate (hfront : ∀ c ∈ front.toList, isBlank c = true)
    (hback : ∀ c ∈ back.toList, isBlank c = true) {values : List Value} (hvalues : values ≠ [])
    (hreads : ∀ v ∈ values, Reads (text v).toList v) (fuel : Nat) (rest : List Char)
    (hfuel : 2 * (String.intercalate "," (values.map (front ++ text ·))).length + 2 ≤ fuel) :
    items fuel ((String.intercalate "," (values.map (front ++ text ·))).toList ++
      (back.toList ++ ']' :: rest)) = some (values, rest) := by
  induction values generalizing fuel with
  | nil => exact absurd rfl hvalues
  | cons v values ih =>
    obtain ⟨fuel, rfl⟩ := Nat.exists_eq_succ_of_ne_zero (by omega : fuel ≠ 0)
    have hv := hreads v List.mem_cons_self
    -- the last item is followed by the bracket, every other one by a comma
    cases values with
    | nil =>
      simp only [List.map_cons, List.map_nil, String.intercalate_singleton, String.length_append]
        at hfuel ⊢
      have hends : Ends (back.toList ++ ']' :: rest) :=
        ends_append hback (by rintro _ ⟨⟩; decide)
      have hvalue := hv fuel _ (by rw [String.length_toList]; omega) hends
      rw [items, String.toList_append, List.append_assoc, value_append hfront, hvalue]
      simp only [skipBlank_append hback]
      rfl
    | cons w values =>
      simp only [List.map_cons, String.intercalate_cons_cons, String.length_append] at hfuel ih ⊢
      have hcomma : ",".length = 1 := rfl
      have hmore := ih (by simp) (fun u hu => hreads u (List.mem_cons_of_mem _ hu)) fuel (by omega)
      have hvalue := fun rest =>
        hv fuel (',' :: rest) (by rw [String.length_toList]; omega) (ends_comma rest)
      rw [items]
      simp only [String.toList_append, List.append_assoc, value_append hfront,
        show ",".toList = [','] from rfl, List.cons_append, List.nil_append]
      rw [hvalue]
      simp only [skipBlank_comma, hmore]
      rfl

/-- A field is read by its key and its value, and then by what comes after it. -/
theorem members_field {field : String × Value} (hreads : Reads (text field.2).toList field.2)
    {fuel : Nat} (hfuel : 2 * (fieldText text field).length < fuel) {rest : List Char}
    (hrest : Ends rest) :
    (∀ after, skipBlank rest = '}' :: after →
      members (fuel + 1) ((fieldText text field).toList ++ rest) = some ([field], after)) ∧
    (∀ more fields after, skipBlank rest = ',' :: more → members fuel more = some (fields, after) →
      members (fuel + 1) ((fieldText text field).toList ++ rest) =
        some (field :: fields, after)) := by
  have hchars : (fieldText text field).toList ++ rest =
      '"' :: ((String.join (field.1.toList.map quotedChar)).toList ++
        '"' :: ':' :: ([' '] ++ ((text field.2).toList ++ rest))) := by
    simp [fieldText, quoted]
  have hlength : (text field.2).toList.length ≤ (fieldText text field).length := by
    simp only [fieldText, String.length_append, String.length_toList]
    omega
  have hblank : ∀ c ∈ [' '], isBlank c = true := by simp [isBlank]
  have hvalue : value fuel ([' '] ++ ((text field.2).toList ++ rest)) = some (field.2, rest) :=
    (value_append hblank fuel _).trans (hreads fuel rest (by omega) hrest)
  rw [hchars, members, show ∀ cs, skipBlank ('"' :: cs) = '"' :: cs from fun _ => rfl]
  simp only [stringBody_quoted, show ∀ cs, skipBlank (':' :: cs) = ':' :: cs from fun _ => rfl,
    hvalue, List.reverse_nil, List.nil_append, String.ofList_toList]
  constructor
  · intro after hafter
    simp only [hafter]
  · intro more fields after hmore hfields
    simp only [hmore, hfields, Option.map_some]

/-- Each field of an object is read as it is printed, on a line of its own. -/
theorem members_intercalate (hfront : ∀ c ∈ front.toList, isBlank c = true)
    (hback : ∀ c ∈ back.toList, isBlank c = true) {fields : List (String × Value)}
    (hfields : fields ≠ []) (hreads : ∀ field ∈ fields, Reads (text field.2).toList field.2)
    (fuel : Nat) (rest : List Char)
    (hfuel : 2 * (String.intercalate "," (fields.map (front ++ fieldText text ·))).length + 2 ≤
      fuel) :
    members fuel ((String.intercalate "," (fields.map (front ++ fieldText text ·))).toList ++
      (back.toList ++ '}' :: rest)) = some (fields, rest) := by
  induction fields generalizing fuel with
  | nil => exact absurd rfl hfields
  | cons field fields ih =>
    obtain ⟨fuel, rfl⟩ := Nat.exists_eq_succ_of_ne_zero (by omega : fuel ≠ 0)
    have hfield := hreads field List.mem_cons_self
    cases fields with
    | nil =>
      simp only [List.map_cons, List.map_nil, String.intercalate_singleton, String.length_append]
        at hfuel ⊢
      have hends : Ends (back.toList ++ '}' :: rest) :=
        ends_append hback (by rintro _ ⟨⟩; decide)
      rw [String.toList_append, List.append_assoc, members_append hfront]
      exact (members_field hfield (by omega) hends).1 rest (skipBlank_append hback _)
    | cons other fields =>
      simp only [List.map_cons, String.intercalate_cons_cons, String.length_append] at hfuel ih ⊢
      have hcomma : ",".length = 1 := rfl
      have hmore := ih (by simp) (fun u hu => hreads u (List.mem_cons_of_mem _ hu)) fuel (by omega)
      simp only [String.toList_append, List.append_assoc, members_append hfront,
        show ",".toList = [','] from rfl, List.cons_append, List.nil_append]
      exact (members_field hfield (by omega) (ends_comma _)).2 _ _ _ (skipBlank_comma _) hmore

end Parts

/-! ## Brackets -/

theorem value_list {fuel : Nat} {text rest : List Char} {values : List Value}
    (h : items fuel text = some (values, rest)) :
    value (fuel + 1) ('[' :: text) = some (.list values, rest) := by
  -- no item starts with a bracket that closes the list
  have hclosed : ∀ fuel tail, items fuel (']' :: tail) = none := by
    rintro (_ | _ | fuel) tail <;> rfl
  rw [← items_skipBlank] at h
  simp only [value, show skipBlank ('[' :: text) = '[' :: text from rfl]
  split
  · next heq =>
    rw [heq, hclosed] at h
    cases h
  · rw [h]
    rfl

theorem value_object {fuel : Nat} {text rest : List Char} {fields : List (String × Value)}
    (h : members fuel text = some (fields, rest)) :
    value (fuel + 1) ('\x7b' :: text) = some (.object (lastFields fields), rest) := by
  have hclosed : ∀ fuel tail, members fuel ('\x7d' :: tail) = none := by
    rintro (_ | fuel) tail <;> rfl
  rw [← members_skipBlank] at h
  simp only [value, show skipBlank ('\x7b' :: text) = '\x7b' :: text from rfl]
  split
  · next heq =>
    rw [heq, hclosed] at h
    cases h
  · rw [h]
    rfl

theorem lastFields_eq_self {fields : List (String × Value)}
    (h : (fields.map (·.1)).Nodup) : lastFields fields = fields := by
  induction fields with
  | nil => rfl
  | cons field rest ih =>
    rw [List.map_cons, List.nodup_cons] at h
    have hnew : rest.any (·.1 == field.1) = false := by
      rw [List.any_eq_false]
      intro other hother hkey
      exact h.1 (List.mem_map.mpr ⟨other, hother, beq_iff_eq.mp hkey⟩)
    rw [lastFields, List.foldr_cons, ← lastFields, ih h.2, hnew]
    rfl

theorem prettyItems_eq (depth : Nat) (items : List Value) :
    prettyItems depth items = items.map (prettyAt depth) := by
  induction items with
  | nil => rfl
  | cons item rest ih => rw [prettyItems, ih, List.map_cons]

theorem prettyFields_eq (depth : Nat) (fields : List (String × Value)) :
    prettyFields depth fields = fields.map (fieldText (prettyAt depth)) := by
  induction fields with
  | nil => rfl
  | cons field rest ih => rw [prettyFields, ih, List.map_cons, fieldText]

theorem toList_block {opening closing : String} (depth : Nat) {parts : List String}
    (h : parts ≠ []) : (block opening closing depth parts).toList = opening.toList ++
      ((String.intercalate "," (parts.map (indent (depth + 1) ++ ·))).toList ++
        ((indent depth).toList ++ closing.toList)) := by
  rw [block, if_neg (by simpa using h)]
  simp only [String.toList_append, List.append_assoc]

/-! ## Documents -/

/-- Whether a value has a JSON text of its own: its integers fit 64 bits, no two fields of an object
have the same key, and it holds neither other numbers nor dates. -/
inductive Printable : Value → Prop
  | null : Printable .null
  | bool (value : Bool) : Printable (.bool value)
  | integer {value : Int} (h : fits (decide (value < 0)) value.natAbs = true) :
    Printable (.integer value)
  | text (value : String) : Printable (.text value)
  | list {items : List Value} (h : ∀ item ∈ items, Printable item) : Printable (.list items)
  | object {fields : List (String × Value)} (hkeys : (fields.map (·.1)).Nodup)
    (h : ∀ field ∈ fields, Printable field.2) : Printable (.object fields)

theorem Printable.map {α : Type} {toValue : α → Value} (h : ∀ a, Printable (toValue a))
    (list : List α) : Printable (.list (list.map toValue)) := by
  refine .list fun item hitem => ?_
  obtain ⟨a, -, rfl⟩ := List.mem_map.mp hitem
  exact h a

theorem Printable.uint32 (n : UInt32) : Printable (.ofNat n.toNat) := by
  refine .integer ?_
  have hpos : ¬ (n.toNat : Int) < 0 := by omega
  have hlt : n.toNat < UInt64.size := Nat.lt_trans n.toNat_lt (by decide)
  simp [fits, hpos, hlt]

theorem Printable.reads_prettyAt {v : Value} (h : Printable v) (depth : Nat) :
    Reads (prettyAt depth v).toList v := by
  induction h generalizing depth with
  | null =>
    rw [prettyAt]
    exact .of_value fun _ _ _ _ => rfl
  | bool value =>
    rw [prettyAt]
    cases value <;> exact .of_value fun _ _ _ _ => rfl
  | integer h => simpa [prettyAt] using reads_integer h
  | text value => simpa [prettyAt] using reads_text value
  | @list values _ ih =>
    rw [prettyAt, prettyItems_eq]
    by_cases hvalues : values = []
    · subst hvalues
      rw [List.map_nil, block, if_pos List.isEmpty_nil]
      exact .of_value fun _ _ _ _ => rfl
    · rw [toList_block depth (by simpa using hvalues), List.map_map]
      refine .of_value fun fuel rest hfuel _ => ?_
      simp only [List.length_append, String.length_toList, Function.comp_def] at hfuel
      have hbrackets : "[".length = 1 ∧ "]".length = 1 := ⟨rfl, rfl⟩
      have hitems := items_intercalate (isBlank_indent (depth + 1)) (isBlank_indent depth) hvalues
        (fun v hv => ih v hv (depth + 1)) fuel rest (by omega)
      simp only [List.append_assoc]
      exact value_list hitems
  | @object fields hkeys _ ih =>
    rw [prettyAt, prettyFields_eq]
    by_cases hfields : fields = []
    · subst hfields
      rw [List.map_nil, block, if_pos List.isEmpty_nil]
      exact .of_value fun _ _ _ _ => rfl
    · rw [toList_block depth (by simpa using hfields), List.map_map]
      refine .of_value fun fuel rest hfuel _ => ?_
      simp only [List.length_append, String.length_toList, Function.comp_def] at hfuel
      have hbraces : "\x7b".length = 1 ∧ "\x7d".length = 1 := ⟨rfl, rfl⟩
      have hmembers := members_intercalate (isBlank_indent (depth + 1)) (isBlank_indent depth)
        hfields (fun v hv => ih v hv (depth + 1)) fuel rest (by omega)
      have hvalue := value_object hmembers
      rw [lastFields_eq_self hkeys] at hvalue
      simp only [List.append_assoc]
      exact hvalue

/-- What is printed can be read. -/
theorem Printable.parse?_pretty {v : Value} (h : Printable v) : parse? (pretty v) = some v := by
  have hread := h.reads_prettyAt 0 (2 * (pretty v).toList.length + 1) [] (Nat.lt_succ_self _)
    ends_nil
  rw [List.append_nil, ← pretty] at hread
  simp only [parse?, hread]
  rfl

end Injection.Json
