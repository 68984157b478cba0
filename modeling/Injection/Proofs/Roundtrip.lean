import Injection.Proofs.Decoding
import Injection.Proofs.Json
import Mathlib

/-!
# Declarations that are written and read

A declaration is written with all of its fields, and read back as it is if its names are plain. The
names of a declaration that has been read are plain, and its maps and sets list their keys in
ascending order, however they were listed in the document; so reading is undone by writing.
-/

namespace Injection

/-! ## Maps and sets -/

namespace Decode

variable {α : Type} {decode : Value → Decoded α} {toValue : α → Value}

theorem names_toValue (set : NameSet) : names (.ofTexts set.keys) = .ok set := by
  have htexts : listOf text (.ofTexts set.keys) = .ok set.keys := listOf_toValue fun _ _ => rfl
  rw [names, htexts]
  exact congrArg Except.ok set.ofNames_keys

/-- A map is read in the order in which it is written. -/
theorem mapOf_toValue {map : KeyMap α}
    (h : ∀ entry ∈ map.entries, decode (toValue entry.2) = .ok entry.2) :
    mapOf decode (.object (map.entries.map (Prod.map id toValue))) = .ok map := by
  have hsorted : sorted (map.entries.map (Prod.map id toValue)) =
      map.entries.map (Prod.map id toValue) := by
    refine List.mergeSort_of_pairwise (List.pairwise_map.mpr ?_)
    exact (List.pairwise_map.mp map.ascending).imp fun hlt => decide_eq_true (Std.le_of_lt hlt)
  rw [mapOf, hsorted, mapM_map_eq_ok]
  · exact congrArg Except.ok map.ofList_entries
  · intro entry hentry
    simp only [Prod.map_fst, Prod.map_snd, id_eq, h entry hentry, bind, Except.bind, pure,
      Except.pure]

theorem text?_toValue (text : Option String) : text? (.ofText? text) = .ok text := by
  cases text <;> rfl

end Decode

/-! ## Declarations -/

section Declarations

variable (format : Format)

theorem Strategy.decode_toValue (strategy : Strategy) :
    decode format strategy.toValue = .ok strategy := by
  cases strategy <;> rfl

theorem DependencyKind.decode_toValue (kind : DependencyKind) :
    decode format kind.toValue = .ok kind := by
  cases kind with
  | direct => rfl
  | nested path =>
    have htexts : Decode.listOf Decode.text (.ofTexts path) = .ok path :=
      Decode.listOf_toValue fun _ _ => rfl
    show (nested <$> Decode.listOf Decode.text (.ofTexts path)) = _
    rw [htexts]
    rfl

theorem Dependency.IsPlain.decode_toValue {dependency : Dependency} (h : dependency.IsPlain) :
    decode format dependency.toValue = .ok dependency := by
  simp [decode, toValue, Decode.record, ofFields, Decode.field?, List.lookup, ofParts,
    Decode.required, Decode.text, DependencyKind.decode_toValue, Decode.name_toValue h, bind,
    Except.bind, pure, Except.pure]

theorem Bean.IsPlain.decode_toValue {bean : Bean} (h : bean.IsPlain) :
    decode format bean.toValue = .ok bean := by
  have hdependencies : Decode.listOf (Dependency.decode format)
      (.list (bean.dependencies.map Dependency.toValue)) = .ok bean.dependencies :=
    Decode.listOf_toValue fun dependency hd => (h.dependencies dependency hd).decode_toValue format
  simp [decode, toValue, Decode.record, ofFields, Decode.field?, List.lookup, ofParts,
    Decode.required, Decode.bool, Decode.text?_toValue, Strategy.decode_toValue, hdependencies,
    Decode.name_toValue h.name, bind, Except.bind, pure, Except.pure]

theorem Socket.IsPlain.decode_toValue {socket : Socket} (h : socket.IsPlain) :
    decode format socket.toValue = .ok socket := by
  simp [decode, toValue, Decode.record, ofFields, Decode.field?, List.lookup, ofParts,
    Decode.required, Decode.bool, Decode.name_toValue h, bind, Except.bind, pure, Except.pure]

theorem Import.toValue_eq (imported : Import) : imported.toValue =
    .object [("module", .text imported.component), ("bindings",
      .object (imported.bindings.entries.map (Prod.map id QualifiedName.toValue)))] := rfl

theorem Import.IsPlain.decode_toValue {imported : Import} (h : imported.IsPlain) :
    decode format imported.toValue = .ok imported := by
  have hbindings : Decode.mapOf Decode.name (.object (imported.bindings.entries.map
      (Prod.map id QualifiedName.toValue))) = .ok imported.bindings :=
    Decode.mapOf_toValue fun entry hentry => Decode.name_toValue (h entry hentry)
  simp [decode, toValue_eq, Decode.record, ofFields, Decode.field?, List.lookup, ofParts,
    Decode.required, Decode.text, hbindings, bind, Except.bind, pure, Except.pure]

theorem ModuleDecl.IsWritable.decode_toValue {m : ModuleDecl} (h : m.IsWritable) :
    decode format m.toValue = .ok m := by
  have hbeans : Decode.listOf (Bean.decode format) (.list (m.beans.map Bean.toValue)) =
      .ok m.beans :=
    Decode.listOf_toValue fun bean hb => (h.beans bean hb).decode_toValue format
  have hsockets : Decode.listOf (Socket.decode format) (.list (m.sockets.map Socket.toValue)) =
      .ok m.sockets :=
    Decode.listOf_toValue fun socket hs =>
      Socket.IsPlain.decode_toValue format (h.sockets socket hs)
  have himports : Decode.listOf (Import.decode format) (.list (m.imports.map Import.toValue)) =
      .ok m.imports :=
    Decode.listOf_toValue fun imported hi =>
      Import.IsPlain.decode_toValue format (h.imports imported hi)
  simp [decode, toValue, Decode.record, ofFields, Decode.field?, List.lookup, ofParts,
    Decode.required, Decode.text, Decode.uint32_toValue, Decode.names_toValue, hbeans, hsockets,
    himports, bind, Except.bind, pure, Except.pure]

end Declarations

/-- The modules that some document stands for are those that can be written. -/
theorem ModuleDecl.exists_decode_iff {format : Format} {m : ModuleDecl} :
    (∃ value, decode format value = .ok m) ↔ m.IsWritable := by
  constructor
  · rintro ⟨value, h⟩
    exact ensures_isWritable format value m h
  · exact fun h => ⟨m.toValue, h.decode_toValue format⟩

/-! ## What is written -/

section Printable

open Json

theorem DependencyKind.printable_toValue (kind : DependencyKind) : Printable kind.toValue := by
  cases kind with
  | direct => exact .object (by simp) (by simp [Printable.text])
  | nested path =>
    have htexts : Printable (.ofTexts path) := .map .text path
    exact .object (by simp) (by simp [Printable.text, htexts])

theorem Dependency.printable_toValue (dependency : Dependency) : Printable dependency.toValue :=
  .object (by simp) (by
    simp [Printable.text, QualifiedName.toValue, dependency.kind.printable_toValue])

theorem Bean.printable_toValue (bean : Bean) : Printable bean.toValue := by
  have htext? : ∀ text : Option String, Printable (.ofText? text)
    | none => .null
    | some text => .text text
  have hdependencies := Printable.map Dependency.printable_toValue bean.dependencies
  exact .object (by simp) (by
    simp [Printable.text, Printable.bool, QualifiedName.toValue, Strategy.toValue, htext?,
      hdependencies])

theorem Socket.printable_toValue (socket : Socket) : Printable socket.toValue :=
  .object (by simp) (by simp [Printable.text, Printable.bool, QualifiedName.toValue])

theorem Import.printable_toValue (imported : Import) : Printable imported.toValue := by
  have hbindings : Printable (.object (imported.bindings.entries.map
      (Prod.map id QualifiedName.toValue))) := by
    refine .object ?_ fun field hfield => ?_
    · rw [List.map_map]
      exact imported.bindings.nodup_keys
    · obtain ⟨entry, -, rfl⟩ := List.mem_map.mp hfield
      exact .text _
  rw [toValue_eq]
  exact .object (by simp) (by simp [Printable.text, hbindings])

/-- The document of a module has a JSON text of its own. -/
theorem ModuleDecl.printable_toValue (m : ModuleDecl) : Printable m.toValue := by
  have hbeans := Printable.map Bean.printable_toValue m.beans
  have hsockets := Printable.map Socket.printable_toValue m.sockets
  have himports := Printable.map Import.printable_toValue m.imports
  have htexts : ∀ texts, Printable (.ofTexts texts) := .map .text
  exact .object (by simp) (by
    simp [Printable.text, Printable.uint32, hbeans, hsockets, himports, htexts])

end Printable

/-- A module that some document stands for is written to a document that stands for it, in every
format, and the text of that document is read as the document. -/
theorem declaration_reads_back {format format' : Format} {value : Value} {m : ModuleDecl}
    (h : ModuleDecl.decode format value = .ok m) :
    ModuleDecl.decode format' m.toValue = .ok m ∧
      Json.parse? (Json.pretty m.toValue) = some m.toValue := by
  have hm : m.IsWritable := ModuleDecl.exists_decode_iff.mp ⟨value, h⟩
  exact ⟨hm.decode_toValue format', m.printable_toValue.parse?_pretty⟩

/-- A document that is written in many ways: fields are left out, unknown or in another order, lists
stand for records, and a set names a module twice. -/
def motleyDocument : Value :=
  .object [("excludes", .list [.text "z", .text "y", .text "z"]), ("unknown", .null),
    ("imports", .list [
      .object [("module", .text "c"),
        ("bindings", .object [("t", .text "m:a"), ("s", .text "m:b")])],
      .list [.text "d"]]),
    ("sockets", .list [.object [("name", .text "m:s")], .list [.text "m:t", .bool false]]),
    ("beans", .list [
      .list [.text "m:b", .object [("prototype", .null)], .bool true,
        .list [.list [.text "m:a", .text "x", .list [.text "nested", .list [.text "x", .text "y"]]],
          .object [("label", .text "s"), ("target", .text "m:s")]], .null, .text "close"],
      .object [("strategy", .text "singleton"), ("name", .text "m:a")]]),
    ("name", .text "m")]

/-- What that document stands for. -/
def motley : ModuleDecl where
  name := "m"
  beans := [
    { name := ⟨"m", "b"⟩
      strategy := .prototype
      isWrapper := true
      dependencies := [⟨⟨"m", "a"⟩, "x", .nested ["x", "y"]⟩, ⟨⟨"m", "s"⟩, "s", .direct⟩]
      destroy := "close" },
    { name := ⟨"m", "a"⟩ }]
  sockets := [{ name := ⟨"m", "s"⟩ }, { name := ⟨"m", "t"⟩, required := false }]
  imports := [⟨"c", .ofList [("s", ⟨"m", "b"⟩), ("t", ⟨"m", "a"⟩)]⟩, ⟨"d", .empty⟩]
  excludes := .ofNames ["y", "z"]

theorem declaration_reads_back_motley :
    ModuleDecl.decode .json motleyDocument = .ok motley ∧
      ModuleDecl.decode .json motley.toValue = .ok motley := by
  have h : ModuleDecl.decode .json motleyDocument = .ok motley := by cbv
  exact ⟨h, (declaration_reads_back h).1⟩

end Injection
