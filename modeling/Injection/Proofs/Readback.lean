import Injection.Proofs.Acyclic
import Injection.Proofs.Decoding
import Injection.Proofs.Json

/-!
# Descriptors that are read back

The names in the descriptor of a decoded module are those of its declarations, which are plain, and
those of members that are navigated, which hold whatever the segments of a path hold. So the
descriptor can be read back exactly if no segment holds the separator of names.

## Main definitions

* `Wire.IsPlain`, `Descriptor.IsPlain` — whether the names of an edge, and the declared names of a
  descriptor, are plain.
* `ModuleDecl.HasPlainPaths` — whether no segment of a path holds the separator.
-/

namespace Injection

/-! ## Edges and descriptors -/

/-- Whether both ends of an edge are plain. -/
structure Wire.IsPlain (wire : Wire) : Prop where
  source : wire.source.IsPlain
  target : wire.target.IsPlain

namespace Wire

variable {wire : Wire} (format : Format)

theorem decode_toValue_eq (wire : Wire) : decode format wire.toValue = (do
    let source ← Decode.name wire.source.toValue
    let target ← Decode.name wire.target.toValue
    return { wire with source, target }) := by
  simp [decode, toValue, Decode.record, ofFields, Decode.field?, List.lookup, ofParts,
    Decode.required, Decode.text, Decode.bool]

theorem decode_toValue (h : wire.IsPlain) : decode format wire.toValue = .ok wire := by
  rw [decode_toValue_eq, Decode.name_toValue h.source, Decode.name_toValue h.target]
  rfl

/-- Of an edge that is not read one of the ends is reported. -/
theorem decode_toValue_of_not (h : ¬ wire.IsPlain) :
    ∃ name, (name = wire.source ∨ name = wire.target) ∧ ¬ name.IsPlain ∧
      decode format wire.toValue = .error (.invalidName name.rendered) := by
  rw [decode_toValue_eq]
  by_cases hs : wire.source.IsPlain
  · have ht : ¬ wire.target.IsPlain := fun ht => h ⟨hs, ht⟩
    exact ⟨_, .inr rfl, ht, by rw [Decode.name_toValue hs, Decode.name_toValue_of_not ht]; rfl⟩
  · exact ⟨_, .inl rfl, hs, by rw [Decode.name_toValue_of_not hs]; rfl⟩

end Wire

namespace Descriptor

variable {d : Descriptor} (format : Format)

theorem decode_toValue_eq (d : Descriptor) : decode format d.toValue = (do
    let beans ← Decode.listOf Decode.name (namesValue d.beans)
    let wires ← Decode.listOf (Wire.decode format) (.list (d.wires.map Wire.toValue))
    let optionalSockets ← Decode.listOf Decode.name (namesValue d.optionalSockets)
    let requiredSockets ← Decode.listOf Decode.name (namesValue d.requiredSockets)
    return { d with beans, wires, optionalSockets, requiredSockets }) := by
  simp [decode, toValue, Decode.record, ofFields, Decode.field?, List.lookup, ofParts,
    Decode.required, Decode.text, Decode.uint32_toValue]
  rfl

/-- Whether the names of the beans and sockets are plain. -/
structure IsPlain (d : Descriptor) : Prop where
  beans : ∀ name ∈ d.beans, name.IsPlain
  requiredSockets : ∀ name ∈ d.requiredSockets, name.IsPlain
  optionalSockets : ∀ name ∈ d.optionalSockets, name.IsPlain

variable (h : d.IsPlain)

include h

theorem IsPlain.decode_toValue (hwires : ∀ wire ∈ d.wires, wire.IsPlain) :
    decode format d.toValue = .ok d := by
  have hnames : ∀ names : List QualifiedName, (∀ name ∈ names, name.IsPlain) →
      Decode.listOf Decode.name (namesValue names) = .ok names := fun names hnames =>
    Decode.listOf_toValue fun name hname => Decode.name_toValue (hnames name hname)
  have hlist : Decode.listOf (Wire.decode format) (.list (d.wires.map Wire.toValue)) =
      .ok d.wires :=
    Decode.listOf_toValue fun wire hwire => Wire.decode_toValue format (hwires wire hwire)
  rw [decode_toValue_eq, hnames _ h.beans, hnames _ h.requiredSockets, hnames _ h.optionalSockets,
    hlist]
  rfl

/-- A descriptor with an edge that is not plain is not read, and an end of an edge is reported. -/
theorem IsPlain.decode_toValue_eq_error (hwires : ∃ wire ∈ d.wires, ¬ wire.IsPlain) :
    ∃ wire ∈ d.wires, ∃ name, (name = wire.source ∨ name = wire.target) ∧ ¬ name.IsPlain ∧
      decode format d.toValue = .error (.invalidName name.rendered) := by
  have hbeans : Decode.listOf Decode.name (namesValue d.beans) = .ok d.beans :=
    Decode.listOf_toValue fun name hname => Decode.name_toValue (h.beans name hname)
  have hbad : ∃ wire ∈ d.wires, ∃ e, Wire.decode format wire.toValue = .error e := by
    obtain ⟨wire, hwire, hnot⟩ := hwires
    obtain ⟨name, -, -, he⟩ := Wire.decode_toValue_of_not format hnot
    exact ⟨wire, hwire, _, he⟩
  obtain ⟨wire, hwire, e, he, hlist⟩ := Decode.exists_listOf_toValue_eq_error hbad
  have hnot : ¬ wire.IsPlain := by
    intro hplain
    rw [Wire.decode_toValue format hplain] at he
    cases he
  obtain ⟨name, hend, hname, he'⟩ := Wire.decode_toValue_of_not format hnot
  obtain rfl := Except.error.inj (he.symm.trans he')
  refine ⟨wire, hwire, name, hend, hname, ?_⟩
  rw [decode_toValue_eq, hbeans, hlist]
  rfl

end Descriptor

/-- A descriptor has a JSON text of its own. -/
theorem Descriptor.printable_toValue (d : Descriptor) : Json.Printable d.toValue := by
  have hnames : ∀ names, Json.Printable (namesValue names) := .map fun _ => .text _
  have hwire : ∀ wire : Wire, Json.Printable wire.toValue := by
    intro wire
    refine .object (by simp) ?_
    simp only [List.forall_mem_cons, List.not_mem_nil, false_imp_iff, implies_true, and_true]
    exact ⟨.text _, .text _, .text _, .bool _⟩
  refine .object (by simp) ?_
  simp only [List.forall_mem_cons, List.not_mem_nil, false_imp_iff, implies_true, and_true]
  exact ⟨.text _, .uint32 _, hnames _, hnames _, hnames _, .map hwire _, .text _⟩

/-! ## Names of graphs -/

namespace ModuleDecl

variable {m : ModuleDecl} {name : QualifiedName}

/-- Whether no segment of a path that is navigated holds the separator of names. -/
def HasPlainPaths (m : ModuleDecl) : Prop :=
  ∀ bean ∈ m.beans, ∀ dependency ∈ bean.dependencies, ∀ segment ∈ dependency.path,
    QualifiedName.separator ∉ segment.toList

instance (m : ModuleDecl) : Decidable m.HasPlainPaths :=
  inferInstanceAs (Decidable (∀ bean ∈ m.beans, ∀ dependency ∈ bean.dependencies,
    ∀ segment ∈ dependency.path, QualifiedName.separator ∉ segment.toList))

variable (hm : m.IsPlain)

include hm

theorem IsPlain.isPlain_of_mem_declared (h : name.rendered ∈ m.declared) : name.IsPlain := by
  obtain ⟨other, hother, hrendered⟩ := List.mem_map.mp h
  have hplain : other.IsPlain := by
    rcases List.mem_append.mp hother with h | h
    · obtain ⟨bean, hb, rfl⟩ := List.mem_map.mp h
      exact (hm.beans bean hb).name
    · obtain ⟨socket, hs, rfl⟩ := List.mem_map.mp h
      exact hm.sockets socket hs
  exact hplain.of_rendered_eq hrendered.symm

theorem IsPlain.isPlain_of_mem_members (hpaths : m.HasPlainPaths) {x : Member}
    (hx : x ∈ m.members) (h : name.rendered = x.name) : name.IsPlain := by
  obtain ⟨bean, hb, dependency, hd, hx⟩ := mem_members_iff.mp hx
  obtain ⟨howner, hfront⟩ := Member.of_mem_along hx
  have htarget : x.owner.IsPlain := howner ▸ (hm.beans bean hb).dependencies dependency hd
  have hplain : (x.owner.member (x.walked ++ [x.segment])).IsPlain :=
    htarget.isPlain_member_iff.mpr fun segment hs =>
      hpaths bean hb dependency hd segment (hfront.subset hs)
  exact hplain.of_rendered_eq h

/-- A name of the graph that is not plain is that of a member. -/
theorem IsPlain.exists_member_of_not (hc : m.Closed) (h : name.rendered ∈ (Graph.build m).written)
    (hname : ¬ name.IsPlain) : ∃ x ∈ m.members, x.name = name.rendered := by
  rcases hc.mem_written_iff.mp h with h | h
  · exact absurd (hm.isPlain_of_mem_declared h) hname
  · obtain ⟨hop, hhop, hname⟩ := List.mem_map.mp h
    exact ⟨hop, (keepFirst_sublist _ _ _).mem hhop, hname⟩

theorem IsPlain.isPlain_of_mem_written (hc : m.Closed) (hpaths : m.HasPlainPaths)
    (h : name.rendered ∈ (Graph.build m).written) : name.IsPlain := by
  by_contra hname
  obtain ⟨x, hx, hrendered⟩ := hm.exists_member_of_not hc h hname
  exact hname (hm.isPlain_of_mem_members hpaths hx hrendered.symm)

/-- If a path holds a separator, then a hop does, and with it an edge. -/
theorem IsPlain.exists_wire_of_not (hc : m.Closed) (hpaths : ¬ m.HasPlainPaths) :
    ∃ wire ∈ (Graph.build m).wires, ¬ wire.IsPlain := by
  simp only [HasPlainPaths, not_forall, not_not] at hpaths
  obtain ⟨bean, hb, dependency, hd, segment, hsegment, hmem⟩ := hpaths
  obtain ⟨x, hx, howner, rfl⟩ : ∃ x ∈ dependency.members,
      x.owner = dependency.target ∧ x.segment = segment := Member.exists_mem_along hsegment
  have hmember : x ∈ m.members := mem_members_iff.mpr ⟨bean, hb, dependency, hd, hx⟩
  have hnot : ¬ (x.owner.member (x.walked ++ [x.segment])).IsPlain := by
    have htarget : x.owner.IsPlain := howner ▸ (hm.beans bean hb).dependencies dependency hd
    rw [htarget.isPlain_member_iff]
    exact fun h => h x.segment (by simp) hmem
  have hnew : x.name ∉ m.declared := fun h => hnot (hm.isPlain_of_mem_declared h)
  have hkept : x.name ∈ m.hops.map Member.name :=
    (mem_map_keepFirst _).mpr ⟨List.mem_map_of_mem hmember, hnew⟩
  -- another member of this name may have become the hop, but it is written alike
  obtain ⟨hop, hhop, hname⟩ := List.mem_map.mp hkept
  obtain ⟨wire, hwire, hlink⟩ := List.mem_map.mp
    (hc.mem_links_iff.mpr (.inl (List.mem_map_of_mem hhop)))
  refine ⟨wire, hwire, fun hplain => hnot ?_⟩
  have hsource : wire.source.rendered = x.name := (congrArg Link.source hlink).trans hname
  exact hplain.source.of_rendered_eq hsource.symm

end ModuleDecl

theorem Graph.Sound.mem_written_of_mem_wires {g : Graph} (hs : g.Sound) {wire : Wire}
    (h : wire ∈ g.wires) : wire.source.rendered ∈ g.written ∧ wire.target.rendered ∈ g.written := by
  obtain ⟨e, he, rfl⟩ := List.mem_map.mp h
  exact ⟨mem_written_iff.mpr ⟨_, hs.source_lt e he, rfl⟩,
    mem_written_iff.mpr ⟨_, hs.target_lt e he, rfl⟩⟩

/-- The declared names in the descriptor of a plain module are plain. -/
theorem Descriptor.isPlain_describe {m : ModuleDecl} (hm : m.IsPlain) (version : UInt32)
    (order : List Nat) : (describe version (Graph.build m) order).IsPlain := by
  have hsockets : ∀ p, ∀ name ∈ ((Graph.build m).sockets.filter p).map (·.name),
      name.IsPlain := by
    intro p name hname
    obtain ⟨socket, hsocket, rfl⟩ := List.mem_map.mp hname
    obtain ⟨node, hnode, hs⟩ := List.mem_filterMap.mp (List.mem_filter.mp hsocket).1
    cases node with
    | socket s =>
      obtain rfl := Option.some.inj hs
      have hmem := Graph.mem_declarations_of_mem_nodes rfl hnode
      exact hm.sockets s (by simpa using hmem)
    | bean | hop => cases hs
  refine ⟨fun name hname => ?_, hsockets _, hsockets _⟩
  obtain ⟨bean, hbean, rfl⟩ := List.mem_map.mp hname
  obtain ⟨index, -, hb⟩ := List.mem_filterMap.mp hbean
  obtain ⟨node, hnode, hb⟩ := Option.bind_eq_some_iff.mp hb
  cases node with
  | bean b =>
    obtain rfl := Option.some.inj hb
    have hmem := Graph.mem_declarations_of_mem_nodes rfl (List.mem_of_getElem? hnode)
    exact (hm.beans b (by simpa using hmem)).name
  | socket | hop => cases hb

/-! ## Descriptors of modules -/

section Describe

variable {m : ModuleDecl} (format : Format) (order : List Nat) (hm : m.IsPlain) (hc : m.Closed)

include hm hc

theorem decode_describe (hpaths : m.HasPlainPaths) :
    Descriptor.decode format (Descriptor.describe m.version (Graph.build m) order).toValue =
      .ok (.describe m.version (Graph.build m) order) := by
  refine (Descriptor.isPlain_describe hm m.version order).decode_toValue format fun wire hwire => ?_
  obtain ⟨hsource, htarget⟩ := (Graph.sound_build m).mem_written_of_mem_wires hwire
  exact ⟨hm.isPlain_of_mem_written hc hpaths hsource, hm.isPlain_of_mem_written hc hpaths htarget⟩

theorem exists_decode_describe_eq_error (hpaths : ¬ m.HasPlainPaths) : ∃ x ∈ m.members,
    Descriptor.decode format (Descriptor.describe m.version (Graph.build m) order).toValue =
      .error (.invalidName x.name) := by
  obtain ⟨wire, hwire, name, hend, hname, he⟩ :=
    (Descriptor.isPlain_describe hm m.version order).decode_toValue_eq_error format
      (hm.exists_wire_of_not hc hpaths)
  have hwritten : name.rendered ∈ (Graph.build m).written := by
    have hends := (Graph.sound_build m).mem_written_of_mem_wires hwire
    rcases hend with rfl | rfl
    · exact hends.1
    · exact hends.2
  obtain ⟨x, hx, hrendered⟩ := hm.exists_member_of_not hc hwritten hname
  exact ⟨x, hx, by rw [he, hrendered]⟩

end Describe

/-- The text of a descriptor is read as its document, and the document of a decoded module's
descriptor is read as the descriptor exactly if no path of the module holds the separator of names.
Else the name of a member is reported. -/
theorem descriptor_reads_back {format : Format} {value : Value} {m : ModuleDecl} {d : Descriptor}
    (hm : ModuleDecl.decode format value = .ok m) (hd : m.HasDescriptor d) :
    Json.parse? d.text = some d.toValue ∧
    (Descriptor.decode .json d.toValue = .ok d ↔ m.HasPlainPaths) ∧
    (¬ m.HasPlainPaths → ∃ x ∈ m.members,
      Descriptor.decode .json d.toValue = .error (.invalidName x.name)) := by
  have hplain : m.IsPlain := ModuleDecl.ensures_decode format value m hm
  have hc : m.Closed := hd.closed
  obtain ⟨-, -, order, -, rfl⟩ := hasDescriptor_iff.mp hd
  refine ⟨(Descriptor.printable_toValue _).parse?_pretty, ⟨fun hok => ?_,
    decode_describe .json order hplain hc⟩, exists_decode_describe_eq_error .json order hplain hc⟩
  by_contra hpaths
  obtain ⟨x, -, he⟩ := exists_decode_describe_eq_error .json order hplain hc hpaths
  rw [hok] at he
  cases he

/-- The document of a module like `navigating`, with a path of one segment. -/
def navigatingDocument (segment : String) : Value :=
  .object [("name", .text "m"), ("beans", .list [
    .object [("name", .text "m:b"), ("dependencies", .list [
      .object [("target", .text "m:t"), ("label", .text "x"),
        ("kind", .object [("type", .text "nested"), ("path", .list [.text segment])])]])],
    .object [("name", .text "m:t")]])]

theorem decode_navigatingDocument :
    ModuleDecl.decode .json (navigatingDocument "x") = .ok navigating := by
  cbv

theorem descriptor_reads_back_navigating : ∃ d, navigating.HasDescriptor d ∧
    Json.parse? d.text = some d.toValue ∧ Descriptor.decode .json d.toValue = .ok d := by
  have hpaths : navigating.HasPlainPaths := by decide
  have hback := descriptor_reads_back decode_navigatingDocument hasDescriptor_navigating
  exact ⟨_, hasDescriptor_navigating, hback.1, hback.2.1.mpr hpaths⟩

/-- `navigating` with a separator in the path. -/
def separated : ModuleDecl where
  name := "m"
  beans := [
    { name := ⟨"m", "b"⟩, dependencies := [⟨⟨"m", "t"⟩, "x", .nested ["a:b"]⟩] },
    { name := ⟨"m", "t"⟩ }]

/-- Not every descriptor can be read back. -/
theorem not_reads_back :
    ¬ ∀ (value : Value) (m : ModuleDecl) (d : Descriptor), ModuleDecl.decode .json value = .ok m →
      m.HasDescriptor d → ∃ read, Descriptor.decode .json d.toValue = .ok read := by
  intro hall
  have hm : ModuleDecl.decode .json (navigatingDocument "a:b") = .ok separated := by cbv
  have hd : separated.HasDescriptor (.describe 1 (Graph.build separated) [1, 2, 0]) :=
    hasDescriptor_of_schedule? (by cbv) (by cbv)
  have hplain : separated.IsPlain := ModuleDecl.ensures_decode .json _ _ hm
  obtain ⟨x, -, he⟩ :=
    exists_decode_describe_eq_error .json [1, 2, 0] hplain hd.closed (by decide)
  obtain ⟨read, hread⟩ := hall _ _ _ hm hd
  rw [show (1 : UInt32) = separated.version from rfl, he] at hread
  cases hread

end Injection
