import Injection.Proofs.Acyclic
import Injection.Proofs.NameOrder

/-!
# What a fingerprint tells

A fingerprint is a digest of the module's name and of its edges between names. Unless two inputs of
the hash function collide, a descriptor can be reused exactly if these bytes are the same; and if no
text in the edges holds a character that marks the end of a text, exactly if the module's name and
the edges are the same. Nothing else that a descriptor says is covered: neither which beans there
are, nor their order, nor the sockets, nor the version.

## Main definitions

* `Blake3.Collision` — different inputs with the same digest.
* `Wire.Legible` — whether the texts of an edge hold none of the bytes that end a text.
* `Descriptor.Kept` — whether a view of a descriptor is the same whenever it can be reused.
-/

namespace Injection

/-! ## Bytes of texts -/

/-- A byte of the ASCII range stands for its character only. -/
theorem mem_utf8EncodeChar_iff {c : Char} {n : Nat} (hn : n < 128) :
    UInt8.ofNat n ∈ String.utf8EncodeChar c ↔ c.toNat = n := by
  have hc : c.val.toNat = c.toNat := rfl
  have hbyte : (UInt8.ofNat n).toNat = n := by simp; omega
  simp only [String.utf8EncodeChar, hc]
  split_ifs with h1 h2 h3 <;>
    simp only [List.mem_cons, List.not_mem_nil, or_false, ← UInt8.toNat_inj, hbyte,
      UInt8.toNat_ofNat'] <;>
    omega

theorem mem_utf8_iff {text : String} {n : Nat} (hn : n < 128) :
    UInt8.ofNat n ∈ utf8 text ↔ Char.ofNat n ∈ text.toList := by
  have hvalid : n.isValidChar := .inl (by omega)
  rw [utf8_eq, List.mem_flatMap]
  simp only [mem_utf8EncodeChar_iff hn]
  constructor
  · rintro ⟨c, hc, rfl⟩
    rwa [Char.ofNat_toNat]
  · intro hc
    exact ⟨_, hc, by rw [Char.toNat_ofNat, if_pos hvalid]⟩

/-! ## Digests -/

namespace Blake3

theorem hexByte_inj {a b : UInt8} (h : hexByte a = hexByte b) : a = b := by
  have hdigit : ∀ i < 16, ∀ j < 16, Nat.digitChar i = Nat.digitChar j → i = j := by decide
  simp only [hexByte, List.cons.injEq, and_true] at h
  have ha := a.toNat_lt
  have hb := b.toNat_lt
  have hhigh := hdigit _ (by omega) _ (by omega) h.1
  have hlow := hdigit _ (by omega) _ (by omega) h.2
  rw [← UInt8.toNat_inj]
  omega

/-- Digests that are written alike are the same. -/
theorem digest_eq_of_hex_eq {a b : List UInt8} (h : hex a = hex b) : digest a = digest b := by
  have hbytes : ∀ xs ys : List UInt8, xs.flatMap hexByte = ys.flatMap hexByte → xs = ys := by
    intro xs
    induction xs with
    | nil => intro ys h; cases ys <;> simp_all [hexByte]
    | cons x xs ih =>
      intro ys h
      cases ys with
      | nil => simp [hexByte] at h
      | cons y ys =>
        rw [List.flatMap_cons, List.flatMap_cons] at h
        obtain ⟨hfirst, hrest⟩ := List.append_inj h rfl
        rw [hexByte_inj hfirst, ih ys hrest]
  exact hbytes _ _ (String.ofList_inj.mp h)

/-- Whether two inputs are different and have the same digest. -/
def Collision (a b : List UInt8) : Prop := a ≠ b ∧ digest a = digest b

end Blake3

namespace Graph

/-- Fingerprints tell apart what the hash function tells apart. -/
theorem fingerprint_eq_iff {g g' : Graph}
    (hno : ¬ Blake3.Collision g.hashedBytes g'.hashedBytes) :
    g.fingerprint = g'.fingerprint ↔ g.hashedBytes = g'.hashedBytes := by
  constructor
  · intro h
    by_contra hne
    have hhex : Blake3.hex g.hashedBytes = Blake3.hex g'.hashedBytes := by
      simpa [fingerprint, ← String.toList_inj] using h
    exact hno ⟨hne, Blake3.digest_eq_of_hex_eq hhex⟩
  · intro h
    rw [fingerprint, fingerprint, h]

end Graph

/-! ## Bytes of edges -/

namespace Wire

/-- No text of the edge holds a byte that ends it: its ends hold no zero, and its label, which is
ended by the flag, holds neither a zero nor a one. -/
structure Legible (wire : Wire) : Prop where
  source : '\x00' ∉ wire.source.rendered.toList
  target : '\x00' ∉ wire.target.rendered.toList
  label_zero : '\x00' ∉ wire.label.toList
  label_one : '\x01' ∉ wire.label.toList

instance (wire : Wire) : Decidable wire.Legible :=
  decidable_of_iff ('\x00' ∉ wire.source.rendered.toList ∧ '\x00' ∉ wire.target.rendered.toList ∧
      '\x00' ∉ wire.label.toList ∧ '\x01' ∉ wire.label.toList)
    ⟨fun ⟨hsource, htarget, hzero, hone⟩ => ⟨hsource, htarget, hzero, hone⟩,
      fun h => ⟨h.source, h.target, h.label_zero, h.label_one⟩⟩

theorem flag_inj {a b : Bool} (h : (if a then 1 else 0 : UInt8) = if b then 1 else 0) : a = b := by
  revert a b
  decide

/-- The bytes of legible edges in a row determine the edges. -/
theorem links_eq_of_hashedBytes_eq {wires wires' : List Wire}
    (hlegible : ∀ wire ∈ wires, wire.Legible) (hlegible' : ∀ wire ∈ wires', wire.Legible)
    (h : wires.flatMap hashedBytes = wires'.flatMap hashedBytes) :
    wires.map link = wires'.map link := by
  have hzero : ∀ {text : String}, '\x00' ∉ text.toList → (0 : UInt8) ∉ utf8 text := fun hc =>
    (mem_utf8_iff (n := 0) (by decide)).not.mpr hc
  have hone : ∀ {text : String}, '\x01' ∉ text.toList → (1 : UInt8) ∉ utf8 text := fun hc =>
    (mem_utf8_iff (n := 1) (by decide)).not.mpr hc
  have hflag : ∀ {wire : Wire}, wire.Legible → ∀ byte ∈ utf8 wire.label, ¬ (byte = 0 ∨ byte = 1) := by
    rintro wire hwire byte hbyte (rfl | rfl)
    · exact hzero hwire.label_zero hbyte
    · exact hone hwire.label_one hbyte
  have hmark : ∀ b : Bool, (if b then 1 else 0 : UInt8) = 0 ∨ (if b then 1 else 0 : UInt8) = 1 := by
    decide
  induction wires generalizing wires' with
  | nil =>
    cases wires' with
    | nil => rfl
    | cons wire' _ => simp [hashedBytes] at h
  | cons wire rest ih =>
    cases wires' with
    | nil => simp [hashedBytes] at h
    | cons wire' rest' =>
      obtain ⟨hwire, hrest⟩ := List.forall_mem_cons.mp hlegible
      obtain ⟨hwire', hrest'⟩ := List.forall_mem_cons.mp hlegible'
      simp only [List.flatMap_cons, hashedBytes, List.append_assoc, List.cons_append,
        List.nil_append] at h
      -- each text is cut off at the first byte that can end it
      obtain ⟨hsource, h⟩ := eq_of_append_cons_self_eq (hzero hwire.source) (hzero hwire'.source) h
      obtain ⟨htarget, h⟩ := eq_of_append_cons_self_eq (hzero hwire.target) (hzero hwire'.target) h
      obtain ⟨hlabel, hnested, h⟩ := eq_of_append_cons_eq (p := fun byte => byte = 0 ∨ byte = 1)
        (hflag hwire) (hflag hwire') (hmark _) (hmark _) h
      rw [List.map_cons, List.map_cons, ih hrest hrest' h, link, link, utf8_inj.mp hsource,
        utf8_inj.mp htarget, utf8_inj.mp hlabel, flag_inj hnested]

/-- Which bytes an edge has depends on how it is written only. -/
theorem flatMap_hashedBytes_eq (wires : List Wire) :
    wires.flatMap hashedBytes = (wires.map link).flatMap fun link =>
      utf8 link.source ++ 0 :: utf8 link.target ++ 0 :: utf8 link.label ++
        [if link.nested then 1 else 0] := by
  rw [List.flatMap_map]
  rfl

end Wire

/-! ## Descriptors that can be reused -/

variable {m m' : ModuleDecl} {descriptor descriptor' : Descriptor}

theorem canReuse_describe_iff {g g' : Graph} (version version' : UInt32) (order order' : List Nat)
    (hno : ¬ Blake3.Collision g'.hashedBytes g.hashedBytes) :
    (Descriptor.describe version' g' order').canReuse (.describe version g order) = true ↔
      g'.home = g.home ∧ g'.wires.flatMap Wire.hashedBytes = g.wires.flatMap Wire.hashedBytes := by
  rw [Descriptor.canReuse, Bool.and_eq_true, beq_iff_eq, beq_iff_eq]
  refine and_congr_right fun hhome => (Graph.fingerprint_eq_iff hno).trans ?_
  simp only [Descriptor.describe] at hhome
  rw [Graph.hashedBytes, Graph.hashedBytes, hhome, List.append_cancel_left_eq, List.cons.injEq]
  exact and_iff_right rfl

/-- An earlier descriptor can be reused exactly if the modules have the same name and the bytes of
the edges are the same. So it can be reused whenever the edges are written alike, whatever else the
descriptors say; and if no text in the edges holds a byte that ends it, only then. -/
theorem canReuse_iff (h : m.HasDescriptor descriptor) (h' : m'.HasDescriptor descriptor')
    (hno : ¬ Blake3.Collision (Graph.build m').hashedBytes (Graph.build m).hashedBytes) :
    (descriptor'.canReuse descriptor = true ↔ descriptor'.home = descriptor.home ∧
      descriptor'.wires.flatMap Wire.hashedBytes = descriptor.wires.flatMap Wire.hashedBytes) ∧
    (descriptor'.home = descriptor.home →
      descriptor'.wires.map Wire.link = descriptor.wires.map Wire.link →
      descriptor'.canReuse descriptor = true) ∧
    ((∀ wire ∈ descriptor.wires, wire.Legible) → (∀ wire ∈ descriptor'.wires, wire.Legible) →
      descriptor'.canReuse descriptor = true →
      descriptor'.home = descriptor.home ∧
        descriptor'.wires.map Wire.link = descriptor.wires.map Wire.link) := by
  obtain ⟨-, -, order, -, rfl⟩ := hasDescriptor_iff.mp h
  obtain ⟨-, -, order', -, rfl⟩ := hasDescriptor_iff.mp h'
  have hiff := canReuse_describe_iff m.version m'.version order order' hno
  refine ⟨hiff, fun hhome hlinks => hiff.mpr ⟨hhome, ?_⟩, fun hlegible hlegible' hreuse => ?_⟩
  · rw [Wire.flatMap_hashedBytes_eq, Wire.flatMap_hashedBytes_eq]
    exact congrArg _ hlinks
  · obtain ⟨hhome, hwires⟩ := hiff.mp hreuse
    exact ⟨hhome, Wire.links_eq_of_hashedBytes_eq hlegible' hlegible hwires⟩

/-- A later version of `navigating`, with one more bean and with sockets that nothing depends on. -/
def navigatingExtended : ModuleDecl where
  name := "m"
  version := 2
  beans := [
    { name := ⟨"m", "b"⟩, dependencies := [⟨⟨"m", "t"⟩, "x", .nested ["x"]⟩] },
    { name := ⟨"m", "t"⟩ },
    { name := ⟨"m", "u"⟩ }]
  sockets := [{ name := ⟨"m", "r"⟩, required := true }, { name := ⟨"m", "o"⟩, required := false }]

theorem hasDescriptor_navigatingExtended :
    navigatingExtended.HasDescriptor
      (.describe 2 (Graph.build navigatingExtended) [1, 2, 3, 4, 5, 0]) :=
  hasDescriptor_of_schedule? (by cbv) (by cbv)

theorem hashedBytes_navigatingExtended :
    (Graph.build navigatingExtended).hashedBytes = (Graph.build navigating).hashedBytes := by
  cbv

theorem canReuse_navigatingExtended :
    (Descriptor.describe 2 (Graph.build navigatingExtended) [1, 2, 3, 4, 5, 0]).canReuse
      (.describe 1 (Graph.build navigating) [1, 2, 0]) = true ∧
    (Graph.build navigatingExtended).wires.map Wire.link =
      (Graph.build navigating).wires.map Wire.link := by
  have hlaw := canReuse_iff hasDescriptor_navigating hasDescriptor_navigatingExtended
    fun hno => hno.1 hashedBytes_navigatingExtended
  have hbytes : (Graph.build navigatingExtended).wires.flatMap Wire.hashedBytes =
      (Graph.build navigating).wires.flatMap Wire.hashedBytes := by cbv
  have hreuse := hlaw.1.mpr ⟨rfl, hbytes⟩
  have hlegible : ∀ wire ∈ (Graph.build navigating).wires, wire.Legible := by decide
  have hlegible' : ∀ wire ∈ (Graph.build navigatingExtended).wires, wire.Legible := by decide
  exact ⟨hreuse, (hlaw.2.2 hlegible hlegible' hreuse).2⟩

/-- Two dependencies of a bean. -/
def listing : ModuleDecl where
  name := "m"
  beans := [
    { name := ⟨"m", "b"⟩,
      dependencies := [⟨⟨"m", "t"⟩, "x", .direct⟩, ⟨⟨"m", "u"⟩, "y", .direct⟩] },
    { name := ⟨"m", "t"⟩ },
    { name := ⟨"m", "u"⟩ }]

/-- One dependency of a bean, with a label whose bytes continue like those of `listing`. -/
def listingForged : ModuleDecl where
  name := "m"
  beans := [
    { name := ⟨"m", "b"⟩,
      dependencies := [⟨⟨"m", "t"⟩, "x\x00m:b\x00m:u\x00y", .direct⟩] },
    { name := ⟨"m", "t"⟩ },
    { name := ⟨"m", "u"⟩ }]

/-- Whether a view of a descriptor is the same whenever an earlier descriptor can be reused. -/
def Descriptor.Kept {α : Type} (view : Descriptor → α) : Prop :=
  ∀ (m m' : ModuleDecl) (descriptor descriptor' : Descriptor),
    m.HasDescriptor descriptor → m'.HasDescriptor descriptor' →
    ¬ Blake3.Collision (Graph.build m').hashedBytes (Graph.build m).hashedBytes →
    descriptor'.canReuse descriptor = true → view descriptor' = view descriptor

theorem Descriptor.not_kept_of_ne {α : Type} {view : Descriptor → α}
    (h : m.HasDescriptor descriptor) (h' : m'.HasDescriptor descriptor')
    (hhome : (Graph.build m').home = (Graph.build m).home)
    (hbytes : (Graph.build m').hashedBytes = (Graph.build m).hashedBytes)
    (hne : view descriptor' ≠ view descriptor) : ¬ Kept view := by
  intro hkept
  refine hne (hkept m m' _ _ h h' (fun hno => hno.1 hbytes) ?_)
  obtain ⟨-, -, order, -, rfl⟩ := hasDescriptor_iff.mp h
  obtain ⟨-, -, order', -, rfl⟩ := hasDescriptor_iff.mp h'
  simp [canReuse, describe, Graph.fingerprint, hhome, hbytes]

/-- Nothing but the module's name is kept: neither the version, nor which beans there are, nor the
sockets, nor, if a label holds a zero, the edges. -/
theorem not_kept :
    ¬ Descriptor.Kept (·.version) ∧ ¬ Descriptor.Kept (·.beans.map QualifiedName.rendered) ∧
      ¬ Descriptor.Kept (·.requiredSockets.map QualifiedName.rendered) ∧
      ¬ Descriptor.Kept (·.optionalSockets.map QualifiedName.rendered) ∧
      ¬ Descriptor.Kept (·.wires.map Wire.link) := by
  have hextended : ∀ {α : Type} {view : Descriptor → α},
      view (.describe 2 (Graph.build navigatingExtended) [1, 2, 3, 4, 5, 0]) ≠
        view (.describe 1 (Graph.build navigating) [1, 2, 0]) → ¬ Descriptor.Kept view :=
    Descriptor.not_kept_of_ne hasDescriptor_navigating hasDescriptor_navigatingExtended (by cbv)
      hashedBytes_navigatingExtended
  have hlisting : listing.HasDescriptor (.describe 1 (Graph.build listing) [1, 2, 0]) :=
    hasDescriptor_of_schedule? (by cbv) (by cbv)
  have hforged : listingForged.HasDescriptor
      (.describe 1 (Graph.build listingForged) [1, 0, 2]) :=
    hasDescriptor_of_schedule? (by cbv) (by cbv)
  refine ⟨hextended ?_, hextended ?_, hextended ?_, hextended ?_,
    Descriptor.not_kept_of_ne hlisting hforged (by cbv) (by cbv) ?_⟩
  all_goals
    simp only [Descriptor.describe]
    decide

end Injection
