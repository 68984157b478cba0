import Injection.Declaration.Document
import Injection.Proofs.KeyMap
import Injection.Proofs.Name

/-!
# Names in decoded documents

Every name of a decoded declaration has been read from its written form, and so is plain. A name
that is written to a document is read back if it is plain, and else it is reported.

## Main definitions

* `Decode.Ensures` — what holds of the result of a decoder, if there is one.
* `ModuleDecl.IsPlain` — whether the names of a module's beans and sockets are plain.
* `ModuleDecl.IsWritable` — whether the names that its imports plug in are plain, too.
-/

namespace Injection

/-! ## Results of decoders -/

namespace Decode

variable {α β : Type} {x : Decoded α} {P : α → Prop} {Q : β → Prop}

/-- Whether a result, if there is one, has a property. -/
def Ensures (x : Decoded α) (P : α → Prop) : Prop := ∀ a, x = .ok a → P a

theorem Ensures.pure {a : α} (h : P a) : Ensures (Pure.pure a) P := by
  rintro _ ⟨⟩
  exact h

theorem ensures_throw {e : DecodeError} : Ensures (throw e) P := by
  rintro _ ⟨⟩

theorem Ensures.bind {f : α → Decoded β} (hx : Ensures x P) (hf : ∀ a, P a → Ensures (f a) Q) :
    Ensures (x >>= f) Q := by
  intro b hb
  cases x with
  | error e => cases hb
  | ok a => exact hf a (hx a rfl) b hb

theorem Ensures.bind_any {f : α → Decoded β} (hf : ∀ a, Ensures (f a) Q) : Ensures (x >>= f) Q :=
  Ensures.bind (P := fun _ => True) (fun _ _ => trivial) fun a _ => hf a

theorem Ensures.map {f : α → β} (hx : Ensures x P) (hf : ∀ a, P a → Q (f a)) :
    Ensures (f <$> x) Q := by
  intro b hb
  cases x with
  | error e => cases hb
  | ok a =>
    obtain rfl : f a = b := Except.ok.inj hb
    exact hf a (hx a rfl)

theorem Ensures.mapM {f : β → Decoded α} (hf : ∀ b, Ensures (f b) P) (items : List β) :
    Ensures (items.mapM f) fun found => ∀ a ∈ found, P a := by
  induction items with
  | nil => exact .pure (by simp)
  | cons item items ih =>
    rw [List.mapM_cons]
    refine .bind (hf item) fun a ha => .bind ih fun rest hrest => .pure ?_
    exact List.forall_mem_cons.mpr ⟨ha, hrest⟩

variable {decode : Value → Decoded α} (hdecode : ∀ value, Ensures (decode value) P)

include hdecode

theorem Ensures.option (value : Value) :
    Ensures (some <$> decode value) fun found => ∀ a ∈ found, P a :=
  (hdecode value).map fun a ha => by rintro _ ⟨⟩; exact ha

theorem Ensures.field? (fields : List (String × Value)) (key : String) :
    Ensures (Decode.field? fields key decode) fun found => ∀ a ∈ found, P a := by
  rw [Decode.field?]
  split
  · exact .pure (by simp)
  · exact .option hdecode _

theorem Ensures.item? (items : List Value) (index : Nat) :
    Ensures (Decode.item? items index decode) fun found => ∀ a ∈ found, P a := by
  rw [Decode.item?]
  split
  · exact .pure (by simp)
  · exact .option hdecode _

theorem Ensures.listOf (value : Value) :
    Ensures (Decode.listOf decode value) fun found => ∀ a ∈ found, P a :=
  .bind_any fun items => .mapM hdecode items

theorem Ensures.mapOf (value : Value) :
    Ensures (Decode.mapOf decode value) fun map => ∀ entry ∈ map.entries, P entry.2 := by
  unfold Decode.mapOf
  split
  · next fields =>
    have hpair : ∀ field : String × Value, Ensures (do return (field.1, ← decode field.2))
        fun pair : String × α => P pair.2 := fun field => .bind (hdecode _) fun _ ha => .pure ha
    refine (Ensures.mapM hpair (sorted fields)).map fun pairs hpairs entry hentry => ?_
    exact hpairs entry (KeyMap.mem_of_mem_ofList hentry)
  · exact ensures_throw

omit hdecode

theorem Ensures.required {e : DecodeError} {found : Option α} (h : ∀ a ∈ found, P a) :
    Ensures (Decode.required e found) P := by
  cases found with
  | none => exact ensures_throw
  | some a => exact .pure (h a rfl)

theorem Ensures.record {format : Format} {type : String} {size : Nat}
    {ofFields : List (String × Value) → Decoded α} {ofItems : List Value → Decoded α}
    (hfields : ∀ fields, Ensures (ofFields fields) P) (hitems : ∀ items, Ensures (ofItems items) P)
    (value : Value) : Ensures (Decode.record format type size ofFields ofItems value) P := by
  unfold Decode.record
  split
  · exact hfields _
  · refine .bind (hitems _) fun a ha => ?_
    dsimp only
    split
    · exact .bind_any fun _ => .pure ha
    · exact .pure ha
  · exact ensures_throw

theorem ensures_name (value : Value) : Ensures (name value) QualifiedName.IsPlain := by
  refine .bind_any fun written => ?_
  split
  · next hname => exact .pure (QualifiedName.of_parse?_eq_some hname).1
  · exact ensures_throw

/-- What holds of every item of a list holds of every item if the list may be left out. -/
theorem forall_mem_getD {found : Option (List α)} (h : ∀ list ∈ found, ∀ a ∈ list, P a) :
    ∀ a ∈ found.getD [], P a := by
  cases found with
  | none => simp
  | some list => exact h list rfl

end Decode

/-! ## Values that are written and read -/

namespace Decode

variable {name : QualifiedName}

theorem name_toValue (h : name.IsPlain) : Decode.name name.toValue = .ok name := by
  simp [Decode.name, QualifiedName.toValue, Decode.text, h.parse?_rendered, bind, Except.bind,
    pure, Except.pure]

theorem name_toValue_of_not (h : ¬ name.IsPlain) :
    Decode.name name.toValue = .error (.invalidName name.rendered) := by
  have hnone : QualifiedName.parse? name.rendered = none := by
    rw [Option.eq_none_iff_forall_ne_some]
    intro other hother
    obtain ⟨hplain, hrendered⟩ := QualifiedName.parse?_eq_some_iff.mp hother
    exact h (hplain.of_rendered_eq hrendered.symm)
  simp [Decode.name, QualifiedName.toValue, Decode.text, hnone, bind, Except.bind,
    pure, Except.pure, throw, throwThe, MonadExceptOf.throw]

variable {α : Type} {decode : Value → Decoded α} {toValue : α → Value} {list : List α}

theorem mapM_map_eq_ok {β : Type} {read : β → Decoded α} {write : α → β}
    (h : ∀ a ∈ list, read (write a) = .ok a) : (list.map write).mapM read = .ok list := by
  induction list with
  | nil => rfl
  | cons a rest ih =>
    obtain ⟨ha, hrest⟩ := List.forall_mem_cons.mp h
    rw [List.map_cons, List.mapM_cons, ha, ih hrest]
    rfl

theorem listOf_toValue (h : ∀ a ∈ list, decode (toValue a) = .ok a) :
    listOf decode (.list (list.map toValue)) = .ok list :=
  mapM_map_eq_ok h

/-- If an item is not read the list is not, and what is reported is reported of an item. -/
theorem exists_listOf_toValue_eq_error (h : ∃ a ∈ list, ∃ e, decode (toValue a) = .error e) :
    ∃ a ∈ list, ∃ e, decode (toValue a) = .error e ∧
      listOf decode (.list (list.map toValue)) = .error e := by
  show ∃ a ∈ list, ∃ e, decode (toValue a) = .error e ∧ (list.map toValue).mapM decode = .error e
  induction list with
  | nil => simp at h
  | cons a rest ih =>
    rw [List.map_cons, List.mapM_cons]
    cases ha : decode (toValue a) with
    | error e => exact ⟨a, List.mem_cons_self, e, ha, rfl⟩
    | ok _ =>
      obtain ⟨b, hb, e, he, hmap⟩ := ih (by simpa [ha] using h)
      exact ⟨b, List.mem_cons_of_mem a hb, e, he, by rw [hmap]; rfl⟩

theorem uint32_toValue (n : UInt32) : uint32 (.ofNat n.toNat) = .ok n := by
  have hn := n.toNat_lt
  simp [uint32, Value.ofNat, pure, Except.pure, hn, UInt32.size]

end Decode

/-! ## Declarations -/

open Decode

def Dependency.IsPlain (dependency : Dependency) : Prop := dependency.target.IsPlain

/-- Whether a bean's name is plain and those of its dependencies are. -/
structure Bean.IsPlain (bean : Bean) : Prop where
  name : bean.name.IsPlain
  dependencies : ∀ dependency ∈ bean.dependencies, dependency.IsPlain

def Socket.IsPlain (socket : Socket) : Prop := socket.name.IsPlain

/-- Whether the names that an import plugs in are plain. -/
def Import.IsPlain (imported : Import) : Prop :=
  ∀ entry ∈ imported.bindings.entries, entry.2.IsPlain

/-- Whether the names of a module's beans and sockets are plain. -/
structure ModuleDecl.IsPlain (m : ModuleDecl) : Prop where
  beans : ∀ bean ∈ m.beans, bean.IsPlain
  sockets : ∀ socket ∈ m.sockets, socket.IsPlain

/-- Whether all names of a module are plain, those that its imports plug in included. -/
structure ModuleDecl.IsWritable (m : ModuleDecl) : Prop extends m.IsPlain where
  imports : ∀ imported ∈ m.imports, imported.IsPlain

theorem Dependency.ensures_decode (format : Format) (value : Value) :
    Ensures (decode format value) Dependency.IsPlain := by
  have hparts : ∀ gap target label kind, (∀ name ∈ target, name.IsPlain) →
      Ensures (ofParts gap target label kind) Dependency.IsPlain :=
    fun gap target label kind htarget =>
      .bind (.required htarget) fun target h => .bind_any fun label => .pure h
  refine .record (fun fields => ?_) (fun items => ?_) value
  · exact .bind_any fun kind => .bind_any fun label =>
      .bind (.field? ensures_name fields "target") fun target h => hparts _ _ _ _ h
  · exact .bind (.item? ensures_name items 0) fun target h => .bind_any fun label =>
      .bind_any fun kind => hparts _ _ _ _ h

theorem Bean.ensures_decode (format : Format) (value : Value) :
    Ensures (decode format value) Bean.IsPlain := by
  have hparts : ∀ gap name strategy isWrapper dependencies init destroy,
      (∀ n ∈ name, n.IsPlain) → (∀ list ∈ dependencies, ∀ d ∈ list, d.IsPlain) →
      Ensures (ofParts gap name strategy isWrapper dependencies init destroy) Bean.IsPlain := by
    intro gap name strategy isWrapper dependencies init destroy hname hdependencies
    exact .bind (.required hname) fun n hn => .pure ⟨hn, forall_mem_getD hdependencies⟩
  have hlist := Ensures.listOf (Dependency.ensures_decode format)
  refine .record (fun fields => ?_) (fun items => ?_) value
  · exact .bind (.field? hlist fields "dependencies") fun dependencies hd => .bind_any fun destroy =>
      .bind_any fun init => .bind_any fun isWrapper =>
      .bind (.field? ensures_name fields "name") fun name hn => .bind_any fun strategy =>
      hparts _ _ _ _ _ _ _ hn hd
  · exact .bind (.item? ensures_name items 0) fun name hn => .bind_any fun strategy =>
      .bind_any fun isWrapper => .bind (.item? hlist items 3) fun dependencies hd =>
      .bind_any fun init => .bind_any fun destroy => hparts _ _ _ _ _ _ _ hn hd

theorem Socket.ensures_decode (format : Format) (value : Value) :
    Ensures (decode format value) Socket.IsPlain := by
  have hparts : ∀ gap name required, (∀ n ∈ name, n.IsPlain) →
      Ensures (ofParts gap name required) Socket.IsPlain :=
    fun gap name required hname => .bind (.required hname) fun n hn => .pure hn
  refine .record (fun fields => ?_) (fun items => ?_) value
  · exact .bind (.field? ensures_name fields "name") fun name hn => .bind_any fun required =>
      hparts _ _ _ hn
  · exact .bind (.item? ensures_name items 0) fun name hn => .bind_any fun required =>
      hparts _ _ _ hn

theorem Import.ensures_decode (format : Format) (value : Value) :
    Ensures (decode format value) Import.IsPlain := by
  have hparts : ∀ gap component bindings,
      (∀ map ∈ bindings, ∀ entry ∈ map.entries, entry.2.IsPlain) →
      Ensures (ofParts gap component bindings) Import.IsPlain := by
    intro gap component bindings hbindings
    refine .bind_any fun name => .pure ?_
    cases bindings with
    | none => exact fun entry hentry => absurd hentry List.not_mem_nil
    | some map => exact hbindings map rfl
  have hmap := Ensures.mapOf ensures_name
  refine .record (fun fields => ?_) (fun items => ?_) value
  · exact .bind (.field? hmap fields "bindings") fun bindings hb => .bind_any fun component =>
      hparts _ _ _ hb
  · exact .bind_any fun component => .bind (.item? hmap items 1) fun bindings hb =>
      hparts _ _ _ hb

/-- All names of a decoded module are plain. -/
theorem ModuleDecl.ensures_isWritable (format : Format) (value : Value) :
    Ensures (decode format value) IsWritable := by
  have hparts : ∀ gap name version beans sockets imports includes excludes,
      (∀ list ∈ beans, ∀ bean ∈ list, bean.IsPlain) →
      (∀ list ∈ sockets, ∀ socket ∈ list, socket.IsPlain) →
      (∀ list ∈ imports, ∀ imported ∈ list, imported.IsPlain) →
      Ensures (ofParts gap name version beans sockets imports includes excludes) IsWritable := by
    intro gap name version beans sockets imports includes excludes hbeans hsockets himports
    exact .bind_any fun n => .pure
      ⟨⟨forall_mem_getD hbeans, forall_mem_getD hsockets⟩, forall_mem_getD himports⟩
  have hbeans := Ensures.listOf (Bean.ensures_decode format)
  have hsockets := Ensures.listOf (Socket.ensures_decode format)
  have himports := Ensures.listOf (Import.ensures_decode format)
  refine .record (fun fields => ?_) (fun items => ?_) value
  · exact .bind (.field? hbeans fields "beans") fun beans hb => .bind_any fun excludes =>
      .bind (.field? himports fields "imports") fun imports hi => .bind_any fun includes =>
      .bind_any fun name => .bind (.field? hsockets fields "sockets") fun sockets hs =>
      .bind_any fun version => hparts _ _ _ _ _ _ _ _ hb hs hi
  · exact .bind_any fun name => .bind_any fun version =>
      .bind (.item? hbeans items 2) fun beans hb =>
      .bind (.item? hsockets items 3) fun sockets hs =>
      .bind (.item? himports items 4) fun imports hi => .bind_any fun includes =>
      .bind_any fun excludes => hparts _ _ _ _ _ _ _ _ hb hs hi

theorem ModuleDecl.ensures_decode (format : Format) (value : Value) :
    Ensures (decode format value) ModuleDecl.IsPlain :=
  fun m h => (ensures_isWritable format value m h).toIsPlain

end Injection
