import Injection.Distinct

/-!
# Names

A module has a plain name; what it declares has a qualified name, written
`<module>:<local>`. Names are compared by their written form, so that one text always stands for
one declaration, however the text is cut into its two parts.

## Main definitions

* `QualifiedName.rendered`, `QualifiedName.bytes` — the written form, as text and as UTF-8.
* `QualifiedName.feed` — gives the written form to a hasher.
* `QualifiedName.parse?` — reads the written form, with exactly one separator.
* `QualifiedName.member` — the name of a member reached by navigating a path.
* `QualifiedName.sort`, `QualifiedName.distinct` — lists of names in order and without repetitions.
-/

namespace Injection

/-- The name of a module, such as `io.example.app`. -/
abbrev ModuleName := String

def utf8 (text : String) : List UInt8 := text.toUTF8.data.toList

/-- The order of texts by their UTF-8 bytes. -/
def compareText (a b : String) : Ordering := compare (utf8 a) (utf8 b)

/-- The name of a bean, a socket or a member of one. -/
structure QualifiedName where
  modulePart : ModuleName
  localPart : String
deriving Inhabited

namespace QualifiedName

/-! ## The written form -/

/-- The character between the module and the local name. -/
def separator : Char := ':'

/-- The written form `<module>:<local>`. -/
def rendered (name : QualifiedName) : String :=
  name.modulePart ++ ":" ++ name.localPart

instance : ToString QualifiedName := ⟨rendered⟩

/-- The UTF-8 bytes of the written form. -/
def bytes (name : QualifiedName) : List UInt8 :=
  utf8 name.modulePart ++ 58 :: utf8 name.localPart

/-- The number of characters in the written form. -/
def width (name : QualifiedName) : Nat :=
  name.modulePart.length + 1 + name.localPart.length

/-- Names that are written alike are the same name. -/
instance : BEq QualifiedName := ⟨fun a b => a.rendered == b.rendered⟩

/-- Names are ordered by the bytes of their written form. -/
instance : Ord QualifiedName := ⟨fun a b => compare a.bytes b.bytes⟩

@[simp] theorem beq_iff {a b : QualifiedName} : (a == b) = true ↔ a.rendered = b.rendered := by
  simp [BEq.beq]

@[simp] theorem beq_self (a : QualifiedName) : (a == a) = true := beq_iff.mpr rfl

/-- The width counts the characters of the written form. -/
theorem width_eq_length (name : QualifiedName) : name.width = name.rendered.length := by
  simp [width, rendered, String.length_append]; rfl

/-- The state of a hasher that is given the bytes of the written form, one after the other. -/
def feed {σ : Type} (write : σ → UInt8 → σ) (state : σ) (name : QualifiedName) : σ :=
  name.bytes.foldl write state

/-! ## Reading a name -/

/-- Reads a name with exactly one separator and something on both sides of it. -/
def parse? (text : String) : Option QualifiedName :=
  let chars := text.toList
  let head := chars.takeWhile (· != separator)
  match chars.dropWhile (· != separator) with
  | [] => none
  | _ :: tail =>
    if head.isEmpty || tail.isEmpty || tail.contains separator then none
    else some ⟨String.ofList head, String.ofList tail⟩

/-! ## Members -/

/-- The name of what is reached from `name` by navigating `path`, in the same module. -/
def member (name : QualifiedName) (path : List String) : QualifiedName :=
  { name with localPart := path.foldl (fun done segment => done ++ "." ++ segment) name.localPart }

@[simp] theorem member_nil (name : QualifiedName) : name.member [] = name := rfl

theorem member_append (name : QualifiedName) (p q : List String) :
    name.member (p ++ q) = (name.member p).member q := by
  simp [member, List.foldl_append]

/-! ## Sorting -/

/-- The names in ascending order, equal names in the order given. -/
def sort (names : List QualifiedName) : List QualifiedName :=
  names.mergeSort fun a b => (compare a b).isLE

/-- The names without those that are written like an earlier one. -/
def distinct (names : List QualifiedName) : List QualifiedName :=
  distinctBy rendered names

end QualifiedName

/-- The name that a local name has in a module. -/
def qualify (home : ModuleName) (localPart : String) : QualifiedName := ⟨home, localPart⟩

end Injection
