import Injection.Import
import Injection.Proofs.KeyMap

/-!
# Components that fit

A component fits its importer if it has the supported version, each binding names one of its sockets
and something that the importer declares, and each required socket is bound. Bindings are filed by
local names. A binding names the socket that has its key as local name in the component; but a
socket may bear the name of another module, and then it is bound together with the one that has the
same local name in the component.

## Main definitions

* `Fits` — whether a component can be plugged into its importer.
* `Import.Names` — whether a binding names a socket.
-/

namespace Injection

variable {importer component : ModuleDecl} {imported : Import} {supported : UInt32}
  {key : String} {name provider : QualifiedName} {socket : Socket}

/-- Whether a component can be plugged into its importer as an import says. -/
structure Fits (importer : ModuleDecl) (imported : Import) (component : ModuleDecl)
    (supported : UInt32) : Prop where
  version : component.version = supported
  /-- The key of a binding is the local name, in the component, of one of its sockets. -/
  known : ∀ key provider, imported.bindings.get? key = some provider →
    ∃ socket ∈ component.sockets, socket.name.rendered = (qualify component.name key).rendered
  supplied : ∀ key provider, imported.bindings.get? key = some provider →
    importer.declares provider = true
  /-- The local name of a required socket is the key of a binding. -/
  bound : ∀ socket ∈ component.sockets, socket.required = true →
    socket.name.localPart ∈ imported.bindings.keys

theorem ModuleDecl.isSome_socket?_iff {m : ModuleDecl} : (m.socket? name).isSome = true ↔
    ∃ socket ∈ m.sockets, socket.name.rendered = name.rendered := by
  simp [socket?]

theorem bindingFault?_eq_none_iff : bindingFault? importer component key provider = none ↔
    (∃ socket ∈ component.sockets,
      socket.name.rendered = (qualify component.name key).rendered) ∧
      importer.declares provider = true := by
  rw [bindingFault?, ← ModuleDecl.isSome_socket?_iff]
  cases component.socket? (qualify component.name key) <;>
    cases importer.declares provider <;> simp

theorem unboundSocket?_eq_none_iff : unboundSocket? imported component = none ↔
    ∀ socket ∈ component.sockets, socket.required = true →
      socket.name.localPart ∈ imported.bindings.keys := by
  simp [unboundSocket?, ← KeyMap.contains_iff]

/-- No binding has a fault exactly if each names a socket and something that is declared. -/
theorem findSome?_bindingFault?_eq_none_iff :
    (imported.bindings.entries.findSome? fun entry =>
      bindingFault? importer component entry.1 entry.2) = none ↔
      ∀ key provider, imported.bindings.get? key = some provider →
        (∃ socket ∈ component.sockets,
          socket.name.rendered = (qualify component.name key).rendered) ∧
          importer.declares provider = true := by
  simp only [List.findSome?_eq_none_iff, Prod.forall, bindingFault?_eq_none_iff,
    KeyMap.mem_entries_iff]

/-- The check finds no fault exactly if the component fits: one condition for each kind of fault. -/
theorem checkFit_eq_ok_iff : checkFit importer imported component supported = .ok () ↔
    Fits importer imported component supported := by
  rw [checkFit]
  split
  · next hversion =>
    refine iff_of_false (by simp) fun h => ?_
    simp [h.version] at hversion
  · next hversion =>
    have hversion : component.version = supported := by simpa using hversion
    split
    · next fault hfault =>
      refine iff_of_false (by simp) fun h => ?_
      have hnone := findSome?_bindingFault?_eq_none_iff.mpr fun key provider hget =>
        ⟨h.known key provider hget, h.supplied key provider hget⟩
      cases hnone.symm.trans hfault
    · next hnone =>
      have hbinding := findSome?_bindingFault?_eq_none_iff.mp hnone
      split
      · next socket hsocket =>
        refine iff_of_false (by simp) fun h => ?_
        rw [unboundSocket?_eq_none_iff.mpr h.bound] at hsocket
        cases hsocket
      · next hbound =>
        exact iff_of_true rfl ⟨hversion, fun key provider hget => (hbinding key provider hget).1,
          fun key provider hget => (hbinding key provider hget).2,
          unboundSocket?_eq_none_iff.mp hbound⟩

/-! ## Sockets of other modules -/

/-- Whether the key of a binding, as a local name in the component, gives the name of a socket. -/
def Import.Names (imported : Import) (component : ModuleDecl) (socket : Socket) : Prop :=
  ∃ key ∈ imported.bindings.keys, (qualify component.name key).rendered = socket.name.rendered

/-- A socket that is named in its component is named by a binding exactly if its local name is the
key of one. -/
theorem Import.names_iff (hmodule : socket.name.modulePart = component.name) :
    imported.Names component socket ↔ socket.name.localPart ∈ imported.bindings.keys := by
  have hrendered : ∀ key, (qualify component.name key).rendered = socket.name.rendered ↔
      key = socket.name.localPart := by
    intro key
    simp [qualify, QualifiedName.rendered, hmodule]
  simp [Names, hrendered]

/-- A required socket is bound along with the socket that has its local name in the component. -/
theorem Fits.exists_socket (h : Fits importer imported component supported)
    (hsocket : socket ∈ component.sockets) (hrequired : socket.required = true) :
    ∃ own ∈ component.sockets,
      own.name.rendered = (qualify component.name socket.name.localPart).rendered := by
  have hkey := KeyMap.contains_iff.mpr (h.bound socket hsocket hrequired)
  obtain ⟨provider, hget⟩ := Option.isSome_iff_exists.mp hkey
  exact h.known _ provider hget

/-- A component is accepted exactly if it has the supported version, each binding names one of its
sockets and is bound to what the importer declares, and the local name of each required socket is
the key of a binding. For a socket that is named in the component this is to say that a binding
names it, so that nothing else is asked for if all required sockets are; a required socket that
bears the name of another module is bound along with one that is named in the component. -/
theorem checkFit_exact (importer : ModuleDecl) (imported : Import) (component : ModuleDecl)
    (supported : UInt32) :
    (checkFit importer imported component supported = .ok () ↔
      Fits importer imported component supported) ∧
    (∀ socket ∈ component.sockets, socket.name.modulePart = component.name →
      (imported.Names component socket ↔ socket.name.localPart ∈ imported.bindings.keys)) ∧
    (checkFit importer imported component supported = .ok () → ∀ socket ∈ component.sockets,
      socket.required = true → ∃ own ∈ component.sockets,
        own.name.rendered = (qualify component.name socket.name.localPart).rendered) := by
  refine ⟨checkFit_eq_ok_iff, fun socket _ hmodule => Import.names_iff hmodule, ?_⟩
  intro hok socket hsocket hrequired
  exact (checkFit_eq_ok_iff.mp hok).exists_socket hsocket hrequired

/-- A root with something to plug in. -/
def supplier : ModuleDecl where
  name := "app"
  beans := [{ name := ⟨"app", "p"⟩ }]

/-- A component with a required socket that bears the name of another module. -/
def borrowing : ModuleDecl where
  name := "c"
  sockets := [{ name := ⟨"c", "s"⟩, required := false }, { name := ⟨"x", "s"⟩ }]

def borrowingImport : Import where
  component := "c"
  bindings := .ofList [("s", ⟨"app", "p"⟩)]

/-- The binding names the first socket and binds the second one along with it. Without the first
socket, the second one could not be bound. -/
theorem checkFit_exact_borrowing :
    checkFit supplier borrowingImport borrowing 1 = .ok () ∧
    borrowingImport.Names borrowing { name := ⟨"c", "s"⟩, required := false } ∧
    (∃ own ∈ borrowing.sockets, own.name.rendered = "c:s") ∧
    checkFit supplier borrowingImport
      { borrowing with sockets := [{ name := ⟨"x", "s"⟩ }] } 1 ≠ .ok () := by
  obtain ⟨-, hnames, hown⟩ := checkFit_exact supplier borrowingImport borrowing 1
  obtain ⟨-, -, hown'⟩ := checkFit_exact supplier borrowingImport
    { borrowing with sockets := [{ name := ⟨"x", "s"⟩ }] } 1
  have hok : checkFit supplier borrowingImport borrowing 1 = .ok () := rfl
  refine ⟨hok, (hnames _ List.mem_cons_self rfl).mpr (by decide), ?_, fun hok' => ?_⟩
  · exact hown hok { name := ⟨"x", "s"⟩ } (List.mem_cons_of_mem _ List.mem_cons_self) rfl
  · obtain ⟨own, hmem, hname⟩ := hown' hok' { name := ⟨"x", "s"⟩ } List.mem_cons_self rfl
    obtain rfl := List.mem_singleton.mp hmem
    exact absurd hname (by decide)

/-- A component can be accepted although no binding names one of its required sockets. -/
theorem not_each_required_named :
    ¬ ∀ (importer : ModuleDecl) (imported : Import) (component : ModuleDecl) (supported : UInt32),
      checkFit importer imported component supported = .ok () ↔
        component.version = supported ∧
        (∀ key provider, imported.bindings.get? key = some provider →
          (component.socket? (qualify component.name key)).isSome = true ∧
            importer.declares provider = true) ∧
        ∀ socket ∈ component.sockets, socket.required = true →
          imported.Names component socket := by
  intro hall
  have hok : checkFit supplier borrowingImport borrowing 1 = .ok () := rfl
  obtain ⟨-, -, hnamed⟩ := (hall supplier borrowingImport borrowing 1).mp hok
  obtain ⟨key, -, hname⟩ :=
    hnamed { name := ⟨"x", "s"⟩ } (List.mem_cons_of_mem _ List.mem_cons_self) rfl
  have hfirst := congrArg (fun name => name.toList.head?) hname
  simp [qualify, QualifiedName.rendered, borrowing] at hfirst

end Injection
