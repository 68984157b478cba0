import Injection.Proofs.Boundary
import Injection.Proofs.KeyMap

/-!
# Providers behind a bean

What is plugged into the sockets that a bean of a component reaches. The component need not be
valid: it may have cycles, targets that it does not declare, and declarations of equal names. Of
the beans of one name the first counts, and of the sockets each.

## Main definitions

* `ModuleDecl.Reaches` — whether a bean leads to a name by its dependencies.
* `ModuleDecl.Turn` — one turn of the loop that looks for what a bean reaches.
* `boundSockets` — the sockets that a bean reaches and an import binds.
-/

namespace Injection

open Relation Reach

/-! ## Reached names -/

namespace ModuleDecl

variable {m : ModuleDecl} {name : QualifiedName} {written : String} {finish : Worklist String}

/-- Whether a bean leads to a name by its dependencies, in any number of steps or in none. -/
def Reaches (m : ModuleDecl) (name : QualifiedName) (written : String) : Prop :=
  ReflTransGen m.DependsOn name.rendered written

instance (m : ModuleDecl) (name : QualifiedName) (written : String) :
    Decidable (m.Reaches name written) :=
  decidable_of_iff _ mem_reachedFrom_iff

/-- One turn of the loop that looks for what a bean reaches: only names of beans lead on. -/
abbrev Turn (m : ModuleDecl) : Worklist String → Worklist String → Prop :=
  Reach.Turn m.targetsOf (m.beans.map (·.name.rendered))

/-- A loop that cannot go on has seen what the bean reaches, whatever names it took first. -/
theorem mem_seen_iff_reaches (h : ReflTransGen m.Turn ⟨[], [name.rendered]⟩ finish)
    (hstuck : ¬ ∃ after, m.Turn finish after) : written ∈ finish.seen ↔ m.Reaches name written := by
  have hexplores := explores_of_turns h Worklist.explores_start
  have hdone : finish.todo = [] := by
    by_contra hmore
    exact hstuck (exists_turn_iff.mpr hmore)
  rw [hexplores.mem_seen_iff hdone, m.leads_targetsOf]
  simp [Reaches]

end ModuleDecl

/-! ## Bound sockets -/

/-- The sockets that a bean reaches and whose local names are keys of bindings. -/
def boundSockets (imported : Import) (component : ModuleDecl) (name : QualifiedName) :
    List Socket :=
  component.sockets.filter fun socket =>
    decide (component.Reaches name socket.name.rendered ∧
      socket.name.localPart ∈ imported.bindings.keys)

/-- What a list is mapped to is paired, in order, with what has an image. -/
theorem forall₂_filterMap {α β : Type} (f : α → Option β) (list : List α) :
    List.Forall₂ (fun a b => f a = some b) (list.filter fun a => (f a).isSome)
      (list.filterMap f) := by
  induction list with
  | nil => exact .nil
  | cons a rest ih =>
    cases hf : f a with
    | none => simpa [hf] using ih
    | some b => simpa [hf] using ih

theorem forall₂_providersBehind (imported : Import) (component : ModuleDecl)
    (name : QualifiedName) :
    List.Forall₂
      (fun socket pair => pair.1 = socket.name.localPart ∧
        imported.bindings.get? socket.name.localPart = some pair.2)
      (boundSockets imported component name) (providersBehind imported component name) := by
  let pairOf (socket : Socket) : Option (String × QualifiedName) :=
    (imported.bindings.get? socket.name.localPart).map (socket.name.localPart, ·)
  have hsockets : boundSockets imported component name =
      (component.sockets.filter fun socket =>
        socket.name.rendered ∈ component.reachedFrom name).filter fun socket =>
          (pairOf socket).isSome := by
    rw [boundSockets, List.filter_filter]
    refine List.filter_congr fun socket _ => ?_
    have hbound : (pairOf socket).isSome = true ↔
        socket.name.localPart ∈ imported.bindings.keys := by
      simp [pairOf, ← KeyMap.contains_iff, KeyMap.contains]
    have hreached : socket.name.rendered ∈ component.reachedFrom name ↔
        component.Reaches name socket.name.rendered := ModuleDecl.mem_reachedFrom_iff
    grind
  rw [hsockets]
  refine (forall₂_filterMap pairOf _).imp fun socket pair hpair => ?_
  obtain ⟨provider, hget, rfl⟩ := Option.map_eq_some_iff.mp hpair
  exact ⟨rfl, hget⟩

/-- What the search for the providers behind a bean comes to, for any component. A loop that looks
for the names that the bean reaches comes to an end, in whatever order it takes them, and has seen
exactly these names then; `reachedFrom` takes the first target first. There is one pair for each
socket that the bean reaches and whose local name is the key of a binding, in the order of the
sockets: of the key, and what is bound to it. -/
theorem providersBehind_exact (imported : Import) (component : ModuleDecl)
    (name : QualifiedName) :
    let start : Worklist String := ⟨[], [name.rendered]⟩
    (∀ later, List.IsChain component.Turn (start :: later) →
      later.length ≤ 1 + ∑ written ∈ (component.beans.map (·.name.rendered)).toFinset,
        (component.targetsOf written).length) ∧
    (∀ finish, ReflTransGen component.Turn start finish →
      (¬ ∃ after, component.Turn finish after) →
        ∀ written, written ∈ finish.seen ↔ component.Reaches name written) ∧
    ReflTransGen component.Turn start ⟨component.reachedFrom name, []⟩ ∧
    List.Forall₂
      (fun socket pair => pair.1 = socket.name.localPart ∧
        imported.bindings.get? socket.name.localPart = some pair.2)
      (boundSockets imported component name) (providersBehind imported component name) := by
  intro start
  refine ⟨fun later hrun => ?_, fun finish hrun hstuck written =>
    ModuleDecl.mem_seen_iff_reaches hrun hstuck, turns_visit _ _, ?_⟩
  · simpa [start, Worklist.budget] using length_le_budget hrun
  · exact forall₂_providersBehind imported component name

/-- A component with a cycle, a target that it does not declare, and repeated names: the second bean
of a name does not count, while both sockets of a name do. -/
def entangled : ModuleDecl where
  name := "c"
  beans := [
    { name := ⟨"c", "a"⟩
      dependencies := [⟨⟨"c", "b"⟩, "b", .nested ["x"]⟩, ⟨⟨"c", "lost"⟩, "lost", .direct⟩] },
    { name := ⟨"c", "b"⟩
      dependencies := [⟨⟨"c", "a"⟩, "a", .direct⟩, ⟨⟨"c", "s"⟩, "s", .nested ["y"]⟩] },
    { name := ⟨"c", "b"⟩, dependencies := [⟨⟨"c", "t"⟩, "t", .direct⟩] }]
  sockets := [{ name := ⟨"c", "t"⟩ }, { name := ⟨"c", "s"⟩ }, { name := ⟨"c", "s"⟩ }]

def entangledImport : Import where
  component := "c"
  bindings := .ofList [("s", ⟨"app", "p"⟩), ("t", ⟨"app", "q"⟩)]

example : providersBehind entangledImport entangled ⟨"c", "a"⟩ =
    [("s", ⟨"app", "p"⟩), ("s", ⟨"app", "p"⟩)] := by cbv

end Injection
