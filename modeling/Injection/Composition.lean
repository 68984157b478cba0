import Injection.Boundary
import Injection.Resolution

/-!
# Composition

A root module is composed with the components that it imports. Each component is resolved on its
own; the root is resolved with the beans of fitting components as placeholders, and then checked
for cycles that run through a component. A module that fails does not stop the others.

## Main definitions

* `Outcome`, `Report` — what became of each module, the root being last.
* `plug` — the component that an import brings in, if it fits.
* `compose` — composes a root module.
* `Report.summary` — the report as a document.
-/

namespace Injection

/-! ## Reports -/

/-- What became of a module of a composition. -/
structure Outcome where
  home : ModuleName
  result : Except CompositionFault Resolved

namespace Outcome

/-- Whether the module was resolved. -/
def isOk (outcome : Outcome) : Bool := outcome.result.isOk

/-- Why the module was not resolved. -/
def error? (outcome : Outcome) : Option CompositionFault :=
  match outcome.result with
  | .ok _ => none
  | .error error => some error

end Outcome

/-- What became of the modules of a composition: of the components in the order of their imports,
then of the root. -/
structure Report where
  outcomes : List Outcome

namespace Report

variable (report : Report)

/-- What became of the root. -/
def root? : Option Outcome := report.outcomes.getLast?

def outcome? (home : ModuleName) : Option Outcome := report.outcomes.find? (·.home == home)

/-- The module with a name, if it was resolved. -/
def resolved? (home : ModuleName) : Option Resolved :=
  (report.outcome? home).bind (·.result.toOption)

def allOk : Bool := report.outcomes.all Outcome.isOk

/-- The modules that were not resolved, and why. -/
def faults : List (ModuleName × CompositionFault) :=
  report.outcomes.filterMap fun outcome => outcome.error?.map (outcome.home, ·)

/-- The messages at declarations, of all modules that were not resolved. -/
def diagnostics : List Diagnostic := report.faults.flatMap (·.2.diagnostics)

def summaryEntry (outcome : Outcome) : Value :=
  match outcome.result with
  | .ok resolved =>
    .object [("module", .text outcome.home), ("ok", .bool true),
      ("beans", .ofNat resolved.instantiation.length)]
  | .error error =>
    .object [("module", .text outcome.home), ("ok", .bool false), ("beans", .ofNat 0),
      ("code", .text error.code.identifier), ("message", .text error.message)]

def summary : Value :=
  .object [("success", .bool report.allOk),
    ("modules", .list (report.outcomes.map summaryEntry))]

/-- The text of the summary, one item a line. -/
def summaryText : String := Json.pretty report.summary

end Report

/-! ## Composing -/

/-- The component that an import brings in: the first available module of its name, if it fits. -/
def plug (options : Options) (root : ModuleDecl) (available : List ModuleDecl) (imported : Import) :
    Except CompositionFault Plugged :=
  match available.find? (·.name == imported.component) with
  | none => .error (.missingComponent root.name imported.component)
  | some component => do
    checkFit root imported component options.supportedVersion
    return ⟨imported, component⟩

/-- The components that are plugged into a root. -/
def pluggedIn (options : Options) (root : ModuleDecl) (available : List ModuleDecl) :
    List Plugged :=
  root.selection.filterMap fun imported => (plug options root available imported).toOption

/-- What becomes of the component of an import. -/
def importOutcome (options : Options) (root : ModuleDecl) (available : List ModuleDecl)
    (imported : Import) : Outcome where
  home := imported.component
  result := do
    let plugged ← plug options root available imported
    (resolve options plugged.component).mapError .resolve

/-- The root with placeholders for the beans of the components that are plugged into it. -/
def prepared (root : ModuleDecl) (components : List Plugged) : ModuleDecl :=
  withPlaceholders root (components.map (·.component))

/-- What becomes of the root when some components are plugged into it. -/
def rootOutcome (options : Options) (root : ModuleDecl) (components : List Plugged) : Outcome where
  home := root.name
  result := Except.mapError .resolve do
    let resolved ← resolve options (prepared root components)
    checkCrossing root components
    return resolved

/-- Composes a root module with those of the available modules that it imports. -/
def compose (options : Options) (root : ModuleDecl) (available : List ModuleDecl) : Report where
  outcomes :=
    root.selection.map (importOutcome options root available) ++
      [rootOutcome options root (pluggedIn options root available)]

end Injection
