import Injection.Options
import Injection.Fault
import Injection.Text.Blank
import Injection.Toml.Parser

/-!
# Where options come from

Options are read from a TOML file; without a file they have their defaults. Two of them can be
overridden by flags from the environment, which are words for yes or no.

## Main definitions

* `OptionsFile`, `OptionsError` — what is found of the file, and why it cannot be used.
* `Options.load` — the options of a file.
* `flag?`, `Options.overridden` — flags, and the options with them.
-/

namespace Injection

/-- What is found in the place of the options file. -/
inductive OptionsFile where
  | missing
  /-- Something that is not a file. -/
  | directory
  | bytes (content : ByteArray)

/-- Why an options file cannot be used. -/
inductive OptionsError where
  /-- It cannot be read as text. -/
  | unreadable
  /-- It is no TOML document, or an option has a value of another type. -/
  | malformed
deriving DecidableEq, Inhabited

/-- The wording of an error, for the file at a path. -/
def OptionsError.message (path : String) : OptionsError → String
  | unreadable => s!"Failed to read {path}"
  | malformed =>
    s!"{FaultCode.configParse.identifier} {FaultCode.configParse.summary}: {path}"

namespace Options

/-- The options in a TOML document. -/
def ofToml? (text : String) : Option Options :=
  (Toml.parse? text).bind fun document => (decode .toml document).toOption

/-- The options of a file. -/
def load : OptionsFile → Except OptionsError Options
  | .missing => .ok {}
  | .directory => .error .unreadable
  | .bytes content =>
    match String.fromUTF8? content with
    | none => .error .unreadable
    | some text =>
      match ofToml? text with
      | none => .error .malformed
      | some options => .ok options

end Options

/-! ## Flags -/

/-- What a flag says, if it is a word for yes or no; blanks around it and capitals make no
difference. -/
def flag? (written : String) : Option Bool :=
  let word := Text.lowered (Text.trimmed written)
  if word ∈ ["1", "true", "yes", "on"] then some true
  else if word ∈ ["0", "false", "no", "off"] then some false
  else none

/-- The options with the flags that are given and say something. -/
def Options.overridden (options : Options) (verbose debug : Option String) : Options :=
  { options with
    verbose := (verbose.bind flag?).getD options.verbose
    debug := (debug.bind flag?).getD options.debug }

end Injection
