import Injection.Decoding

/-!
# Compiler options

## Main definitions

* `Options` — the options.
* `Options.decode`, `Options.toValue` — their document form.
-/

namespace Injection

/-- The options of the compiler. -/
structure Options where
  /-- Whether the summary of a module is worth more than a debug message. -/
  verbose : Bool := false
  /-- Whether every edge of a graph is logged. -/
  debug : Bool := false
  /-- Whether a resolved module gets a descriptor. -/
  generateDescriptor : Bool := true
  /-- The version that component modules must have. -/
  supportedVersion : UInt32 := 1
deriving DecidableEq, Inhabited

namespace Options

def toValue (options : Options) : Value :=
  .object [("verbose", .bool options.verbose), ("debug", .bool options.debug),
    ("generate_descriptor", .bool options.generateDescriptor),
    ("supported_version", .ofNat options.supportedVersion.toNat)]

def ofParts (verbose debug generateDescriptor : Option Bool) (supportedVersion : Option UInt32) :
    Options where
  verbose := verbose.getD false
  debug := debug.getD false
  generateDescriptor := generateDescriptor.getD true
  supportedVersion := supportedVersion.getD 1

def ofFields (fields : List (String × Value)) : Decoded Options := do
  let debug ← Decode.field? fields "debug" Decode.bool
  let generateDescriptor ← Decode.field? fields "generate_descriptor" Decode.bool
  let supportedVersion ← Decode.field? fields "supported_version" Decode.uint32
  let verbose ← Decode.field? fields "verbose" Decode.bool
  return ofParts verbose debug generateDescriptor supportedVersion

def ofItems (items : List Value) : Decoded Options := do
  let verbose ← Decode.item? items 0 Decode.bool
  let debug ← Decode.item? items 1 Decode.bool
  let generateDescriptor ← Decode.item? items 2 Decode.bool
  let supportedVersion ← Decode.item? items 3 Decode.uint32
  return ofParts verbose debug generateDescriptor supportedVersion

def decode (format : Format) : Value → Decoded Options :=
  Decode.record format "CompilerConfig" 4 ofFields ofItems

end Options

end Injection
