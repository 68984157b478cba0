import Injection.Blake3
import Injection.Graph

/-!
# Fingerprints of graphs

A digest of the module's name and of its edges between names, by which a later run sees whether
the wiring has changed.

## Main definitions

* `Graph.hashedBytes` — the bytes that are hashed.
* `Graph.fingerprint` — the digest of them.
-/

namespace Injection

/-- The bytes of an edge: its ends, each closed by a zero, its label, and a flag. -/
def Wire.hashedBytes (wire : Wire) : List UInt8 :=
  utf8 wire.source.rendered ++ 0 :: utf8 wire.target.rendered ++ 0 :: utf8 wire.label ++
    [if wire.nested then 1 else 0]

namespace Graph

/-- The bytes of a graph: the module's name on a line, and each edge in order. -/
def hashedBytes (g : Graph) : List UInt8 :=
  utf8 g.home ++ 10 :: g.wires.flatMap Wire.hashedBytes

/-- The digest of a graph, with the name of the hash function. -/
def fingerprint (g : Graph) : String := "blake3:" ++ Blake3.hex g.hashedBytes

end Graph

end Injection
