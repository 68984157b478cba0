/-!
# Rotations of cycle keys

A cycle has no first node of its own: it can be written down from any of its nodes on. Its key,
the list of its nodes with the labels of the edges that leave them, is made unique by turning the
lowest node to the front.

## Main definitions

* `CycleKey.pivot` — where the lowest node stands.
* `CycleKey.canonical` — the key with that node at the front.
-/

namespace Injection

/-- The nodes of a cycle, each with the label of the edge that leaves it. -/
abbrev CycleKey := List (Nat × String)

namespace CycleKey

/-- The place of the first entry whose node is not above any other. -/
def pivot (key : CycleKey) : Nat := key.findIdx fun entry => key.all (entry.1 ≤ ·.1)

/-- The key that starts at the given place. -/
def turn (key : CycleKey) (place : Nat) : CycleKey := key.drop place ++ key.take place

/-- The key that starts at its lowest node. -/
def canonical (key : CycleKey) : CycleKey := key.turn key.pivot

end CycleKey

end Injection
