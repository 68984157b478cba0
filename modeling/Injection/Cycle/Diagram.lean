import Injection.Cycle
import Injection.Fault

/-!
# Diagrams of cycles

A cycle is drawn from top to bottom as a closed loop of box-drawing characters. The names stand in
the middle of a column; between a name and the next the right rail carries the text of the edge
and an arrow down; the left rail is the way back, with an arrow up half-way.

## Main definitions

* `Diagram.lines` — the lines of the diagram of a cycle.
* `Cycle.diagram` — the diagram as text.
* `diagnoseCycles` — a message with the diagram at each node that reports a cycle.
-/

namespace Injection

/-- A line of a diagram, cut behind the left rail. -/
structure DiagramLine where
  rail : Char
  body : String
deriving DecidableEq, Inhabited

namespace Diagram

/-- The character of both rails. -/
def railMark : Char := '│'

/-- Where the left rail shows the way back. -/
def upMark : Char := '▲'

/-- Where the right rail leads to the next node. -/
def downMark : Char := '▼'

/-- A number of equal characters. -/
def fill (count : Nat) (c : Char) : String := String.ofList (List.replicate count c)

/-- The text of an edge: the node and the label, or the label alone for an edge that leaves a
hop. -/
def edgeText (step : Cycle.Step) : String :=
  if step.nested then step.label else s!"{step.node}:{step.label}"

/-- The width of the column for a cycle. -/
def columnWidth (cycle : Cycle) : Nat :=
  4 + ((cycle.names.map QualifiedName.width).max?.getD 0) / 2

/-- A line between the left rail and a mark on the right rail, with some text behind it. -/
def railLine (width : Nat) (mark : Char) (text : String) : DiagramLine :=
  ⟨railMark, fill width ' ' ++ mark.toString ++ text⟩

/-- A line with a name in the middle of the column. -/
def nameLine (width : Nat) (name : QualifiedName) : DiagramLine :=
  ⟨railMark, fill (width - name.width / 2) ' ' ++ name.rendered⟩

/-- The lines of a step: its name and its edge. -/
def stepLines (width : Nat) (step : Cycle.Step) : List DiagramLine :=
  [nameLine width step.node, railLine width railMark "",
    railLine width railMark (" " ++ edgeText step), railLine width railMark ""]

/-- The lines of all steps, with an arrow down between two of them. -/
def bodyLines (width : Nat) : List Cycle.Step → List DiagramLine
  | [] => []
  | [last] => stepLines width last
  | step :: rest => stepLines width step ++ railLine width downMark "" :: bodyLines width rest

/-- The lines from border to border, without the arrow up. -/
def frame (cycle : Cycle) : List DiagramLine :=
  let width := columnWidth cycle
  ⟨'┌', fill width '─' ++ "┐"⟩ :: railLine width railMark "" ::
    bodyLines width cycle.steps ++ [⟨'└', fill width '─' ++ "┘ "⟩]

/-- A line whose left rail shows the way back; a border stays as it is. -/
def withUpMark (line : DiagramLine) : DiagramLine :=
  if line.rail = railMark then { line with rail := upMark } else line

/-- The lines of the diagram, the middle one with the arrow up. -/
def lines (cycle : Cycle) : List DiagramLine :=
  let frame := frame cycle
  frame.modify (frame.length / 2) withUpMark

/-- A line as text, indented by two blanks. -/
def lineText (line : DiagramLine) : String := "  " ++ line.rail.toString ++ line.body

end Diagram

def Cycle.diagram (cycle : Cycle) : String :=
  String.intercalate "\n" ((Diagram.lines cycle).map Diagram.lineText)

/-- The messages of some cycles of a module: one at each node that reports a cycle, in the order
of the cycles and of their steps. -/
def diagnoseCycles (home : ModuleName) (cycles : List Cycle) : List Diagnostic :=
  cycles.flatMap fun cycle =>
    cycle.anchors.map fun anchor =>
      ⟨anchor, s!"Bean {anchor} forms a cycle in module {home}\n{cycle.diagram}"⟩

end Injection
