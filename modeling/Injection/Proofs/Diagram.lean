import Injection.Cycle.Diagram
import Mathlib.Data.List.Sort
import Mathlib.Tactic.IntervalCases

/-!
# The layout of a diagram

The lines of a diagram stand on one grid. Two lines above the steps and one below them apart, each
step takes four lines, and a fifth one with the arrow to the next step: so the name of step `i`
stands in line `5 * i + 2`. The right rail stands in the same column throughout, and names are put
in the middle of the column that it bounds. The arrow up comes on a line of a step in the middle of
the cycle, or between two of them, and neither on a border nor on a name.

## Main definitions

* `Diagram.Shows` — what a line shows before the arrow up is put in.
* `Diagram.Drawn` — whether rows of text draw a cycle on a grid.
-/

namespace Injection.Diagram

variable {cycle : Cycle} {steps : List Cycle.Step} {step : Cycle.Step} {width index i j : Nat}
  {line : DiagramLine}

/-! ## The column -/

/-- The column is wider than half of the longest name by four. -/
theorem exists_longest (h : 1 ≤ cycle.length) :
    ∃ longest ∈ cycle.names.map QualifiedName.width,
      (∀ w ∈ cycle.names.map QualifiedName.width, w ≤ longest) ∧
        columnWidth cycle = 4 + longest / 2 := by
  have hne : cycle.names.map QualifiedName.width ≠ [] := by
    simpa [Cycle.names] using List.length_pos_iff.mp h
  obtain ⟨longest, hlongest⟩ := Option.ne_none_iff_exists'.mp (mt List.max?_eq_none_iff.mp hne)
  obtain ⟨hmem, hle⟩ := List.max?_eq_some_iff.mp hlongest
  refine ⟨longest, hmem, hle, ?_⟩
  rw [columnWidth, hlongest, Option.getD_some]

/-- A name leaves at least four columns to its left. -/
theorem width_div_two_add_le (hstep : step ∈ cycle.steps) :
    step.node.width / 2 + 4 ≤ columnWidth cycle := by
  have hmem : step.node.width ∈ cycle.names.map QualifiedName.width :=
    List.mem_map_of_mem (List.mem_map_of_mem hstep)
  have hle := List.le_max?_getD_of_mem (k := 0) hmem
  rw [columnWidth]
  omega

/-! ## The lines of the steps -/

/-- The lines of a step and the arrow to the next one. -/
def block (width : Nat) (step : Cycle.Step) : List DiagramLine :=
  stepLines width step ++ [railLine width downMark ""]

theorem length_bodyLines (h : steps ≠ []) :
    (bodyLines width steps).length + 1 = 5 * steps.length := by
  fun_induction bodyLines width steps with
  | case1 => exact absurd rfl h
  | case2 last => rfl
  | case3 step rest hrest ih =>
    have hlength := ih hrest
    simp only [List.length_append, List.length_cons, stepLines, List.length_nil]
    omega

/-- Each step stands five lines below the one before it; the last one has no arrow. -/
theorem getElem?_bodyLines (hstep : steps[i]? = some step)
    (hj : j < 4 ∨ j = 4 ∧ i + 1 < steps.length) :
    (bodyLines width steps)[5 * i + j]? = (block width step)[j]? := by
  fun_induction bodyLines width steps generalizing i with
  | case1 => simp at hstep
  | case2 last =>
    obtain ⟨hi, rfl⟩ := List.getElem?_eq_some_iff.mp hstep
    obtain rfl : i = 0 := by simpa using hi
    have hlt : j < (stepLines width last).length := by
      simp only [List.length_singleton] at hj
      exact hj.resolve_right (by omega)
    rw [block, Nat.mul_zero, Nat.zero_add, List.getElem_singleton, List.getElem?_append_left hlt]
  | case3 first rest hrest ih =>
    have hblock : stepLines width first ++ railLine width downMark "" :: bodyLines width rest =
        block width first ++ bodyLines width rest := by simp [block]
    have hlength : (block width first).length = 5 := rfl
    rw [hblock]
    cases i with
    | zero =>
      obtain rfl := Option.some.inj hstep
      rw [List.getElem?_append_left (by omega), Nat.mul_zero, Nat.zero_add]
    | succ i =>
      rw [List.getElem?_append_right (by omega), hlength, ← ih hstep (by simpa using hj)]
      congr 1
      omega

/-! ## The frame -/

/-- What a line of the frame shows. -/
inductive Shows (cycle : Cycle) : Nat → DiagramLine → Prop
  | top : Shows cycle 0 ⟨'┌', fill (columnWidth cycle) '─' ++ "┐"⟩
  | head : Shows cycle 1 (railLine (columnWidth cycle) railMark "")
  | name {i : Nat} {step : Cycle.Step} (hstep : cycle.steps[i]? = some step) :
      Shows cycle (5 * i + 2) (nameLine (columnWidth cycle) step.node)
  | above {i : Nat} (hi : i < cycle.length) :
      Shows cycle (5 * i + 3) (railLine (columnWidth cycle) railMark "")
  | edge {i : Nat} {step : Cycle.Step} (hstep : cycle.steps[i]? = some step) :
      Shows cycle (5 * i + 4) (railLine (columnWidth cycle) railMark (" " ++ edgeText step))
  | below {i : Nat} (hi : i < cycle.length) :
      Shows cycle (5 * i + 5) (railLine (columnWidth cycle) railMark "")
  | down {i : Nat} (hi : i + 1 < cycle.length) :
      Shows cycle (5 * i + 6) (railLine (columnWidth cycle) downMark "")
  | bottom : Shows cycle (5 * cycle.length + 1) ⟨'└', fill (columnWidth cycle) '─' ++ "┘ "⟩

/-- There is a line for each place of the grid. -/
theorem exists_shows (hlt : index < 5 * cycle.length + 2) : ∃ line, Shows cycle index line := by
  rcases Nat.lt_or_ge index 2 with hsmall | hlarge
  · interval_cases index
    · exact ⟨_, .top⟩
    · exact ⟨_, .head⟩
  · by_cases hlast : index = 5 * cycle.length + 1
    · subst hlast
      exact ⟨_, .bottom⟩
    · obtain ⟨i, j, hj, rfl⟩ : ∃ i j, j < 5 ∧ index = 5 * i + j + 2 :=
        ⟨(index - 2) / 5, (index - 2) % 5, by omega, by omega⟩
      have hi : i < cycle.length := by omega
      have hstep : cycle.steps[i]? = some cycle.steps[i] := List.getElem?_eq_getElem hi
      interval_cases j
      · exact ⟨_, .name hstep⟩
      · exact ⟨_, .above hi⟩
      · exact ⟨_, .edge hstep⟩
      · exact ⟨_, .below hi⟩
      · exact ⟨_, .down (by omega)⟩

section Frame

variable (h : 1 ≤ cycle.length)

include h

theorem length_body :
    (bodyLines (columnWidth cycle) cycle.steps).length + 1 = 5 * cycle.steps.length :=
  length_bodyLines (List.length_pos_iff.mp h)

theorem length_frame : (frame cycle).length = 5 * cycle.length + 2 := by
  have hlength := length_body h
  simp only [frame, List.length_append, List.length_cons, List.length_nil]
  rw [Cycle.length]
  omega

theorem getElem?_frame (hstep : cycle.steps[i]? = some step)
    (hj : j < 4 ∨ j = 4 ∧ i + 1 < cycle.length) :
    (frame cycle)[5 * i + j + 2]? = (block (columnWidth cycle) step)[j]? := by
  have hlength := length_body h
  obtain ⟨hi, -⟩ := List.getElem?_eq_some_iff.mp hstep
  rw [Cycle.length] at hj
  rw [← getElem?_bodyLines hstep hj, frame, List.cons_append, List.cons_append,
    List.getElem?_cons_succ, List.getElem?_cons_succ, List.getElem?_append_left (by omega)]

theorem getElem?_frame_of_shows (hshows : Shows cycle index line) :
    (frame cycle)[index]? = some line := by
  have hlength := length_body h
  have hsteps : ∀ i < cycle.length, ∃ step, cycle.steps[i]? = some step := fun i hi =>
    ⟨_, List.getElem?_eq_getElem hi⟩
  cases hshows with
  | top => rfl
  | head => rfl
  | name hstep => exact getElem?_frame h (j := 0) hstep (by omega)
  | above hi =>
    obtain ⟨step, hstep⟩ := hsteps _ hi
    exact getElem?_frame h (j := 1) hstep (by omega)
  | edge hstep => exact getElem?_frame h (j := 2) hstep (by omega)
  | below hi =>
    obtain ⟨step, hstep⟩ := hsteps _ hi
    exact getElem?_frame h (j := 3) hstep (by omega)
  | down hi =>
    obtain ⟨step, hstep⟩ := hsteps _ (Nat.lt_of_succ_lt hi)
    exact getElem?_frame h (j := 4) hstep (by omega)
  | bottom =>
    have hfront :
        5 * cycle.length + 1 = (bodyLines (columnWidth cycle) cycle.steps).length + 2 := by
      rw [Cycle.length]
      omega
    rw [hfront, frame, List.cons_append, List.cons_append, List.getElem?_cons_succ,
      List.getElem?_cons_succ, List.getElem?_concat_length]

/-- The lines of the frame are those of the grid. -/
theorem getElem?_frame_eq_some_iff :
    (frame cycle)[index]? = some line ↔ Shows cycle index line := by
  refine ⟨fun hline => ?_, getElem?_frame_of_shows h⟩
  obtain ⟨hlt, -⟩ := List.getElem?_eq_some_iff.mp hline
  obtain ⟨line', hshows⟩ := exists_shows (length_frame h ▸ hlt)
  have hsame := (getElem?_frame_of_shows h hshows).symm.trans hline
  exact Option.some.inj hsame ▸ hshows

end Frame

/-! ## The rails -/

/-- The left rail of the frame, without the arrow up. -/
theorem Shows.rail_eq (hshows : Shows cycle index line) (h : 1 ≤ cycle.length) :
    line.rail =
      if index = 0 then '┌' else if index = 5 * cycle.length + 1 then '└' else railMark := by
  cases hshows with
  | top => rfl
  | head => rw [if_neg (by omega), if_neg (by omega), railLine]
  | name hstep =>
    have hi := (List.getElem?_eq_some_iff.mp hstep).1
    rw [if_neg (by omega), if_neg (by omega), nameLine]
  | above | edge | below | down => rw [if_neg (by omega), if_neg (by omega), railLine]
  | bottom => rw [if_neg (by omega), if_pos rfl]

theorem getElem?_toList_fill_append (width : Nat) (c : Char) (rest : String) :
    (fill width c ++ rest).toList[width]? = rest.toList.head? := by
  simp [fill, List.getElem?_append_right, List.head?_eq_getElem?]

theorem getElem?_toList_railLine (width : Nat) (mark : Char) (text : String) :
    (railLine width mark text).body.toList[width]? = some mark := by
  rw [railLine, String.append_assoc, getElem?_toList_fill_append]
  simp

/-- The right rail stands behind as many characters as the column is wide; on it, the arrows down
stand between the steps. -/
theorem Shows.exists_mark (hshows : Shows cycle index line) (hname : index % 5 ≠ 2) :
    ∃ mark ∈ ['┐', railMark, downMark, '┘'], line.body.toList[columnWidth cycle]? = some mark ∧
      (mark = downMark ↔ ∃ i, i + 1 < cycle.length ∧ index = 5 * i + 6) := by
  cases hshows with
  | top =>
    refine ⟨'┐', by decide, getElem?_toList_fill_append _ _ _, iff_of_false (by decide) ?_⟩
    rintro ⟨_, _, he⟩
    omega
  | name hstep => omega
  | head | above hi | edge hstep | below hi =>
    refine ⟨railMark, by decide, getElem?_toList_railLine _ _ _, iff_of_false (by decide) ?_⟩
    rintro ⟨_, _, he⟩
    omega
  | @down i hi =>
    exact ⟨downMark, by decide, getElem?_toList_railLine _ _ _, fun _ => ⟨i, hi, rfl⟩, fun _ => rfl⟩
  | bottom =>
    refine ⟨'┘', by decide, getElem?_toList_fill_append _ _ _, iff_of_false (by decide) ?_⟩
    rintro ⟨_, _, he⟩
    omega

theorem Shows.rail_ne_upMark (hshows : Shows cycle index line) (h : 1 ≤ cycle.length) :
    line.rail ≠ upMark := by
  rw [hshows.rail_eq h]
  split_ifs <;> decide

/-! ## The arrow up -/

/-- Where the arrow up is put in. -/
def middle (cycle : Cycle) : Nat := (5 * cycle.length + 2) / 2

/-- A line of the diagram is a line of the frame, with the arrow up on the left rail if it is the
middle one. -/
theorem getElem?_lines_eq_some_iff (h : 1 ≤ cycle.length) :
    (lines cycle)[index]? = some line ↔ ∃ plain, Shows cycle index plain ∧
      line = { plain with rail := if index = middle cycle then upMark else plain.rail } := by
  have hmark : ∀ plain, Shows cycle index plain →
      (if (frame cycle).length / 2 = index then withUpMark plain else plain) =
        { plain with rail := if index = middle cycle then upMark else plain.rail } := by
    intro plain hplain
    have hrail := hplain.rail_eq h
    rw [length_frame h, middle]
    by_cases hmiddle : index = (5 * cycle.length + 2) / 2
    · rw [if_neg (by omega), if_neg (by omega)] at hrail
      rw [if_pos hmiddle.symm, if_pos hmiddle, withUpMark, if_pos hrail]
    · rw [if_neg (Ne.symm hmiddle), if_neg hmiddle]
  rw [lines, List.getElem?_modify, Option.map_eq_map, Option.map_eq_some_iff]
  simp only [getElem?_frame_eq_some_iff h]
  constructor
  · rintro ⟨plain, hplain, rfl⟩
    exact ⟨plain, hplain, hmark plain hplain⟩
  · rintro ⟨plain, hplain, rfl⟩
    exact ⟨plain, hplain, hmark plain hplain⟩

/-! ## Rows of text -/

/-- What some rows of text show in a place, the first row and the first column being zero. -/
def charAt (rows : List String) (index column : Nat) : Option Char :=
  rows[index]?.bind fun row => row.toList[column]?

/-- Whether rows of text draw a cycle on a grid. The left rail stands behind an indent of two; the
right rail stands behind as many further columns as the column for the names is wide. -/
structure Drawn (cycle : Cycle) (rows : List String) : Prop where
  length_eq : rows.length = 5 * cycle.length + 2
  /-- The names in order. Half of a name and the blanks before it fill the column. -/
  names : ∀ i step, cycle.steps[i]? = some step → ∃ pad, 4 ≤ pad ∧
    pad + step.node.width / 2 = columnWidth cycle ∧
      rows[5 * i + 2]? = some ("  │" ++ fill pad ' ' ++ step.node.rendered)
  /-- The texts of the edges in order, behind the right rail. -/
  edges : ∀ i step, cycle.steps[i]? = some step →
    rows[5 * i + 4]? = some ("  │" ++ fill (columnWidth cycle) ' ' ++ "│ " ++ edgeText step)
  /-- The right rail stands in one column, except in the rows of the names. -/
  right : ∀ index < rows.length, index % 5 ≠ 2 →
    ∃ mark ∈ ['┐', '│', '▼', '┘'], charAt rows index (columnWidth cycle + 3) = some mark
  /-- There is one arrow down between a step and the next one. -/
  downs : ((List.range rows.length).filter fun index =>
      index % 5 ≠ 2 ∧ charAt rows index (columnWidth cycle + 3) = some '▼') =
    (List.range (cycle.length - 1)).map fun i => 5 * i + 6
  /-- There is one arrow up, in the row in the middle. -/
  ups : ((List.range rows.length).filter fun index => charAt rows index 2 = some '▲') =
    [(5 * cycle.length + 2) / 2]
  /-- The left rail has its corners in the first row and in the last one. -/
  corners : charAt rows 0 2 = some '┌' ∧ charAt rows (5 * cycle.length + 1) 2 = some '└'

theorem filter_range_eq {n : Nat} {p : Nat → Bool} {list : List Nat}
    (hlist : list.Pairwise (· < ·)) (h : ∀ i, i ∈ list ↔ i < n ∧ p i = true) :
    (List.range n).filter p = list := by
  refine List.Pairwise.eq_of_mem_iff (List.pairwise_lt_range.filter _) hlist fun i => ?_
  rw [List.mem_filter, List.mem_range, h]

theorem indent_railMark : "  " ++ railMark.toString = "  │" := rfl

theorem railMark_blank : railMark.toString ++ " " = "│ " := rfl

theorem toList_lineText (line : DiagramLine) :
    (lineText line).toList = ' ' :: ' ' :: line.rail :: line.body.toList := by
  simp [lineText]

section Rows

variable (h : 1 ≤ cycle.length)

include h

theorem length_rows : ((lines cycle).map lineText).length = 5 * cycle.length + 2 := by
  rw [List.length_map, lines, List.length_modify, length_frame h]

theorem getElem?_rows (hshows : Shows cycle index line) (hindex : index ≠ middle cycle) :
    ((lines cycle).map lineText)[index]? = some (lineText line) := by
  rw [List.getElem?_map, (getElem?_lines_eq_some_iff h).mpr ⟨line, hshows, rfl⟩, if_neg hindex]
  rfl

theorem charAt_left (hshows : Shows cycle index line) :
    charAt ((lines cycle).map lineText) index 2 =
      some (if index = middle cycle then upMark else line.rail) := by
  rw [charAt, List.getElem?_map, (getElem?_lines_eq_some_iff h).mpr ⟨line, hshows, rfl⟩,
    Option.map_some, Option.bind_some, toList_lineText]
  rfl

theorem charAt_right (hshows : Shows cycle index line) :
    charAt ((lines cycle).map lineText) index (columnWidth cycle + 3) =
      line.body.toList[columnWidth cycle]? := by
  rw [charAt, List.getElem?_map, (getElem?_lines_eq_some_iff h).mpr ⟨line, hshows, rfl⟩,
    Option.map_some, Option.bind_some, toList_lineText]
  rfl

/-- The rows in which the right rail leads down are those between the steps. -/
theorem filter_down_eq :
    ((List.range (5 * cycle.length + 2)).filter fun index => index % 5 ≠ 2 ∧
        charAt ((lines cycle).map lineText) index (columnWidth cycle + 3) = some downMark) =
      (List.range (cycle.length - 1)).map fun i => 5 * i + 6 := by
  refine filter_range_eq ?_ fun index => ?_
  · exact List.pairwise_map.mpr (List.pairwise_lt_range.imp (by omega))
  rw [List.mem_map, decide_eq_true_eq]
  constructor
  · rintro ⟨i, hi, rfl⟩
    rw [List.mem_range] at hi
    refine ⟨by omega, by omega, (charAt_right h (.down (by omega))).trans ?_⟩
    exact getElem?_toList_railLine _ _ _
  · rintro ⟨hindex, hname, hat⟩
    obtain ⟨line, hshows⟩ := exists_shows hindex
    obtain ⟨mark, -, hmark, hdown⟩ := hshows.exists_mark hname
    rw [charAt_right h hshows, hmark] at hat
    obtain ⟨i, hi, rfl⟩ := hdown.mp (Option.some.inj hat)
    exact ⟨i, List.mem_range.mpr (by omega), rfl⟩

/-- The only row in which the left rail leads up is the one in the middle. -/
theorem filter_up_eq :
    ((List.range (5 * cycle.length + 2)).filter fun index =>
        charAt ((lines cycle).map lineText) index 2 = some upMark) = [middle cycle] := by
  refine filter_range_eq (List.pairwise_singleton _ _) fun index => ?_
  rw [List.mem_singleton, decide_eq_true_eq]
  constructor
  · rintro rfl
    have hlt : middle cycle < 5 * cycle.length + 2 := by rw [middle]; omega
    obtain ⟨line, hshows⟩ := exists_shows hlt
    exact ⟨hlt, by rw [charAt_left h hshows, if_pos rfl]⟩
  · rintro ⟨hindex, hat⟩
    obtain ⟨line, hshows⟩ := exists_shows hindex
    by_contra hne
    rw [charAt_left h hshows, if_neg hne] at hat
    exact hshows.rail_ne_upMark h (Option.some.inj hat)

end Rows

/-- A diagram is drawn on one grid, whatever the names and labels are. The column for the names is
four and half of the longest name wide. The rows are five for each step and two more: they have the
names and the texts of the edges in order, each name in the middle of the column with at least four
blanks before it; a right rail in one column; an arrow down between a step and the next one; and a
single arrow up on the left rail, in the row in the middle, which is not a border. -/
theorem diagram_drawn (h : 1 ≤ cycle.length) :
    cycle.diagram = "\n".intercalate ((lines cycle).map lineText) ∧
    (∃ longest ∈ cycle.names.map QualifiedName.width,
      (∀ w ∈ cycle.names.map QualifiedName.width, w ≤ longest) ∧
        columnWidth cycle = 4 + longest / 2) ∧
    Drawn cycle ((lines cycle).map lineText) := by
  have hlength := length_rows h
  refine ⟨rfl, exists_longest h, hlength, fun i step hstep => ?_, fun i step hstep => ?_,
    fun index hindex hname => ?_, ?_, ?_, ?_⟩
  · have hfit := width_div_two_add_le (List.mem_of_getElem? hstep)
    refine ⟨columnWidth cycle - step.node.width / 2, by omega, by omega, ?_⟩
    rw [getElem?_rows h (.name hstep) (by rw [middle]; omega), lineText, nameLine,
      ← String.append_assoc, indent_railMark]
  · rw [getElem?_rows h (.edge hstep) (by rw [middle]; omega), lineText, railLine, indent_railMark]
    simp only [← railMark_blank, String.append_assoc]
  · obtain ⟨line, hshows⟩ := exists_shows (hlength ▸ hindex)
    obtain ⟨mark, hmark, hat, -⟩ := hshows.exists_mark hname
    exact ⟨mark, hmark, (charAt_right h hshows).trans hat⟩
  · rw [hlength]
    exact filter_down_eq h
  · rw [hlength]
    exact filter_up_eq h
  · refine ⟨charAt_left h .top |>.trans ?_, charAt_left h .bottom |>.trans ?_⟩
    · rw [if_neg (by rw [middle]; omega)]
    · rw [if_neg (by rw [middle]; omega)]

/-- A cycle whose names are not of one width, with a label that looks like an arrow. -/
def uneven : Cycle where
  steps := [⟨⟨"m", "größe"⟩, "▼", false⟩, ⟨⟨"m", "t.x"⟩, "(nested)", true⟩]
  anchors := [⟨"m", "größe"⟩, ⟨"m", "t.x"⟩]

theorem diagram_drawn_uneven : 1 ≤ uneven.length ∧
    Drawn uneven [
      "  ┌───────┐",
      "  │       │",
      "  │    m:größe",
      "  │       │",
      "  │       │ m:größe:▼",
      "  │       │",
      "  ▲       ▼",
      "  │     m:t.x",
      "  │       │",
      "  │       │ (nested)",
      "  │       │",
      "  └───────┘ "] := by
  have h : 1 ≤ uneven.length := by decide
  obtain ⟨-, -, hdrawn⟩ := diagram_drawn h
  exact ⟨h, hdrawn⟩

end Injection.Diagram
