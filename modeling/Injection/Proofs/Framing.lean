import Injection.Proofs.Fingerprint

/-!
# Which wirings have the same hashed bytes

The hashed bytes are the module's name on a line and then the edges in order. Each end of an edge is
closed by a zero, but the label is followed by the flag alone, and the flag may be a zero, too. So
the bytes are read from the end: the flag, the label, and the target come off one by one. What then
stands between the source of the edge and the flag before it is told by the source itself: it begins
with the module's name, or, at the edge of a hop, with the target that has just been read.

So the bytes determine the name of the module and its edges if no text of an edge holds a zero, and
if the name of the module does not hold both the end of a line and the separator. Each of these
conditions is needed.

## Main definitions

* `Link.Terminated` — whether the texts of an edge hold no zero.
* `Link.stem` — what the source of an edge begins with.
* `Graph.HashDetermines` — whether the hashed bytes tell modules of some kind apart.
-/

namespace Injection

/-! ## Cutting a list -/

section Cut

variable {α : Type} {a : α} {xs xs' ys ys' front : List α}

/-- Equal lists have equal parts, if they are cut at the last occurrence of an element. -/
theorem eq_of_append_cons_last_eq (hys : a ∉ ys) (hys' : a ∉ ys')
    (h : xs ++ a :: ys = xs' ++ a :: ys') : xs = xs' ∧ ys = ys' := by
  have hreverse : ys.reverse ++ a :: xs.reverse = ys'.reverse ++ a :: xs'.reverse := by
    simpa using congrArg List.reverse h
  obtain ⟨hback, hfront⟩ := eq_of_append_cons_self_eq (by simpa) (by simpa) hreverse
  exact ⟨List.reverse_inj.mp hfront, List.reverse_inj.mp hback⟩

/-- A list that holds an element is moved by nothing that does not hold it. -/
theorem eq_nil_of_append_eq (ha : a ∈ xs) (hfront : a ∉ front)
    (h : front ++ (xs ++ ys) = xs ++ ys') : front = [] := by
  obtain ⟨before, after, rfl, hbefore⟩ := List.eq_append_cons_of_mem ha
  rw [List.append_assoc, List.append_assoc, ← List.append_assoc front] at h
  obtain ⟨hsame, -⟩ := eq_of_append_cons_self_eq (by simp [hfront, hbefore]) hbefore h
  exact List.append_left_eq_self.mp hsame

/-- What ends a list and does not hold an element stands behind every occurrence of it. -/
theorem suffix_of_append_cons_eq_append (ha : a ∉ ys') (h : xs ++ a :: ys = xs' ++ ys') :
    ys' <:+ ys := by
  have hsuffix : ys' <:+ a :: ys :=
    (List.suffix_or_suffix_of_suffix ⟨xs', h.symm⟩ (List.suffix_append xs _)).resolve_right
      fun hlong => ha (hlong.mem List.mem_cons_self)
  exact (List.suffix_cons_iff.mp hsuffix).resolve_left fun hsame => ha (hsame ▸ List.mem_cons_self)

/-- Of two lists that are the same up to an element, the shorter one is a part of the longer. -/
theorem notMem_of_append_cons_eq {b : α} (ha : a ∈ xs) (ha' : a ∉ xs') (hb : b ∉ xs)
    (h : xs ++ a :: ys = xs' ++ a :: ys') : b ∉ xs' := by
  obtain ⟨before, after, rfl, hbefore⟩ := List.eq_append_cons_of_mem ha
  rw [List.append_assoc, List.cons_append] at h
  obtain ⟨rfl, -⟩ := eq_of_append_cons_self_eq hbefore ha' h
  exact fun hm => hb (List.mem_append_left _ hm)

end Cut

/-! ## The bytes of an edge -/

namespace Link

variable {home home' : String} {link link' : Link} {links links' : List Link}
  {before before' : List UInt8}

/-- The bytes of an edge that is given by its texts. -/
def bytes (link : Link) : List UInt8 :=
  utf8 link.source ++ 0 :: utf8 link.target ++ 0 :: utf8 link.label ++
    [if link.nested then 1 else 0]

/-- The bytes of a module's name and of its edges. -/
def frame (home : String) (links : List Link) : List UInt8 :=
  utf8 home ++ 10 :: links.flatMap bytes

theorem frame_concat (home : String) (links : List Link) (link : Link) :
    frame home (links ++ [link]) = frame home links ++ link.bytes := by
  simp [frame]

/-- Whether no text of an edge holds a zero. -/
structure Terminated (link : Link) : Prop where
  source : '\x00' ∉ link.source.toList
  target : '\x00' ∉ link.target.toList
  label : '\x00' ∉ link.label.toList

/-- What the source of an edge begins with: the target of a hop's edge, or else the name of the
module and the separator. -/
def stem (home : String) (link : Link) : List UInt8 :=
  if link.nested then utf8 link.target else utf8 home ++ [58]

/-- What holds of the edges of a module. -/
structure Rooted (home : String) (link : Link) : Prop where
  label_eq : link.nested = true → link.label = Graph.nestedLabel
  begins : link.stem home <+: utf8 link.source
  separator_mem : 58 ∈ link.stem home

theorem zero_notMem_utf8 {text : String} (h : '\x00' ∉ text.toList) : (0 : UInt8) ∉ utf8 text :=
  (mem_utf8_iff (n := 0) (by decide)).not.mpr h

/-- The flag, the label, and the target of the last edge can be read off. -/
theorem eq_of_append_bytes_eq (h : link.Terminated) (h' : link'.Terminated)
    (hbytes : before ++ link.bytes = before' ++ link'.bytes) :
    before ++ utf8 link.source = before' ++ utf8 link'.source ∧ link.target = link'.target ∧
      link.label = link'.label ∧ link.nested = link'.nested := by
  have hcut : ((before ++ utf8 link.source) ++ 0 :: utf8 link.target) ++ 0 :: utf8 link.label ++
        [if link.nested then 1 else 0] =
      ((before' ++ utf8 link'.source) ++ 0 :: utf8 link'.target) ++ 0 :: utf8 link'.label ++
        [if link'.nested then 1 else 0] := by
    simpa [bytes] using hbytes
  obtain ⟨hcut, hflag⟩ := List.append_inj' hcut rfl
  obtain ⟨hcut, hlabel⟩ := eq_of_append_cons_last_eq (zero_notMem_utf8 h.label)
    (zero_notMem_utf8 h'.label) hcut
  obtain ⟨hsource, htarget⟩ := eq_of_append_cons_last_eq (zero_notMem_utf8 h.target)
    (zero_notMem_utf8 h'.target) hcut
  exact ⟨hsource, utf8_inj.mp htarget, utf8_inj.mp hlabel, Wire.flag_inj (List.cons.inj hflag).1⟩

theorem stem_of_nested (h : link.nested = true) : link.stem home = utf8 link.target := by
  rw [stem, if_pos h]

theorem stem_of_direct (h : link.nested = false) : link.stem home = utf8 home ++ [58] := by
  rw [stem, h, if_neg Bool.false_ne_true]

/-! ## Where a source begins -/

/-- The sources of two edges to the same target tell where they begin: if one of them has something
in front, without a separator, so has the name of its module. -/
theorem home_eq_append {front : List UInt8} (h : link.Rooted home) (h' : link'.Rooted home')
    (htarget : link.target = link'.target) (hnested : link.nested = link'.nested)
    (hhomes : home = home' ∨ 58 ∉ utf8 home ∧ 58 ∉ utf8 home')
    (hsource : utf8 link.source = front ++ utf8 link'.source) (hne : front ≠ [])
    (hfront : 58 ∉ front) : utf8 home = front ++ utf8 home' := by
  obtain ⟨rest, hrest⟩ := h.begins
  obtain ⟨rest', hrest'⟩ := h'.begins
  rw [← hrest, ← hrest'] at hsource
  have hstems : link.stem home ≠ link'.stem home' := by
    intro hsame
    rw [hsame] at hsource
    exact hne (eq_nil_of_append_eq h'.separator_mem hfront hsource.symm)
  have hdirect : link'.nested = false := by
    by_contra hno
    have hno' : link'.nested = true := by simpa using hno
    rw [stem_of_nested hno', stem_of_nested (hnested.trans hno'), htarget] at hstems
    exact hstems rfl
  rw [stem_of_direct hdirect, stem_of_direct (hnested.trans hdirect)] at hsource hstems
  obtain ⟨hclean, hclean'⟩ := hhomes.resolve_left fun hsame => hstems (hsame ▸ rfl)
  have hcut : utf8 home ++ 58 :: rest = (front ++ utf8 home') ++ 58 :: rest' := by
    simpa using hsource
  exact (eq_of_append_cons_self_eq hclean (by simp [hfront, hclean']) hcut).1

/-- Before the source of an edge stands the line with the name of the module, or the edge before,
which ends with a label and a flag. -/
theorem frame_cases (home : String) (links : List Link) :
    (links = [] ∧ frame home links = utf8 home ++ [10]) ∨
      ∃ last ∈ links, ∃ bytes, frame home links =
        bytes ++ 0 :: (utf8 last.label ++ [if last.nested then 1 else 0]) := by
  rcases List.eq_nil_or_concat links with rfl | ⟨rest, last, rfl⟩
  · exact .inl ⟨rfl, rfl⟩
  · rw [List.concat_eq_append, frame_concat]
    exact .inr ⟨last, by simp, frame home rest ++ utf8 last.source ++ 0 :: utf8 last.target,
      by simp [bytes]⟩

/-- Nothing is taken from the line with the name of a module: the other name would be longer by what
has been taken, but it is shorter. -/
theorem eq_nil_of_line_eq_append {front : List UInt8}
    (hhomes : home = home' ∨ 58 ∉ utf8 home ∧ 58 ∉ utf8 home')
    (hhome : 58 ∉ front → utf8 home = front ++ utf8 home')
    (hline : utf8 home' ++ [10] = (utf8 home ++ [10]) ++ front) : front = [] := by
  have hlength : (utf8 home').length = (utf8 home).length + front.length := by
    have := congrArg List.length hline
    simp only [List.length_append, List.length_singleton] at this
    omega
  rcases hhomes with rfl | ⟨-, hclean'⟩
  · exact List.eq_nil_of_length_eq_zero (by omega)
  · have hclean : 58 ∉ utf8 home' ++ [10] := by simp [hclean']
    rw [hline] at hclean
    have := congrArg List.length (hhome fun hm => hclean (List.mem_append_right _ hm))
    rw [List.length_append] at this
    exact List.eq_nil_of_length_eq_zero (by omega)

/-- Nothing is taken from the label and the flag of a hop's edge: it would stand before the line
with the name of the other module, too. -/
theorem eq_nil_of_hop_eq_append {front : List UInt8}
    (hhome : 58 ∉ front → utf8 home = front ++ utf8 home')
    (hframe : frame home' links' = frame home links ++ front)
    (htail : front <:+ utf8 Graph.nestedLabel ++ [1]) : front = [] := by
  have hsub : ∀ byte, byte ∉ utf8 Graph.nestedLabel ++ [1] → byte ∉ front :=
    fun _ hbyte hm => hbyte (htail.mem hm)
  have hlines : front ++ ((utf8 home' ++ [10]) ++ (links.flatMap Link.bytes ++ front)) =
      (utf8 home' ++ [10]) ++ links'.flatMap Link.bytes := by
    rw [frame, frame, hhome (hsub 58 (by decide))] at hframe
    simpa using hframe.symm
  exact eq_nil_of_append_eq (a := 10) (by simp) (hsub 10 (by decide)) hlines

/-- Nothing of what stands before an edge is taken for a part of its source. -/
theorem eq_nil_of_frame_eq_append {front : List UInt8} (h : link.Rooted home)
    (h' : link'.Rooted home') (hterminated : link.Terminated)
    (hlinks' : ∀ l ∈ links', l.Rooted home') (hzero' : 0 ∉ utf8 home')
    (htarget : link.target = link'.target) (hnested : link.nested = link'.nested)
    (hhomes : home = home' ∨ 58 ∉ utf8 home ∧ 58 ∉ utf8 home')
    (hsource : utf8 link.source = front ++ utf8 link'.source)
    (hframe : frame home' links' = frame home links ++ front) : front = [] := by
  by_contra hne
  have hzero : 0 ∉ front := fun hm =>
    zero_notMem_utf8 hterminated.source (hsource ▸ List.mem_append_left _ hm)
  have hhome := home_eq_append h h' htarget hnested hhomes hsource hne
  rcases frame_cases home' links' with ⟨rfl, hline'⟩ | ⟨last, hlast, bytes, hedge'⟩
  · rcases frame_cases home links with ⟨rfl, hline⟩ | ⟨last, -, bytes, hedge⟩
    · rw [hline, hline'] at hframe
      exact hne (eq_nil_of_line_eq_append hhomes hhome hframe)
    · -- an edge holds zeros, and the line holds none
      rw [hline', hedge] at hframe
      have hmem : (0 : UInt8) ∈ utf8 home' ++ [10] := hframe ▸ by simp
      simp [hzero'] at hmem
  · have htail := suffix_of_append_cons_eq_append hzero (hedge'.symm.trans hframe)
    by_cases hflag : last.nested = true
    · rw [(hlinks' last hlast).label_eq hflag, if_pos hflag] at htail
      exact hne (eq_nil_of_hop_eq_append hhome hframe htail)
    · -- the flag of the edge before is a zero, and would have been taken
      rw [if_neg hflag] at htail
      have hlast : front.getLast hne = 0 := by
        rw [htail.getLast hne, List.getLast_append_singleton]
      exact hzero (hlast ▸ List.getLast_mem hne)

/-! ## Edges in a row -/

/-- The bytes tell whether there are edges. -/
theorem eq_nil_of_frame_nil_eq (h : frame home [] = frame home' links) : links = [] := by
  rcases frame_cases home' links with ⟨hnil, -⟩ | ⟨last, -, bytes, hedge⟩
  · exact hnil
  · have hlast : utf8 home ++ [10] = (bytes ++ 0 :: utf8 last.label) ++
        [if last.nested then 1 else 0] := by
      rw [List.append_assoc, List.cons_append, ← hedge]
      exact h
    obtain ⟨-, hflag⟩ := List.append_inj' hlast rfl
    cases hnested : last.nested <;> simp [hnested] at hflag

/-- The bytes determine the edges. -/
theorem eq_of_frame_eq (hlinks : ∀ l ∈ links, l.Rooted home ∧ l.Terminated)
    (hlinks' : ∀ l ∈ links', l.Rooted home' ∧ l.Terminated)
    (hzero : links ≠ [] → 0 ∉ utf8 home) (hzero' : links' ≠ [] → 0 ∉ utf8 home')
    (hhomes : home = home' ∨ 58 ∉ utf8 home ∧ 58 ∉ utf8 home')
    (h : frame home links = frame home' links') : links = links' := by
  induction links using List.reverseRecOn generalizing links' with
  | nil => exact (eq_nil_of_frame_nil_eq h).symm
  | append_singleton rest link ih =>
    rcases List.eq_nil_or_concat links' with rfl | ⟨rest', link', rfl⟩
    · exact eq_nil_of_frame_nil_eq h.symm
    · rw [List.concat_eq_append] at *
      rw [List.forall_mem_append, List.forall_mem_singleton] at hlinks hlinks'
      obtain ⟨hrest, hlink, hterminated⟩ := hlinks
      obtain ⟨hrest', hlink', hterminated'⟩ := hlinks'
      rw [frame_concat, frame_concat] at h
      obtain ⟨hbefore, htarget, hlabel, hnested⟩ :=
        eq_of_append_bytes_eq hterminated hterminated' h
      have hsource : utf8 link.source = utf8 link'.source := by
        rcases List.append_eq_append_iff.mp hbefore with
          ⟨front, hframe, hsource⟩ | ⟨front, hframe, hsource⟩
        · have hnil := eq_nil_of_frame_eq_append hlink hlink' hterminated
            (fun l hl => (hrest' l hl).1) (hzero' (by simp)) htarget hnested hhomes hsource hframe
          simpa [hnil] using hsource
        · have hnil := eq_nil_of_frame_eq_append hlink' hlink hterminated'
            (fun l hl => (hrest l hl).1) (hzero (by simp)) htarget.symm hnested.symm
            (hhomes.imp Eq.symm And.symm) hsource hframe
          simpa [hnil] using hsource.symm
      rw [hsource] at hbefore
      obtain rfl := ih hrest hrest' (fun _ => hzero (by simp)) (fun _ => hzero' (by simp))
        (List.append_cancel_right hbefore)
      obtain ⟨source, target, label, nested⟩ := link
      obtain ⟨source', target', label', nested'⟩ := link'
      obtain rfl := utf8_inj.mp hsource
      obtain rfl := htarget
      obtain rfl := hlabel
      obtain rfl := hnested
      rfl

end Link

/-! ## The bytes of a graph -/

theorem Graph.home_build (m : ModuleDecl) : (build m).home = m.name := by
  refine build_induction (P := fun g => g.home = m.name) m rfl fun g g' h _ hhome => ?_
  cases h <;> exact hhome

theorem Graph.hashedBytes_eq_frame (g : Graph) : g.hashedBytes = Link.frame g.home g.links := by
  rw [hashedBytes, Wire.flatMap_hashedBytes_eq]
  rfl

namespace ModuleDecl

variable {m m' : ModuleDecl} {link : Link}

/-- Whether the ends of the edges hold no zero. -/
def HasTerminatedNames (m : ModuleDecl) : Prop :=
  ∀ link ∈ (Graph.build m).links, '\x00' ∉ link.source.toList ∧ '\x00' ∉ link.target.toList

/-- Whether the labels of the edges hold no zero. -/
def HasTerminatedLabels (m : ModuleDecl) : Prop :=
  ∀ link ∈ (Graph.build m).links, '\x00' ∉ link.label.toList

/-- Whether the module's name does not hold both the end of a line and the separator. -/
def HasUnmixedName (m : ModuleDecl) : Prop := '\n' ∈ m.name.toList → ':' ∉ m.name.toList

instance (m : ModuleDecl) : Decidable m.HasTerminatedNames :=
  inferInstanceAs (Decidable (∀ link ∈ (Graph.build m).links,
    '\x00' ∉ link.source.toList ∧ '\x00' ∉ link.target.toList))

instance (m : ModuleDecl) : Decidable m.HasTerminatedLabels :=
  inferInstanceAs (Decidable (∀ link ∈ (Graph.build m).links, '\x00' ∉ link.label.toList))

instance (m : ModuleDecl) : Decidable m.HasUnmixedName :=
  inferInstanceAs (Decidable ('\n' ∈ m.name.toList → ':' ∉ m.name.toList))

/-- The edge of a hop begins with its target, and that of a dependency with the module's name. -/
theorem rooted_of_mem_links (h : m.validate = .ok ()) (hlink : link ∈ (Graph.build m).links) :
    link.Rooted m.name := by
  obtain ⟨hhome, -, hclosed⟩ := validate_eq_ok_iff.mp h
  rcases hclosed.mem_links_iff.mp hlink with hlink | hlink
  · obtain ⟨hop, -, rfl⟩ := List.mem_map.mp hlink
    refine ⟨fun _ => rfl, ?_, ?_⟩ <;> rw [Link.stem_of_nested rfl]
    · refine ⟨utf8 ("." ++ hop.segment), ?_⟩
      rw [← utf8_append, ← String.append_assoc]
      exact congrArg utf8 hop.name_eq.symm
    · simp [Member.link, Member.parent, utf8_rendered]
  · obtain ⟨⟨source, dependency⟩, huse, rfl⟩ := List.mem_map.mp hlink
    obtain ⟨bean, hbean, -, rfl⟩ := mem_uses_iff.mp huse
    refine ⟨fun hno => absurd hno Bool.false_ne_true, ?_, ?_⟩ <;> rw [Link.stem_of_direct rfl]
    · refine ⟨utf8 bean.name.localPart, ?_⟩
      rw [← hhome bean hbean, List.append_assoc]
      exact (utf8_rendered bean.name).symm
    · simp

/-- The name of a module is a part of the names in its edges, if there are any. -/
theorem zero_notMem_name (h : m.validate = .ok ()) (hnames : m.HasTerminatedNames)
    (hlinks : (Graph.build m).links ≠ []) : 0 ∉ utf8 m.name := by
  obtain ⟨hhome, -, hclosed⟩ := validate_eq_ok_iff.mp h
  have huses : m.uses ≠ [] := by
    intro hnil
    refine hlinks (List.eq_nil_iff_forall_not_mem.mpr fun link hlink => ?_)
    rw [hclosed.mem_links_iff, hops, members, hnil] at hlink
    simp [keepFirst] at hlink
  obtain ⟨⟨source, dependency⟩, huse⟩ := List.exists_mem_of_ne_nil _ huses
  obtain ⟨bean, hbean, -, rfl⟩ := mem_uses_iff.mp huse
  have hsource := (hnames _ (hclosed.mem_links_iff.mpr (.inr (List.mem_map_of_mem huse)))).1
  have hzero := Link.zero_notMem_utf8 hsource
  rw [← hhome bean hbean]
  intro hm
  exact hzero (utf8_rendered bean.name ▸ List.mem_append_left _ hm)

/-- Names that are the same up to the end of a line are the same, or hold no separator: the longer
one holds the end of a line, and the shorter one is a part of it. -/
theorem name_eq_or_separator_notMem (hname : m.HasUnmixedName) (hname' : m'.HasUnmixedName)
    {rest rest' : List UInt8} (h : utf8 m.name ++ 10 :: rest = utf8 m'.name ++ 10 :: rest') :
    m.name = m'.name ∨ 58 ∉ utf8 m.name ∧ 58 ∉ utf8 m'.name := by
  have hbytes : ∀ {m : ModuleDecl}, m.HasUnmixedName → 10 ∈ utf8 m.name → 58 ∉ utf8 m.name :=
    fun hname hline => (mem_utf8_iff (n := 58) (by decide)).not.mpr
      (hname ((mem_utf8_iff (n := 10) (by decide)).mp hline))
  by_cases hline : 10 ∈ utf8 m.name
  · by_cases hline' : 10 ∈ utf8 m'.name
    · exact .inr ⟨hbytes hname hline, hbytes hname' hline'⟩
    · exact .inr ⟨hbytes hname hline, notMem_of_append_cons_eq hline hline' (hbytes hname hline) h⟩
  · by_cases hline' : 10 ∈ utf8 m'.name
    · exact .inr ⟨notMem_of_append_cons_eq hline' hline (hbytes hname' hline') h.symm,
        hbytes hname' hline'⟩
    · exact .inl (utf8_inj.mp (eq_of_append_cons_self_eq hline hline' h).1)

end ModuleDecl

/-- Whether the hashed bytes tell the names and the edges of valid modules of some kind. -/
def Graph.HashDetermines (kind : ModuleDecl → Prop) : Prop :=
  ∀ m m' : ModuleDecl, m.validate = .ok () → m'.validate = .ok () → kind m → kind m' →
    (build m).hashedBytes = (build m').hashedBytes →
      m.name = m'.name ∧ (build m).links = (build m').links

/-- Valid modules have the same hashed bytes exactly if they have the same name and the same edges
in the same order, if the texts of their edges hold no zero and their names are not mixed. -/
theorem hashedBytes_eq_iff {m m' : ModuleDecl} (h : m.validate = .ok ())
    (h' : m'.validate = .ok ()) (hnames : m.HasTerminatedNames) (hnames' : m'.HasTerminatedNames)
    (hlabels : m.HasTerminatedLabels) (hlabels' : m'.HasTerminatedLabels)
    (hname : m.HasUnmixedName) (hname' : m'.HasUnmixedName) :
    (Graph.build m).hashedBytes = (Graph.build m').hashedBytes ↔
      m.name = m'.name ∧ (Graph.build m).links = (Graph.build m').links := by
  rw [Graph.hashedBytes_eq_frame, Graph.hashedBytes_eq_frame, Graph.home_build, Graph.home_build]
  refine ⟨fun hbytes => ?_, fun ⟨hsame, hlinks⟩ => by rw [hsame, hlinks]⟩
  have hlinks := Link.eq_of_frame_eq
    (fun link hl => ⟨ModuleDecl.rooted_of_mem_links h hl, (hnames link hl).1, (hnames link hl).2,
      hlabels link hl⟩)
    (fun link hl => ⟨ModuleDecl.rooted_of_mem_links h' hl, (hnames' link hl).1, (hnames' link hl).2,
      hlabels' link hl⟩)
    (ModuleDecl.zero_notMem_name h hnames) (ModuleDecl.zero_notMem_name h' hnames')
    (ModuleDecl.name_eq_or_separator_notMem hname hname' hbytes) hbytes
  rw [hlinks] at hbytes
  exact ⟨utf8_inj.mp (List.append_cancel_right hbytes), hlinks⟩

/-- A label that looks like the flag of a hop's edge. -/
def flagged : ModuleDecl where
  name := "m"
  beans := [
    { name := ⟨"m", "b"⟩, dependencies := [⟨⟨"m", "t"⟩, "(nested)\x01", .nested ["x"]⟩] },
    { name := ⟨"m", "t"⟩ }]

/-- The flag in the label is not taken for the end of the label. -/
theorem hashedBytes_ne_flagged :
    flagged.validate = .ok () ∧ flagged.HasTerminatedNames ∧ flagged.HasTerminatedLabels ∧
      flagged.HasUnmixedName ∧
      (Graph.build flagged).hashedBytes ≠ (Graph.build navigating).hashedBytes := by
  have h : flagged.validate = .ok () := by cbv
  have h' : navigating.validate = .ok () := by cbv
  have hlaw := hashedBytes_eq_iff h h' (by decide) (by decide) (by decide) (by decide) (by decide)
    (by decide)
  exact ⟨h, by decide, by decide, by decide, hlaw.not.mpr (by decide)⟩

/-- A dependency of each of two beans. -/
def bridged : ModuleDecl where
  name := "m"
  beans := [
    { name := ⟨"m", "a"⟩, dependencies := [⟨⟨"m", "t"⟩, "k", .direct⟩] },
    { name := ⟨"m", "b"⟩, dependencies := [⟨⟨"m", "t"⟩, "l", .direct⟩] },
    { name := ⟨"m", "t"⟩ }]

/-- One dependency of a bean whose name goes on like the bytes of `bridged`. -/
def bridgedForged : ModuleDecl where
  name := "m"
  beans := [
    { name := ⟨"m", "a\x00m:t\x00k\x00m:b"⟩, dependencies := [⟨⟨"m", "t"⟩, "l", .direct⟩] },
    { name := ⟨"m", "t"⟩ }]

/-- A dependency on a socket that stands for a bean of another module. -/
def lined : ModuleDecl where
  name := "m\nm:"
  beans := [{ name := ⟨"m\nm:", "b"⟩, dependencies := [⟨⟨"q", "t"⟩, "l", .direct⟩] }]
  sockets := [{ name := ⟨"q", "t"⟩ }]

/-- The same dependency in a module with a shorter name, of a bean whose name begins with what is
missing. -/
def linedForged : ModuleDecl where
  name := "m"
  beans := [{ name := ⟨"m", "\nm\nm::b"⟩, dependencies := [⟨⟨"q", "t"⟩, "l", .direct⟩] }]
  sockets := [{ name := ⟨"q", "t"⟩ }]

theorem Graph.not_hashDetermines_of_ne {kind : ModuleDecl → Prop} {m m' : ModuleDecl}
    (h : m.validate = .ok ()) (h' : m'.validate = .ok ()) (hkind : kind m) (hkind' : kind m')
    (hbytes : (build m).hashedBytes = (build m').hashedBytes)
    (hne : (build m).links ≠ (build m').links) : ¬ HashDetermines kind :=
  fun hlaw => hne (hlaw m m' h h' hkind hkind' hbytes).2

/-- The hashed bytes do not determine the edges of all valid modules: not if a label holds a zero,
not if a name in the edges does, and not if the name of the module is mixed. -/
theorem not_hashDetermines :
    ¬ Graph.HashDetermines (fun _ => True) ∧
      ¬ Graph.HashDetermines (fun m => m.HasTerminatedNames ∧ m.HasUnmixedName) ∧
      ¬ Graph.HashDetermines (fun m => m.HasTerminatedLabels ∧ m.HasUnmixedName) ∧
      ¬ Graph.HashDetermines (fun m => m.HasTerminatedNames ∧ m.HasTerminatedLabels) := by
  have hlisting : (Graph.build listing).hashedBytes = (Graph.build listingForged).hashedBytes := by
    cbv
  have hbridged : (Graph.build bridged).hashedBytes = (Graph.build bridgedForged).hashedBytes := by
    cbv
  have hlined : (Graph.build lined).hashedBytes = (Graph.build linedForged).hashedBytes := by
    cbv
  refine ⟨?_, ?_, ?_, ?_⟩
  · exact Graph.not_hashDetermines_of_ne (by cbv) (by cbv) trivial trivial hlisting (by decide)
  · exact Graph.not_hashDetermines_of_ne (by cbv) (by cbv) (by decide) (by decide) hlisting
      (by decide)
  · exact Graph.not_hashDetermines_of_ne (by cbv) (by cbv) (by decide) (by decide) hbridged
      (by decide)
  · exact Graph.not_hashDetermines_of_ne (by cbv) (by cbv) (by decide) (by decide) hlined
      (by decide)

end Injection
