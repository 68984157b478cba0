import Injection.Proofs.Wiring

/-!
# The links of a closed module

A module is closed if it depends on declared names only. Its graph has a link for each dependency,
to the last member that is navigated, and a link for each hop, to what the hop is a member of. Of
the members that are written alike only the first has a hop, and none has that bears a declared
name; so a chain of hops need not end at the target of the dependency that it starts from.

## Main definitions

* `Member`, `ModuleDecl.members` — the members that are navigated.
* `ModuleDecl.hops` — those of them that become hops.
* `ModuleDecl.Closed` — whether all dependencies are on declared names.
* `Wiring.linksOf` — the links of dependencies in order, with those of the hops that they add.
* `Wiring.placed` — the dependencies that get a link, in modules that need not be closed.
* `Graph.Leads` — the links of a graph, as a relation of names.
* `ModuleDecl.LeadsTo` — the chains of hops.

A chain that starts from a dependency of a closed module ends at one declared name.
-/

namespace Injection

open Relation

/-! ## Keeping the first -/

section KeepFirst

variable {α κ : Type} [DecidableEq κ] (keyOf : α → κ)

/-- Which keys are seen matters, not how they are listed. -/
theorem keepFirst_congr {seen seen' : List κ} (h : ∀ key, key ∈ seen ↔ key ∈ seen')
    (list : List α) : keepFirst keyOf seen list = keepFirst keyOf seen' list := by
  induction list generalizing seen seen' with
  | nil => rfl
  | cons a rest ih =>
    have hcons : ∀ key, key ∈ keyOf a :: seen ↔ key ∈ keyOf a :: seen' := by
      intro key
      rw [List.mem_cons, List.mem_cons, h key]
    rw [keepFirst, keepFirst, ih h, ih hcons]
    exact if_congr (h (keyOf a)) rfl rfl

/-- What is kept of a list hides what comes after it. -/
theorem keepFirst_append (seen : List κ) (xs ys : List α) :
    keepFirst keyOf seen (xs ++ ys) =
      keepFirst keyOf seen xs ++
        keepFirst keyOf (seen ++ (keepFirst keyOf seen xs).map keyOf) ys := by
  induction xs generalizing seen with
  | nil => simp [keepFirst]
  | cons a rest ih =>
    rw [List.cons_append, keepFirst, keepFirst]
    split
    · exact ih seen
    · rw [ih, List.cons_append]
      congr 2
      refine keepFirst_congr keyOf (fun key => ?_) ys
      simp only [List.map_cons, List.mem_cons, List.mem_append]
      tauto

end KeepFirst

/-! ## Members -/

/-- A member that is navigated: what `owner` leads to by the path `walked`, and one segment more. -/
structure Member where
  owner : QualifiedName
  walked : List String
  segment : String

namespace Member

def name (x : Member) : String := (x.owner.member (x.walked ++ [x.segment])).rendered

/-- The written name of what a member is a member of. -/
def parent (x : Member) : String := (x.owner.member x.walked).rendered

def link (x : Member) : Link := ⟨x.name, x.parent, Graph.nestedLabel, true⟩

def along (owner : QualifiedName) (walked : List String) : List String → List Member
  | [] => []
  | segment :: rest => ⟨owner, walked, segment⟩ :: along owner (walked ++ [segment]) rest

theorem name_eq (x : Member) : x.name = x.parent ++ "." ++ x.segment := by
  simp [name, parent, QualifiedName.rendered, QualifiedName.member, String.append_assoc]

theorem length_parent_lt (x : Member) : x.parent.length < x.name.length := by
  have hdot : ".".length = 1 := rfl
  rw [name_eq, String.length_append, String.length_append, hdot]
  omega

variable {x : Member} {owner : QualifiedName} {walked rest : List String}

/-- A member is one of the start of the path, or of a member before it. -/
theorem parent_of_mem_along (h : x ∈ along owner walked rest) :
    x.parent = (owner.member walked).rendered ∨
      x.parent ∈ (along owner walked rest).map name := by
  induction rest generalizing walked with
  | nil => cases h
  | cons segment rest ih =>
    rcases List.mem_cons.mp h with rfl | h
    · exact .inl rfl
    · rcases ih h with hstart | hmem
      · exact .inr (List.mem_map.mpr ⟨_, List.mem_cons_self, hstart.symm⟩)
      · exact .inr (List.mem_cons_of_mem _ hmem)

/-- What a path leads to is its start or a member along it. -/
theorem rendered_member_append (owner : QualifiedName) (walked rest : List String) :
    (owner.member (walked ++ rest)).rendered = (owner.member walked).rendered ∨
      (owner.member (walked ++ rest)).rendered ∈ (along owner walked rest).map name := by
  induction rest generalizing walked with
  | nil => exact .inl (by rw [List.append_nil])
  | cons segment rest ih =>
    rw [List.append_cons, along, List.map_cons]
    rcases ih (walked ++ [segment]) with hstart | hmem
    · exact .inr (hstart ▸ List.mem_cons_self)
    · exact .inr (List.mem_cons_of_mem _ hmem)

theorem of_mem_along (h : x ∈ along owner walked rest) :
    x.owner = owner ∧ x.walked ++ [x.segment] <+: walked ++ rest := by
  induction rest generalizing walked with
  | nil => cases h
  | cons segment rest ih =>
    have hassoc : walked ++ segment :: rest = (walked ++ [segment]) ++ rest := by simp
    rw [hassoc]
    rcases List.mem_cons.mp h with rfl | h
    · exact ⟨rfl, List.prefix_append _ _⟩
    · exact ih h

theorem exists_mem_along {segment : String} (h : segment ∈ rest) :
    ∃ x ∈ along owner walked rest, x.owner = owner ∧ x.segment = segment := by
  induction rest generalizing walked with
  | nil => cases h
  | cons first rest ih =>
    rcases List.mem_cons.mp h with rfl | h
    · exact ⟨_, List.mem_cons_self, rfl, rfl⟩
    · obtain ⟨x, hx, howner, hsegment⟩ := ih h
      exact ⟨x, List.mem_cons_of_mem _ hx, howner, hsegment⟩

end Member

def Dependency.members (dependency : Dependency) : List Member :=
  Member.along dependency.target [] dependency.path

/-- The written name that a dependency leads to: that of the last member, or of the target. -/
def Dependency.reference (dependency : Dependency) : String :=
  (dependency.target.member dependency.path).rendered

namespace ModuleDecl

def declared (m : ModuleDecl) : List String := m.declaredNames.map QualifiedName.rendered

/-- The dependencies, each with the written name of its bean. -/
def uses (m : ModuleDecl) : List (String × Dependency) :=
  m.beans.flatMap fun bean => bean.dependencies.map (bean.name.rendered, ·)

/-- The members that are navigated, in order. -/
def members (m : ModuleDecl) : List Member := m.uses.flatMap (·.2.members)

/-- The members that become hops: of those that bear no declared name, the first of each name. -/
def hops (m : ModuleDecl) : List Member := keepFirst Member.name m.declared m.members

/-- Whether all dependencies are on declared names. -/
def Closed (m : ModuleDecl) : Prop := ∀ use ∈ m.uses, use.2.target.rendered ∈ m.declared

theorem mem_uses_iff {m : ModuleDecl} {source : String} {dependency : Dependency} :
    (source, dependency) ∈ m.uses ↔
      ∃ bean ∈ m.beans, dependency ∈ bean.dependencies ∧ bean.name.rendered = source := by
  simp [uses, and_comm]

theorem mem_members_iff {m : ModuleDecl} {x : Member} : x ∈ m.members ↔
    ∃ bean ∈ m.beans, ∃ dependency ∈ bean.dependencies, x ∈ dependency.members := by
  simp only [members, List.mem_flatMap, Prod.exists, mem_uses_iff]
  constructor
  · rintro ⟨_, dependency, ⟨bean, hb, hd, -⟩, hx⟩
    exact ⟨bean, hb, dependency, hd, hx⟩
  · rintro ⟨bean, hb, dependency, hd, hx⟩
    exact ⟨_, dependency, ⟨bean, hb, hd, rfl⟩, hx⟩

end ModuleDecl

/-! ## Links -/

namespace Wiring

variable {w : Wiring} {uses : List (String × Dependency)}

/-- Hops are added for the first of the members of each new name. -/
theorem addHops_eq (w : Wiring) (owner : QualifiedName) (walked rest : List String) :
    w.addHops owner walked rest =
      ⟨w.names ++ (keepFirst Member.name w.names (Member.along owner walked rest)).map Member.name,
        w.links ++ (keepFirst Member.name w.names (Member.along owner walked rest)).map
          Member.link⟩ := by
  induction rest generalizing w walked with
  | nil => simp [addHops, Member.along, keepFirst]
  | cons segment rest ih =>
    let x : Member := ⟨owner, walked, segment⟩
    have hstep : w.addHops owner walked (segment :: rest) =
        if x.name ∈ w.names then w.addHops owner (walked ++ [segment]) rest
        else (Wiring.mk (w.names ++ [x.name]) (w.links ++ [x.link])).addHops owner
          (walked ++ [segment]) rest := by
      rw [addHops]
      rfl
    rw [hstep, show Member.along owner walked (segment :: rest) = x :: _ from rfl, keepFirst]
    split
    · exact ih w (walked ++ [segment])
    · have hseen : ∀ key, key ∈ w.names ++ [x.name] ↔ key ∈ x.name :: w.names := by
        intro key
        rw [List.mem_append, List.mem_singleton, List.mem_cons, or_comm]
      rw [ih, keepFirst_congr Member.name hseen]
      simp

/-- The links of dependencies in order, each behind those of the hops that it adds. -/
def linksOf (seen : List String) : List (String × Dependency) → List Link
  | [] => []
  | use :: rest =>
    let hops := keepFirst Member.name seen use.2.members
    hops.map Member.link ++ linkTo use.1 use.2 :: linksOf (seen ++ hops.map Member.name) rest

theorem linksOf_append (seen : List String) (front back : List (String × Dependency)) :
    linksOf seen (front ++ back) = linksOf seen front ++
      linksOf (seen ++
        (keepFirst Member.name seen (front.flatMap (·.2.members))).map Member.name) back := by
  induction front generalizing seen with
  | nil => simp [linksOf, keepFirst]
  | cons use front ih =>
    rw [List.cons_append, linksOf, linksOf, ih, List.flatMap_cons, keepFirst_append]
    simp only [List.map_append, List.append_assoc, List.cons_append]

theorem filter_nested_linksOf (seen : List String) (uses : List (String × Dependency)) :
    (linksOf seen uses).filter (·.nested) =
      (keepFirst Member.name seen (uses.flatMap (·.2.members))).map Member.link := by
  induction uses generalizing seen with
  | nil => rfl
  | cons use uses ih =>
    rw [linksOf, List.filter_append, List.filter_cons_of_neg (by simp [linkTo]), ih,
      List.flatMap_cons, keepFirst_append, List.map_append]
    simp [List.filter_map, Function.comp_def, Member.link]

theorem filter_direct_linksOf (seen : List String) (uses : List (String × Dependency)) :
    (linksOf seen uses).filter (!·.nested) = uses.map fun use => linkTo use.1 use.2 := by
  induction uses generalizing seen with
  | nil => rfl
  | cons use uses ih =>
    rw [linksOf, List.filter_append, List.filter_cons_of_pos (by simp [linkTo]), ih, List.map_cons]
    simp [List.filter_map, Function.comp_def, Member.link]

theorem mem_linksOf_iff {seen : List String} {link : Link} : link ∈ linksOf seen uses ↔
    link ∈ (keepFirst Member.name seen (uses.flatMap (·.2.members))).map Member.link ∨
      link ∈ uses.map fun use => linkTo use.1 use.2 := by
  rw [← filter_nested_linksOf, ← filter_direct_linksOf seen, List.mem_filter, List.mem_filter]
  cases link.nested <;> simp

/-! ## Dependencies that get a link -/

/-- Dependencies in order, each with whether its target is known when it comes up. One whose target
is known makes the members that it navigates known, too. -/
def placements (known : List String) :
    List (String × Dependency) → List ((String × Dependency) × Bool)
  | [] => []
  | use :: rest =>
    if use.2.target.rendered ∈ known then
      (use, true) :: placements (known ++ use.2.members.map Member.name) rest
    else (use, false) :: placements known rest

/-- The dependencies whose targets are known when they come up. -/
def placed (known : List String) (uses : List (String × Dependency)) :
    List (String × Dependency) :=
  ((placements known uses).filter (·.2)).map (·.1)

/-- Which names are known matters, not how they are listed. -/
theorem placements_congr {known known' : List String} (h : ∀ name, name ∈ known ↔ name ∈ known')
    (uses : List (String × Dependency)) : placements known uses = placements known' uses := by
  induction uses generalizing known known' with
  | nil => rfl
  | cons use rest ih =>
    have hgrown : ∀ name, name ∈ known ++ use.2.members.map Member.name ↔
        name ∈ known' ++ use.2.members.map Member.name := by
      grind
    rw [placements, placements, ih h, ih hgrown]
    exact if_congr (h _) rfl rfl

theorem placed_cons_of_mem {known : List String} {use : String × Dependency}
    (h : use.2.target.rendered ∈ known) (uses : List (String × Dependency)) :
    placed known (use :: uses) =
      use :: placed (known ++ use.2.members.map Member.name) uses := by
  simp [placed, placements, h]

theorem placed_cons_of_notMem {known : List String} {use : String × Dependency}
    (h : use.2.target.rendered ∉ known) (uses : List (String × Dependency)) :
    placed known (use :: uses) = placed known uses := by
  simp [placed, placements, h]

theorem placed_eq_self {known : List String} (h : ∀ use ∈ uses, use.2.target.rendered ∈ known) :
    placed known uses = uses := by
  induction uses generalizing known with
  | nil => rfl
  | cons use uses ih =>
    obtain ⟨hfirst, hrest⟩ := List.forall_mem_cons.mp h
    rw [placed_cons_of_mem hfirst, ih fun other ho => List.mem_append_left _ (hrest other ho)]

/-- Those names are known that had nodes, and those of the members that have been navigated. -/
theorem addDependency_of_mem {use : String × Dependency} (h : use.2.target.rendered ∈ w.names) :
    w.addDependency use.1 use.2 =
        ⟨w.names ++ (keepFirst Member.name w.names use.2.members).map Member.name,
          w.links ++ (keepFirst Member.name w.names use.2.members).map Member.link ++
            [linkTo use.1 use.2]⟩ ∧
      ∀ name, name ∈ (w.addDependency use.1 use.2).names ↔
        name ∈ w.names ++ use.2.members.map Member.name := by
  have heq : w.addDependency use.1 use.2 =
      ⟨w.names ++ (keepFirst Member.name w.names use.2.members).map Member.name,
        w.links ++ (keepFirst Member.name w.names use.2.members).map Member.link ++
          [linkTo use.1 use.2]⟩ := by
    rw [addDependency, if_pos h, addHops_eq]
    rfl
  refine ⟨heq, fun name => ?_⟩
  rw [heq, List.mem_append, List.mem_append, mem_map_keepFirst]
  tauto

/-- Every dependency that is placed adds its link and its hops, and the others add nothing. -/
theorem foldl_addDependency (w : Wiring) (uses : List (String × Dependency)) :
    uses.foldl (fun w use => w.addDependency use.1 use.2) w =
      ⟨w.names ++ (keepFirst Member.name w.names
          ((placed w.names uses).flatMap (·.2.members))).map Member.name,
        w.links ++ linksOf w.names (placed w.names uses)⟩ := by
  induction uses generalizing w with
  | nil => simp [placed, placements, keepFirst, linksOf]
  | cons use uses ih =>
    rw [List.foldl_cons, ih]
    by_cases h : use.2.target.rendered ∈ w.names
    · obtain ⟨hstep, hnames⟩ := addDependency_of_mem h
      have hrest : placed (w.addDependency use.1 use.2).names uses =
          placed (w.names ++ use.2.members.map Member.name) uses := by
        rw [placed, placements_congr hnames]
        rfl
      rw [hrest, hstep, placed_cons_of_mem h, linksOf, List.flatMap_cons, keepFirst_append]
      simp only [List.map_append, List.append_assoc, List.singleton_append]
    · rw [placed_cons_of_notMem h, addDependency, if_neg h]

theorem foldl_addBean (m : ModuleDecl) (w : Wiring) :
    m.beans.foldl addBean w = m.uses.foldl (fun w use => w.addDependency use.1 use.2) w := by
  rw [ModuleDecl.uses, List.foldl_flatMap]
  simp only [List.foldl_map]
  rfl

theorem ofDeclarations_spec (m : ModuleDecl) :
    (∀ name, name ∈ (ofDeclarations m).names ↔ name ∈ m.declared) ∧
      (ofDeclarations m).links = [] := by
  have hfold : ∀ (names : List String) (w : Wiring),
      (∀ name, name ∈ (names.foldl addName w).names ↔ name ∈ w.names ∨ name ∈ names) ∧
        (names.foldl addName w).links = w.links := by
    intro names
    induction names with
    | nil => simp
    | cons first rest ih =>
      intro w
      obtain ⟨hnames, hlinks⟩ := ih (w.addName first)
      rw [List.foldl_cons]
      refine ⟨fun name => ?_, hlinks.trans ?_⟩
      · rw [hnames, addName]
        split <;> grind
      · rw [addName]
        split <;> rfl
  simpa [ofDeclarations, ModuleDecl.declared] using hfold m.declared ⟨[], []⟩

theorem names_foldl_addName {names : List String} (hnodup : (w.names ++ names).Nodup) :
    (names.foldl addName w).names = w.names ++ names := by
  induction names generalizing w with
  | nil => simp
  | cons first rest ih =>
    have hnew : first ∉ w.names := fun hm =>
      (List.nodup_append.mp hnodup).2.2 first hm first List.mem_cons_self rfl
    have hstep : w.addName first = ⟨w.names ++ [first], w.links⟩ := if_neg hnew
    rw [List.append_cons] at hnodup ⊢
    rw [List.foldl_cons, hstep]
    exact ih hnodup

theorem build_spec {m : ModuleDecl} (hm : m.Closed) :
    (∀ name, name ∈ (build m).names ↔ name ∈ m.declared ∨ name ∈ m.hops.map Member.name) ∧
      ∀ link, link ∈ (build m).links ↔ link ∈ m.hops.map Member.link ∨
        link ∈ m.uses.map fun use => linkTo use.1 use.2 := by
  obtain ⟨hdeclared, hnone⟩ := ofDeclarations_spec m
  have hhops : keepFirst Member.name (ofDeclarations m).names m.members = m.hops :=
    keepFirst_congr Member.name hdeclared m.members
  have hknown : ∀ use ∈ m.uses, use.2.target.rendered ∈ (ofDeclarations m).names :=
    fun use hu => (hdeclared _).mpr (hm use hu)
  rw [build, foldl_addBean, foldl_addDependency, placed_eq_self hknown]
  refine ⟨fun name => ?_, fun link => ?_⟩
  · rw [List.mem_append, hdeclared]
    exact or_congr_right (hhops ▸ Iff.rfl)
  · rw [hnone, List.nil_append, mem_linksOf_iff]
    exact or_congr_left (hhops ▸ Iff.rfl)

end Wiring

namespace ModuleDecl

variable {m : ModuleDecl}

theorem Closed.mem_written_iff (hm : m.Closed) {name : String} :
    name ∈ (Graph.build m).written ↔ name ∈ m.declared ∨ name ∈ m.hops.map Member.name := by
  rw [← (Wiring.build_spec hm).1, ← Graph.wiring_build]
  rfl

/-- If the declared names are different they are numbered first, as they are declared, and the links
are those of the dependencies in order, each behind those of the hops that it adds. -/
theorem Closed.wiring_eq (hm : m.Closed) (hnodup : m.declared.Nodup) :
    (Graph.build m).wiring =
      ⟨m.declared ++ m.hops.map Member.name, Wiring.linksOf m.declared m.uses⟩ := by
  have hdeclared : (Wiring.ofDeclarations m).names = m.declared :=
    Wiring.names_foldl_addName (w := ⟨[], []⟩) hnodup
  have hknown : ∀ use ∈ m.uses, use.2.target.rendered ∈ (Wiring.ofDeclarations m).names :=
    fun use hu => hdeclared ▸ hm use hu
  rw [Graph.wiring_build, Wiring.build, Wiring.foldl_addBean, Wiring.foldl_addDependency,
    Wiring.placed_eq_self hknown, hdeclared, (Wiring.ofDeclarations_spec m).2]
  rfl

theorem Closed.written_eq (hm : m.Closed) (hnodup : m.declared.Nodup) :
    (Graph.build m).written = m.declared ++ m.hops.map Member.name :=
  congrArg Wiring.names (hm.wiring_eq hnodup)

/-- The links of the graph of a closed module: those of the hops and those of the dependencies. -/
theorem Closed.mem_links_iff (hm : m.Closed) {link : Link} :
    link ∈ (Graph.build m).links ↔ link ∈ m.hops.map Member.link ∨
      link ∈ m.uses.map fun use => Wiring.linkTo use.1 use.2 := by
  rw [← (Wiring.build_spec hm).2, ← Graph.wiring_build]
  rfl

end ModuleDecl

/-- Whether a link of a graph leads from a name to a name. -/
def Graph.Leads (g : Graph) (a b : String) : Prop :=
  ∃ link ∈ g.links, link.source = a ∧ link.target = b

/-! ## Chains of hops -/

namespace ModuleDecl

variable {m : ModuleDecl} {a b e e' : String}

/-- Whether a name is that of a hop, and the other that of what the hop is a member of. -/
def HopsTo (m : ModuleDecl) (a b : String) : Prop := ∃ hop ∈ m.hops, hop.name = a ∧ hop.parent = b

/-- Whether a chain of hops leads from a name to a name. -/
abbrev LeadsTo (m : ModuleDecl) : String → String → Prop := ReflTransGen m.HopsTo

/-- A name of a closed module leads on as a hop, or as a bean with a dependency. -/
theorem Closed.leads_iff (hm : m.Closed) : (Graph.build m).Leads a b ↔
    m.HopsTo a b ∨ ∃ dependency, (a, dependency) ∈ m.uses ∧ dependency.reference = b := by
  simp only [Graph.Leads, hm.mem_links_iff, List.mem_map]
  constructor
  · rintro ⟨_, ⟨hop, hhop, rfl⟩ | ⟨⟨source, dependency⟩, hu, rfl⟩, rfl, rfl⟩
    · exact .inl ⟨hop, hhop, rfl, rfl⟩
    · exact .inr ⟨dependency, hu, rfl⟩
  · rintro (⟨hop, hhop, rfl, rfl⟩ | ⟨dependency, hu, rfl⟩)
    · exact ⟨hop.link, .inl ⟨hop, hhop, rfl⟩, rfl, rfl⟩
    · exact ⟨Wiring.linkTo a dependency, .inr ⟨(a, dependency), hu, rfl⟩, rfl, rfl⟩

theorem Closed.leads_of_leadsTo (hm : m.Closed) (h : m.LeadsTo a b) :
    ReflTransGen (Graph.build m).Leads a b :=
  ReflTransGen.mono (fun _ _ hop => hm.leads_iff.mpr (.inl hop)) a b h

theorem rightUnique_hopsTo (m : ModuleDecl) : Relator.RightUnique m.HopsTo := by
  rintro a b b' ⟨x, hx, rfl, rfl⟩ ⟨y, hy, hxy, rfl⟩
  rw [List.inj_on_of_nodup_map (nodup_map_keepFirst _ _ _) hx hy hxy.symm]

theorem not_hopsTo_of_mem_declared (ha : a ∈ m.declared) : ¬ m.HopsTo a b := by
  rintro ⟨x, hx, rfl, -⟩
  exact keyOf_notMem_of_mem_keepFirst _ hx ha

theorem LeadsTo.eq_of_mem_declared (h : m.LeadsTo a b) (ha : a ∈ m.declared) : a = b := by
  cases h using ReflTransGen.head_induction_on with
  | refl => rfl
  | head hstep => exact absurd hstep (not_hopsTo_of_mem_declared ha)

theorem LeadsTo.unique (h : m.LeadsTo a e) (h' : m.LeadsTo a e') (he : e ∈ m.declared)
    (he' : e' ∈ m.declared) : e = e' := by
  rcases ReflTransGen.total_of_right_unique m.rightUnique_hopsTo h h' with h | h
  · exact LeadsTo.eq_of_mem_declared h he
  · exact (LeadsTo.eq_of_mem_declared h he').symm

/-- What a member is a member of is declared, or is a member itself. -/
theorem Closed.parent_mem (hm : m.Closed) {x : Member} (hx : x ∈ m.members) :
    x.parent ∈ m.declared ∨ x.parent ∈ m.members.map Member.name := by
  obtain ⟨use, huse, hx⟩ := List.mem_flatMap.mp hx
  rcases Member.parent_of_mem_along hx with hstart | hmem
  · exact .inl (hstart ▸ hm use huse)
  · obtain ⟨y, hy, hname⟩ := List.mem_map.mp hmem
    exact .inr (List.mem_map.mpr ⟨y, List.mem_flatMap.mpr ⟨use, huse, hy⟩, hname⟩)

/-- Every chain of a closed module comes to an end: the names on it become shorter. -/
theorem Closed.exists_leadsTo (hm : m.Closed)
    (ha : a ∈ m.declared ∨ a ∈ m.members.map Member.name) : ∃ e ∈ m.declared, m.LeadsTo a e := by
  induction hn : a.length using Nat.strongRecOn generalizing a with
  | ind n ih =>
    by_cases hdeclared : a ∈ m.declared
    · exact ⟨a, hdeclared, .refl⟩
    · have hkept : a ∈ m.hops.map Member.name :=
        (mem_map_keepFirst _).mpr ⟨ha.resolve_left hdeclared, hdeclared⟩
      obtain ⟨hop, hhop, rfl⟩ := List.mem_map.mp hkept
      have hmember : hop ∈ m.members := (keepFirst_sublist _ _ _).mem hhop
      obtain ⟨e, he, hleads⟩ :=
        ih _ (hn ▸ hop.length_parent_lt) (hm.parent_mem hmember) rfl
      exact ⟨e, he, .head ⟨hop, hhop, rfl, rfl⟩ hleads⟩

/-- The chain of every dependency of a closed module ends at a declared name. -/
theorem Closed.exists_reference_leadsTo (hm : m.Closed) {use : String × Dependency}
    (hu : use ∈ m.uses) : ∃ e ∈ m.declared, m.LeadsTo use.2.reference e := by
  refine hm.exists_leadsTo ?_
  have hmember := Member.rendered_member_append use.2.target [] use.2.path
  rw [List.nil_append, QualifiedName.member_nil] at hmember
  rw [Dependency.reference]
  rcases hmember with hstart | hmem
  · rw [hstart]
    exact .inl (hm use hu)
  · obtain ⟨x, hx, hname⟩ := List.mem_map.mp hmem
    exact .inr (List.mem_map.mpr ⟨x, List.mem_flatMap.mpr ⟨use, hu, hx⟩, hname⟩)

end ModuleDecl

end Injection
