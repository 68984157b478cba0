import Injection.Proofs.Cycles
import Injection.Proofs.Discovery
import Injection.Proofs.Exploration
import Injection.Proofs.Links

/-!
# The listed cycles stand component by component

The search starts at every node that is on a cycle, lowest first, and leaves out the nodes that it
has started at before. All cycles of a component are recorded when it starts at the lowest node of
the component: no node of the component has been left out yet, and the node leads to each of them.
The other nodes of the component add nothing. So the cycles of a component stand together, the
components in the order of their lowest nodes, and nothing changes if no node is left out.

## Main definitions

* `Graph.Mutual`, `Graph.Within` — the nodes of a component, and its loops.
* `Graph.IsLowest` — the lowest node of a component.
* `Graph.records` — what is recorded at each start.
-/

namespace Injection

open Relation

/-! ## Keeping the first -/

section KeepFirst

variable {α κ : Type} [DecidableEq κ] {keyOf : α → κ} {seen : List κ} {list : List α}

theorem keepFirst_eq_nil (h : ∀ a ∈ list, keyOf a ∈ seen) : keepFirst keyOf seen list = [] := by
  have hkeys : (keepFirst keyOf seen list).map keyOf = [] := by
    refine List.eq_nil_iff_forall_not_mem.mpr fun key hkey => ?_
    obtain ⟨hlist, hnew⟩ := (mem_map_keepFirst keyOf).mp hkey
    obtain ⟨a, ha, rfl⟩ := List.mem_map.mp hlist
    exact hnew (h a ha)
  exact List.map_eq_nil_iff.mp hkeys

/-- Keys that the list does not have make no difference. -/
theorem keepFirst_eq_distinctBy (h : ∀ a ∈ list, keyOf a ∉ seen) :
    keepFirst keyOf seen list = distinctBy keyOf list := by
  have hdrop : ∀ own : List κ, keepFirst keyOf (own ++ seen) list = keepFirst keyOf own list := by
    induction list with
    | nil => exact fun _ => rfl
    | cons a rest ih =>
      obtain ⟨ha, hrest⟩ := List.forall_mem_cons.mp h
      intro own
      rw [keepFirst, keepFirst, ih hrest own, ← List.cons_append, ih hrest (keyOf a :: own)]
      exact if_congr (by simp [ha]) rfl rfl
  exact hdrop []

end KeepFirst

namespace Graph

variable {g : Graph} {i j l s : Nat} {exhausted : List Nat} {loop loop' : List Edge}

/-! ## Components and their lowest nodes -/

/-- Whether two nodes reach each other. -/
def Mutual (g : Graph) (i j : Nat) : Prop := g.Reaches i j ∧ g.Reaches j i

/-- Whether a node is the lowest of those that it reaches and that reach it, itself among them. -/
def IsLowest (g : Graph) (i : Nat) : Prop := g.Reaches i i ∧ ∀ j, g.Mutual i j → i ≤ j

/-- Whether a loop is in the component of a node. -/
def Within (g : Graph) (i : Nat) (loop : List Edge) : Prop := ∀ e ∈ loop, g.Mutual i e.source

theorem Mutual.symm (h : g.Mutual i j) : g.Mutual j i := ⟨h.2, h.1⟩

theorem Mutual.trans (h : g.Mutual i j) (h' : g.Mutual j l) : g.Mutual i l :=
  ⟨h.1.trans h'.1, h'.2.trans h.2⟩

theorem Mutual.refl_left (h : g.Mutual i j) : g.Reaches i i := h.1.trans h.2

namespace Sound

theorem lt_of_reaches (hs : g.Sound) (h : g.Reaches i j) : i < g.order := by
  obtain ⟨_, ⟨e, he, rfl, -⟩, -⟩ := TransGen.head'_iff.mp h
  exact hs.source_lt e he

theorem leader?_eq_some_iff (hs : g.Sound) :
    g.leader? i = some l ↔ g.Mutual i l ∧ ∀ j, g.Mutual i j → l ≤ j := by
  have hmutual : ∀ j, (decide (j ∈ g.reached i) && decide (i ∈ g.reached j)) = true ↔
      g.Mutual i j := by
    simp [Mutual, hs.mem_reached_iff]
  rw [leader?]
  split
  · rw [List.find?_range_eq_some, hmutual, List.mem_range]
    constructor
    · rintro ⟨h, -, hleast⟩
      refine ⟨h, fun j hj => ?_⟩
      by_contra hlt
      simpa [(hmutual j).mpr hj] using hleast j (Nat.lt_of_not_le hlt)
    · rintro ⟨h, hleast⟩
      refine ⟨h, hs.lt_of_reaches h.2, fun j hlt => ?_⟩
      rw [Bool.not_eq_true', Bool.eq_false_iff, Ne, hmutual]
      exact fun hj => Nat.not_le_of_lt hlt (hleast j hj)
  · next hno =>
    refine iff_of_false (Option.some_ne_none l).symm fun h => hno ?_
    exact hs.mem_reached_iff.mpr h.1.refl_left

theorem isLowest_iff (hs : g.Sound) : g.IsLowest i ↔ g.leader? i = some i :=
  (and_congr_left fun _ => ⟨fun h => ⟨h, h⟩, And.left⟩).trans hs.leader?_eq_some_iff.symm

/-- Every node that reaches itself has a lowest node in its component. -/
theorem exists_isLowest (hs : g.Sound) (h : g.Reaches i i) : ∃ l, g.IsLowest l ∧ g.Mutual i l := by
  obtain ⟨l, hl⟩ := Option.isSome_iff_exists.mp ((hs.isSome_leader?_iff (hs.lt_of_reaches h)).mpr h)
  obtain ⟨hmutual, hleast⟩ := hs.leader?_eq_some_iff.mp hl
  exact ⟨l, ⟨hmutual.symm.refl_left, fun j hj => hleast j (hmutual.trans hj)⟩, hmutual⟩

theorem mutual_iff_leader? (hs : g.Sound) (h : g.Reaches i i) :
    g.Mutual i j ↔ g.leader? i = g.leader? j := by
  refine ⟨fun hij => hs.leader?_eq hij.1 hij.2, fun he => ?_⟩
  obtain ⟨l, hl⟩ := Option.isSome_iff_exists.mp ((hs.isSome_leader?_iff (hs.lt_of_reaches h)).mpr h)
  have hi := (hs.leader?_eq_some_iff.mp hl).1
  have hj := (hs.leader?_eq_some_iff.mp (he ▸ hl)).1
  exact hi.trans hj.symm

theorem follows_iff (hs : g.Sound) {e : Edge} (he : e ∈ g.edges) :
    follows g.components exhausted e = true ↔
      g.leader? e.source = g.leader? e.target ∧ e.target ∉ exhausted := by
  rw [follows_eq_true_iff, getElem?_components (hs.source_lt e he),
    getElem?_components (hs.target_lt e he), Option.some_inj]

/-! ## The searches from the nodes of a component -/

/-- An edge that may be followed stays in its component. -/
theorem mutual_target (hs : g.Sound) (hi : g.Reaches i i) :
    ∀ e ∈ g.followed g.components exhausted, g.Mutual i e.source → g.Mutual i e.target := by
  intro e he hsource
  obtain ⟨he, hfollows⟩ := List.mem_filter.mp he
  rw [hs.mutual_iff_leader? hi] at hsource ⊢
  exact hsource.trans ((hs.follows_iff he).mp hfollows).1

/-- The search from a node gives out loops of its component only. -/
theorem within_of_mem_loopsFrom (hs : g.Sound) (hi : g.Reaches i i)
    (h : loop ∈ g.loopsFrom g.components exhausted i) : g.Within i loop :=
  Search.inside_of_mem_loops (hs.mutual_target hi) ⟨hi, hi⟩ h

/-- To leave out nodes of other components makes no difference. -/
theorem loopsFrom_eq (hs : g.Sound) (hi : g.Reaches i i)
    (hother : ∀ j, g.Mutual i j → j ∉ exhausted) :
    g.loopsFrom g.components exhausted i = g.loopsFrom g.components [] i := by
  refine Search.loops_congr (hs.mutual_target hi) (fun j hj => ?_) ⟨hi, hi⟩
  refine (leaving_followed j).trans (.trans ?_ (leaving_followed j).symm)
  refine List.filter_congr fun e he => ?_
  obtain ⟨hmem, hsource⟩ := List.mem_filter.mp he
  obtain rfl : e.source = j := by simpa using hsource
  rw [Bool.eq_iff_iff, hs.follows_iff hmem, hs.follows_iff hmem]
  refine and_congr_right fun hleader => iff_of_true (hother _ ?_) List.not_mem_nil
  exact (hs.mutual_iff_leader? hi).mpr (((hs.mutual_iff_leader? hi).mp hj).trans hleader)

/-- A node leads to the other nodes of its component within the component. -/
theorem reflTransGen_follows (hs : g.Sound) (h : ReflTransGen (Adjacent g.edges) i j)
    (hback : g.Reaches j i) :
    ReflTransGen (Adjacent (g.followed g.components [])) i j := by
  induction h with
  | refl => exact .refl
  | tail h hadj ih =>
    refine (ih (.head hadj hback)).tail ?_
    have hleader := hs.leader?_eq (.single hadj) (hback.trans_left h)
    obtain ⟨e, he, rfl, rfl⟩ := hadj
    exact ⟨e, List.mem_filter.mpr ⟨he, (hs.follows_iff he).mpr ⟨hleader, by simp⟩⟩, rfl, rfl⟩

/-- The search from any node of a component, if it leaves out none, finds all loops of the
component. -/
theorem exists_mem_loopsFrom (hs : g.Sound) (h : IsLoop g.edges loop) (hin : g.Within i loop) :
    ∃ found ∈ g.loopsFrom g.components [] i, found ~r loop := by
  obtain ⟨e, he⟩ := List.exists_mem_of_ne_nil loop h.nonempty
  have hfollows : ∀ f ∈ loop, f ∈ g.followed g.components [] := by
    intro f hf
    obtain ⟨f', hf', hnext⟩ := h.exists_source_eq_target hf
    have hleader := hs.leader?_eq (h.transGen hf hf') (h.transGen hf' hf)
    have hmem := h.mem_edges hf
    exact List.mem_filter.mpr ⟨hmem, (hs.follows_iff hmem).mpr ⟨hnext ▸ hleader, by simp⟩⟩
  refine Search.exists_mem_loops (fun f hf => hs.target_lt f (List.mem_filter.mp hf).1)
    (h.of_forall_mem hfollows) he ?_
  exact hs.reflTransGen_follows (hin e he).1.to_reflTransGen (hin e he).2

end Sound

/-! ## What is recorded at each start -/

/-- The key by which cycles are told apart. -/
def loopKey (loop : List Edge) : CycleKey := (Cycle.keyOf loop).canonical

theorem loopKey_eq_iff {edges : List Edge} (h : IsLoop edges loop) :
    loopKey loop = loopKey loop' ↔ Cycle.keyOf loop ~r Cycle.keyOf loop' :=
  CycleKey.canonical_eq_iff (nodup_keyOf h)

/-- For each start the loops that are found and have not been recorded before. What is found may
depend on the earlier starts. -/
def records (find : List Nat → Nat → List (List Edge)) (seen : List CycleKey)
    (exhausted : List Nat) : List Nat → List (Nat × List (List Edge))
  | [] => []
  | node :: rest =>
    let new := keepFirst loopKey seen (find exhausted node)
    (node, new) :: records find (seen ++ new.map loopKey) (node :: exhausted) rest

theorem isLoop_of_mem_loopsFrom {components : List (Option Nat)}
    (h : loop ∈ g.loopsFrom components exhausted i) : IsLoop g.edges loop := by
  have hloop := Search.isLoop_of_mem_loops h
  exact hloop.of_forall_mem fun e he => (List.mem_filter.mp (hloop.mem_edges he)).1

theorem flatMap_records (components : List (Option Nat)) (seen : List CycleKey)
    (exhausted nodes : List Nat) :
    (records (g.loopsFrom components) seen exhausted nodes).flatMap Prod.snd =
      keepFirst loopKey seen (g.loopsFromAll components exhausted nodes) := by
  induction nodes generalizing seen exhausted with
  | nil => rfl
  | cons node rest ih => rw [records, List.flatMap_cons, ih, loopsFromAll, keepFirst_append]

/-- Loops of different components have different keys. -/
theorem Within.mutual_of_loopKey_eq (h : g.Within i loop) (h' : g.Within j loop')
    (hloop : IsLoop g.edges loop) (hkey : loopKey loop = loopKey loop') : g.Mutual i j := by
  obtain ⟨e, he⟩ := List.exists_mem_of_ne_nil loop hloop.nonempty
  have hmem : (e.source, e.label) ∈ Cycle.keyOf loop' :=
    ((loopKey_eq_iff hloop).mp hkey).mem_iff.mp (List.mem_map.mpr ⟨e, he, rfl⟩)
  obtain ⟨f, hf, hfe⟩ := List.mem_map.mp hmem
  obtain ⟨hsource, -⟩ := Prod.mk.inj hfe
  exact (h e he).trans (hsource ▸ h' f hf).symm

theorem Sound.loopKey_mem (hs : g.Sound) (h : IsLoop g.edges loop) (hin : g.Within i loop) :
    loopKey loop ∈ (g.loopsFrom g.components [] i).map loopKey := by
  obtain ⟨found, hfound, hr⟩ := hs.exists_mem_loopsFrom h hin
  have hkey := (loopKey_eq_iff (isLoop_of_mem_loopsFrom hfound)).mpr (hr.map _)
  exact List.mem_map.mpr ⟨found, hfound, hkey⟩

/-- What the lowest node of a component records are all loops of the component. -/
theorem Sound.exists_mem_distinctBy (hs : g.Sound) (h : IsLoop g.edges loop)
    (hin : g.Within i loop) :
    ∃ found ∈ distinctBy loopKey (g.loopsFrom g.components [] i),
      Cycle.keyOf found ~r Cycle.keyOf loop := by
  have hkey := (mem_map_keepFirst loopKey).mpr ⟨hs.loopKey_mem h hin, List.not_mem_nil⟩
  obtain ⟨found, hfound, he⟩ := List.mem_map.mp hkey
  exact ⟨found, hfound,
    (loopKey_eq_iff (isLoop_of_mem_loopsFrom ((distinctBy_sublist _ _).mem hfound))).mp he⟩

/-- A loop is in the component of each of its nodes. -/
theorem within_of_isLoop (h : IsLoop g.edges loop) {e : Edge} (he : e ∈ loop) :
    g.Within e.source loop :=
  fun _ hf => ⟨h.transGen he hf, h.transGen hf he⟩

/-- A search that finds loops of the component only, and at the lowest node all that a search
without exhausted nodes finds, records them there, and nothing at the other nodes. -/
theorem Sound.records_eq (hs : g.Sound) (find : List Nat → Nat → List (List Edge))
    (hlowest : ∀ exhausted i, g.IsLowest i → (∀ j, g.Mutual i j → j ∉ exhausted) →
      find exhausted i = g.loopsFrom g.components [] i)
    (hwithin : ∀ exhausted i, g.Reaches i i → ∀ loop ∈ find exhausted i,
      IsLoop g.edges loop ∧ g.Within i loop)
    (front back : List Nat) (hsplit : g.cyclicNodes g.components = front ++ back)
    {seen : List CycleKey} (hseen : ∀ key, key ∈ seen ↔ ∃ l ∈ front, g.IsLowest l ∧
      key ∈ (g.loopsFrom g.components [] l).map loopKey) :
    records find seen front.reverse back = back.map fun i =>
      (i, if g.leader? i = some i then distinctBy loopKey (g.loopsFrom g.components [] i)
        else []) := by
  induction back generalizing front seen with
  | nil => rfl
  | cons i back ih =>
    have hcyclic : ∀ j, j ∈ front ∨ j = i ∨ j ∈ back ↔ j < g.order ∧ g.Reaches j j := by
      intro j
      rw [← hs.mem_cyclicNodes_iff, hsplit, List.mem_append, List.mem_cons]
    have hi : g.Reaches i i := ((hcyclic i).mp (.inr (.inl rfl))).2
    have hascending := pairwise_cyclicNodes (g := g) g.components
    rw [hsplit, List.pairwise_append, List.pairwise_cons] at hascending
    obtain ⟨-, ⟨hbehind, -⟩, hbefore⟩ := hascending
    have hfront : ∀ j ∈ front, j < i := fun j hj => hbefore j hj i List.mem_cons_self
    have hrest : g.cyclicNodes g.components = (front ++ [i]) ++ back := by simpa using hsplit
    rw [records, List.map_cons, ← List.reverse_concat]
    by_cases hlow : g.IsLowest i
    · have hfind := hlowest front.reverse i hlow fun j hj hm =>
        Nat.not_le_of_lt (hfront j (List.mem_reverse.mp hm)) (hlow.2 j hj)
      have hnew : keepFirst loopKey seen (find front.reverse i) =
          distinctBy loopKey (g.loopsFrom g.components [] i) := by
        rw [hfind]
        refine keepFirst_eq_distinctBy fun loop hloop hkey => ?_
        -- a loop that has been recorded is in the component of a lower node
        obtain ⟨l, hl, hlowl, hkey⟩ := (hseen _).mp hkey
        obtain ⟨loop', hloop', he⟩ := List.mem_map.mp hkey
        have hil := (hs.within_of_mem_loopsFrom hi hloop).mutual_of_loopKey_eq
          (hs.within_of_mem_loopsFrom hlowl.1 hloop') (isLoop_of_mem_loopsFrom hloop) he.symm
        exact Nat.not_le_of_lt (hfront l hl) (hlow.2 l hil)
      rw [hnew, if_pos (hs.isLowest_iff.mp hlow), ih _ hrest fun key => ?_]
      rw [distinctBy, List.mem_append, mem_map_keepFirst, hseen]
      simp [or_and_right, exists_or, hlow]
    · have hnew : keepFirst loopKey seen (find front.reverse i) = [] := by
        refine keepFirst_eq_nil fun loop hloop => (hseen _).mpr ?_
        obtain ⟨hisLoop, hin⟩ := hwithin _ i hi loop hloop
        obtain ⟨l, hlowl, hil⟩ := hs.exists_isLowest hi
        have hl : l ∈ front := by
          rcases (hcyclic l).mpr ⟨hs.lt_of_reaches hlowl.1, hlowl.1⟩ with hl | rfl | hl
          · exact hl
          · exact absurd hlowl hlow
          · exact absurd (hlowl.2 i hil.symm) (Nat.not_le_of_lt (hbehind l hl))
        exact ⟨l, hl, hlowl, hs.loopKey_mem hisLoop fun e he => hil.symm.trans (hin e he)⟩
      rw [hnew, if_neg (hs.isLowest_iff.not.mp hlow), ih _ hrest fun key => ?_]
      rw [List.map_nil, List.append_nil, hseen]
      simp [or_and_right, exists_or, hlow]

/-- The cycles of a graph are what is recorded at its starts, the nodes on some cycle in ascending
order, and as much is recorded at each start if no node is left out. At the lowest node of a
component all loops of the component are recorded, each once up to where it starts, and nothing
else; at the other nodes nothing is recorded. -/
theorem cycles_grouped (m : ModuleDecl) :
    let g := build m
    let starts := g.cyclicNodes g.components
    let blocks := records (g.loopsFrom g.components) [] [] starts
    g.cycles = blocks.flatMap (fun block => block.2.map g.cycleOf) ∧
      blocks = records (fun _ => g.loopsFrom g.components []) [] [] starts ∧
      blocks.map Prod.fst = starts ∧ starts.Pairwise (· < ·) ∧
      (∀ i, i ∈ starts ↔ g.Reaches i i) ∧
      (∀ block ∈ blocks,
        (block.2 ≠ [] ↔ g.IsLowest block.1) ∧
        (g.IsLowest block.1 →
          block.2 = distinctBy loopKey (g.loopsFrom g.components [] block.1)) ∧
        ∀ loop ∈ block.2, IsLoop g.edges loop ∧ g.Within block.1 loop) ∧
      ∀ loop, IsLoop g.edges loop → ∃ block ∈ blocks, g.IsLowest block.1 ∧
        g.Within block.1 loop ∧ ∃ found ∈ block.2, Cycle.keyOf found ~r Cycle.keyOf loop := by
  intro g starts blocks
  have hs : g.Sound := sound_build m
  have hstarts : ∀ i, i ∈ starts ↔ g.Reaches i i := fun i =>
    hs.mem_cyclicNodes_iff.trans (and_iff_right_of_imp hs.lt_of_reaches)
  have hwithin : ∀ exhausted i, g.Reaches i i →
      ∀ loop ∈ g.loopsFrom g.components exhausted i, IsLoop g.edges loop ∧ g.Within i loop :=
    fun _ _ hi _ hloop => ⟨isLoop_of_mem_loopsFrom hloop, hs.within_of_mem_loopsFrom hi hloop⟩
  have hblocks : blocks = _ :=
    hs.records_eq _ (fun _ _ hi => hs.loopsFrom_eq hi.1) hwithin [] starts rfl (by simp)
  have hwhole : records (fun _ => g.loopsFrom g.components []) [] [] starts = _ :=
    hs.records_eq _ (fun _ _ _ _ => rfl) (fun _ => hwithin []) [] starts rfl (by simp)
  refine ⟨?_, hblocks.trans hwhole.symm, ?_, pairwise_cyclicNodes _, hstarts, ?_, ?_⟩
  · rw [cycles, ← List.map_flatMap]
    exact congrArg (List.map g.cycleOf) (flatMap_records g.components [] [] starts).symm
  · rw [hblocks, List.map_map]
    exact List.map_id _
  · rw [hblocks, List.forall_mem_map]
    intro i hi
    have hreach := (hstarts i).mp hi
    by_cases hlow : g.IsLowest i
    · obtain ⟨loop, hloop, e, he, rfl⟩ := exists_loop_through hreach
      obtain ⟨found, hfound, -⟩ := hs.exists_mem_distinctBy hloop (within_of_isLoop hloop he)
      rw [if_pos (hs.isLowest_iff.mp hlow)]
      refine ⟨iff_of_true (List.ne_nil_of_mem hfound) hlow, fun _ => rfl, fun loop hmem => ?_⟩
      have hmem := (distinctBy_sublist _ _).mem hmem
      exact ⟨isLoop_of_mem_loopsFrom hmem, hs.within_of_mem_loopsFrom hreach hmem⟩
    · rw [if_neg (hs.isLowest_iff.not.mp hlow)]
      exact ⟨iff_of_false (fun hne => hne rfl) hlow, fun h => absurd h hlow, by simp⟩
  · intro loop hloop
    obtain ⟨e, he⟩ := List.exists_mem_of_ne_nil loop hloop.nonempty
    obtain ⟨l, hlow, hel⟩ := hs.exists_isLowest (hloop.transGen he he)
    have hin : g.Within l loop := fun f hf => hel.symm.trans (within_of_isLoop hloop he f hf)
    refine ⟨(l, distinctBy loopKey (g.loopsFrom g.components [] l)), ?_, hlow, hin,
      hs.exists_mem_distinctBy hloop hin⟩
    rw [hblocks]
    refine List.mem_map.mpr ⟨l, (hstarts l).mpr hlow.1, ?_⟩
    rw [if_pos (hs.isLowest_iff.mp hlow)]

end Graph

end Injection
