import Injection.Proofs.Search

/-!
# Which loops a search comes to

A loop need not pass the node that a search starts at: the search gives it out, from some node on,
if the starting node leads to it. A path to the loop that is cut where it first meets the loop is
simple and ends on the loop, and from there the search walks all of the loop.

A search sees nothing but what its starting node leads to. It stays in any set of nodes that no edge
leaves, and goes on alike in two graphs that have the same edges within such a set.
-/

namespace Injection

open Relation

variable {edges edges' taken loop : List Edge} {path : List Nat} {s u v : Nat}

/-! ## Paths that end on a set -/

/-- A simple path can be cut at any of its nodes. -/
theorem SimplePath.exists_cut (h : SimplePath edges path taken) (hv : v ∈ path) :
    ∃ below taken', SimplePath edges (v :: below) taken' ∧ v :: below <:+ path := by
  induction h with
  | start n =>
    obtain rfl := List.mem_singleton.mp hv
    exact ⟨[], [], .start v, List.suffix_rfl⟩
  | @step path taken e h he hnew ih =>
    rcases List.mem_cons.mp hv with rfl | hv
    · exact ⟨_, _, h.step he hnew, List.suffix_rfl⟩
    · obtain ⟨below, taken', hcut, hsuffix⟩ := ih hv
      exact ⟨below, taken', hcut, hsuffix.trans (List.suffix_cons _ _)⟩

/-- A node that leads to a set has a simple path to it that meets the set at its last node only. -/
theorem exists_simplePath_onto (inside : Nat → Prop) (h : ReflTransGen (Adjacent edges) s u)
    (hu : inside u) :
    ∃ v below taken, SimplePath edges (v :: below) taken ∧ (v :: below).getLast? = some s ∧
      inside v ∧ ∀ n ∈ below, ¬ inside n := by
  by_contra hnone
  -- otherwise a simple path outside of the set leads to every node
  have houtside : ∃ below taken, SimplePath edges (u :: below) taken ∧
      (u :: below).getLast? = some s ∧ ∀ n ∈ u :: below, ¬ inside n := by
    clear hu
    induction h with
    | refl =>
      refine ⟨[], [], .start s, rfl, fun n hn hin => hnone ?_⟩
      obtain rfl := List.mem_singleton.mp hn
      exact ⟨n, [], [], .start n, rfl, hin, by simp⟩
    | tail _ hadj ih =>
      obtain ⟨e, he, rfl, rfl⟩ := hadj
      obtain ⟨below, taken, hpath, hlast, hout⟩ := ih
      by_cases hmem : e.target ∈ e.source :: below
      · obtain ⟨below', taken', hcut, hsuffix⟩ := hpath.exists_cut hmem
        refine ⟨below', taken', hcut, ?_, fun n hn => hout n (hsuffix.subset hn)⟩
        obtain ⟨front, hfront⟩ := hsuffix
        rw [← hlast, ← hfront, List.getLast?_append_of_ne_nil _ (by simp)]
      · refine ⟨_, _, hpath.step he hmem, by simpa using hlast, ?_⟩
        refine List.forall_mem_cons.mpr ⟨fun hin => hnone ?_, hout⟩
        exact ⟨_, _, _, hpath.step he hmem, by simpa using hlast, hin, hout⟩
  obtain ⟨below, taken, -, -, hout⟩ := houtside
  exact hout u List.mem_cons_self hu

/-- A node that leads back to itself is on a loop. -/
theorem exists_loop_through (h : TransGen (Adjacent edges) u u) :
    ∃ loop, IsLoop edges loop ∧ ∃ e ∈ loop, e.source = u := by
  obtain ⟨n, hreach, hback⟩ := TransGen.tail'_iff.mp h
  obtain ⟨v, below, taken, hpath, hlast, ⟨e, he, rfl, rfl⟩, -⟩ :=
    exists_simplePath_onto (Adjacent edges · u) hreach hback
  have hloop := hpath.isLoop he rfl (List.mem_of_getLast? hlast)
  exact ⟨_, hloop, hloop.exists_source_eq_target (by simp)⟩

namespace Search

variable {order : Nat} {untried : List Edge} {inside : Nat → Prop}

/-! ## Loops that a node leads to -/

/-- The search comes along every simple path. -/
theorem extend_subset_loops (horder : ∀ e ∈ edges, e.target < order)
    (h : SimplePath edges (v :: path) taken) (hlast : (v :: path).getLast? = some s) :
    extend order edges (v :: path) taken (leaving edges v) ⊆ loops order edges (start edges s) := by
  generalize hp : v :: path = nodes at h hlast
  induction h generalizing v path with
  | start n =>
    obtain ⟨rfl, rfl⟩ := List.cons.inj hp
    obtain rfl : v = s := by simpa using hlast
    exact (loops_start v).symm ▸ List.Subset.refl _
  | @step path' taken e h he hnew ih =>
    obtain ⟨rfl, rfl⟩ := List.cons.inj hp
    refine fun loop hloop => ih rfl (by simpa using hlast) ?_
    rw [extend_eq_flatMap]
    refine List.mem_flatMap.mpr ⟨e, mem_leaving_iff.mpr ⟨he, rfl⟩, ?_⟩
    rw [extend, if_neg hnew, dif_pos (horder e he)]
    exact List.mem_append_left _ hloop

/-- The search from a node gives out every loop that the node leads to. -/
theorem exists_mem_loops (horder : ∀ e ∈ edges, e.target < order) (h : IsLoop edges loop)
    {e : Edge} (he : e ∈ loop) (hreach : ReflTransGen (Adjacent edges) s e.source) :
    ∃ found ∈ loops order edges (start edges s), found ~r loop := by
  obtain ⟨v, below, taken, hpath, hlast, hv, hout⟩ :=
    exists_simplePath_onto (· ∈ loop.map (·.source)) hreach (List.mem_map_of_mem he)
  obtain ⟨f, hf, rfl⟩ := List.mem_map.mp hv
  obtain ⟨rest, hr, hwalk⟩ := h.exists_cons hf
  have hdistinct := (h.of_isRotated hr).distinct
  refine ⟨f :: rest, extend_subset_loops horder hpath hlast ?_, hr.symm⟩
  rw [extend_eq_flatMap]
  refine List.mem_flatMap.mpr ⟨f, mem_leaving_iff.mpr ⟨h.mem_edges hf, rfl⟩, ?_⟩
  have hloop := mem_extend_of_walk horder hpath List.mem_cons_self hwalk hdistinct
    fun f' hf' => List.mem_cons.not.mpr (not_or.mpr ⟨fun hsame => ?_, fun hm => ?_⟩)
  · simpa using hloop
  · exact (List.nodup_cons.mp hdistinct).1 (List.mem_map.mpr ⟨f', hf', hsame⟩)
  · exact hout _ hm (List.mem_map_of_mem (hr.mem_iff.mpr (List.mem_cons_of_mem f hf')))

/-! ## Sets that no edge leaves -/

theorem inside_of_mem_extend (hclosed : ∀ e ∈ edges, inside e.source → inside e.target)
    (h : SimplePath edges path taken) (hpath : ∀ n ∈ path, inside n)
    (huntried : ∀ e ∈ untried, e ∈ edges ∧ path.head? = some e.source)
    (hloop : loop ∈ extend order edges path taken untried) : ∀ e ∈ loop, inside e.source := by
  fun_induction extend order edges path taken untried with
  | case1 => cases hloop
  | case2 path taken edge untried hmem ih =>
    obtain ⟨⟨-, hsource⟩, hrest⟩ := List.forall_mem_cons.mp huntried
    rcases List.mem_cons.mp hloop with rfl | hloop
    · obtain ⟨below, rfl⟩ := List.head?_eq_some_iff.mp hsource
      simp only [List.mem_reverse, List.forall_mem_cons]
      refine ⟨hpath _ List.mem_cons_self, fun f hf => hpath _ (List.mem_cons_of_mem _ ?_)⟩
      exact h.map_source ▸ List.mem_map_of_mem (List.mem_of_mem_take hf)
    · exact ih h hpath hrest hloop
  | case3 path taken edge untried hout hlt ih1 ih2 =>
    obtain ⟨⟨he, hsource⟩, hrest⟩ := List.forall_mem_cons.mp huntried
    rcases List.mem_append.mp hloop with hloop | hloop
    · obtain ⟨below, rfl⟩ := List.head?_eq_some_iff.mp hsource
      have hin : inside edge.target := hclosed edge he (hpath _ List.mem_cons_self)
      refine ih1 (h.step he hout) (List.forall_mem_cons.mpr ⟨hin, hpath⟩) (fun f hf => ?_) hloop
      obtain ⟨hf, hfs⟩ := mem_leaving_iff.mp hf
      exact ⟨hf, by simp [hfs]⟩
    · exact ih2 h hpath hrest hloop
  | case4 path taken edge untried _ _ ih =>
    exact ih h hpath (List.forall_mem_cons.mp huntried).2 hloop

/-- The search from a node of a set that no edge leaves stays within it. -/
theorem inside_of_mem_loops (hclosed : ∀ e ∈ edges, inside e.source → inside e.target)
    (hs : inside s) (hloop : loop ∈ loops order edges (start edges s)) :
    ∀ e ∈ loop, inside e.source := by
  rw [loops_start] at hloop
  refine inside_of_mem_extend hclosed (.start s) (by simpa using hs) (fun e he => ?_) hloop
  obtain ⟨he, hsource⟩ := mem_leaving_iff.mp he
  exact ⟨he, by simp [hsource]⟩

theorem extend_congr (hclosed : ∀ e ∈ edges, inside e.source → inside e.target)
    (hsame : ∀ n, inside n → leaving edges n = leaving edges' n)
    (huntried : ∀ e ∈ untried, inside e.target) :
    extend order edges path taken untried = extend order edges' path taken untried := by
  fun_induction extend order edges path taken untried with
  | case1 => rw [extend]
  | case2 path taken edge untried hmem ih =>
    rw [extend, if_pos hmem, ih (List.forall_mem_cons.mp huntried).2]
  | case3 path taken edge untried hout hlt ih1 ih2 =>
    obtain ⟨hin, hrest⟩ := List.forall_mem_cons.mp huntried
    have hleaving : ∀ f ∈ leaving edges edge.target, inside f.target := by
      intro f hf
      obtain ⟨hf, hfs⟩ := mem_leaving_iff.mp hf
      exact hclosed f hf (hfs ▸ hin)
    rw [extend, if_neg hout, dif_pos hlt, ih1 hleaving, ih2 hrest, hsame _ hin]
  | case4 path taken edge untried hout hge ih =>
    rw [extend, if_neg hout, dif_neg hge, ih (List.forall_mem_cons.mp huntried).2]

/-- What a search gives out depends on the edges alone within a set that no edge leaves. -/
theorem loops_congr (hclosed : ∀ e ∈ edges, inside e.source → inside e.target)
    (hsame : ∀ n, inside n → leaving edges n = leaving edges' n) (hs : inside s) :
    loops order edges (start edges s) = loops order edges' (start edges' s) := by
  rw [loops_start, loops_start, ← hsame s hs]
  refine extend_congr hclosed hsame fun e he => ?_
  obtain ⟨he, hsource⟩ := mem_leaving_iff.mp he
  exact hclosed e he (hsource ▸ hs)

end Search

end Injection
