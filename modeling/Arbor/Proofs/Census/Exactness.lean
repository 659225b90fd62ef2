import Mathlib.Algebra.Ring.Int.Defs
import Mathlib.Data.List.Induction
import Arbor.Census
import Arbor.ChildRule
import Arbor.Proofs.Walk.Brackets
import Arbor.Proofs.Walk.Interchange
import Arbor.Proofs.Walk.Reuse

/-!
This module is about the numbers that walks gather. A census counts the occurrences that it visits,
one by one (`Census.Counts.add`), and the walker has counters of its own. Main statement: both tell
how many occurrences the unfolding of the root has and how deep it is, and the census tells the same
of each kind (`census_exact`).
-/

namespace Arbor

open Walk

namespace Outline

variable {ε : Type}

mutual

def height : Outline ε → Nat
  | .mk _ children _ => heightAll children

def heightAll : List (Edge × Outline ε) → Nat
  | [] => 0
  | (_, child) :: rest => max (height child + 1) (heightAll rest)

end

theorem foldl_depths_preorderAll (children : List (Edge × Outline ε))
    (ih : ∀ entry ∈ children, ∀ path route d,
      ((entry.2.preorder path route).map (·.path.length)).foldl max d =
        max d (path.length + entry.2.height))
    (path : Path) (route : Route) (parent : Node) (i : Nat) (d : Nat) (hd : path.length ≤ d)
    : ((preorderAll children path route parent i).map (·.path.length)).foldl max d =
        max d (path.length + heightAll children) := by
  induction children generalizing i d with
  | nil =>
    rw [heightAll]
    show d = max d (path.length + 0)
    omega
  | cons entry rest ihrest =>
    obtain ⟨edge, child⟩ := entry
    have hchild := ih (edge, child) (List.mem_cons_self ..) (path.descend parent edge)
      (i :: route) d
    have hlength : (path.descend parent edge).length = path.length + 1 := by
      simp [Path.descend]
    dsimp only at hchild
    rw [hlength] at hchild
    rw [preorderAll_cons, List.map_append, List.foldl_append, hchild,
      ihrest (fun entry h => ih entry (List.mem_cons_of_mem _ h)) _ _ (by omega), heightAll]
    omega

theorem foldl_depths_preorder (outline : Outline ε) (path : Path) (route : Route) (d : Nat)
    : ((outline.preorder path route).map (·.path.length)).foldl max d =
        max d (path.length + outline.height) := by
  induction outline using Outline.induct generalizing path route d with
  | mk node children failure ih =>
    have hall := foldl_depths_preorderAll children ih path route node 0 (max d path.length)
      (by omega)
    rw [preorder_mk, List.map_cons, List.foldl_cons, hall, height]
    omega

theorem max?_depths (outline : Outline ε)
    : ((outline.preorder [] []).map (·.path.length)).max? = some outline.height := by
  have hdepths := outline.foldl_depths_preorder [] [] 0
  cases outline with
  | mk node children failure =>
    rw [preorder_mk, List.map_cons] at hdepths ⊢
    rw [List.max?_cons']
    apply congrArg some
    rw [List.foldl_cons] at hdepths
    simpa using hdepths

theorem brackets_start (opened : Route → Bool) (outline : Outline ε) (path : Path) (route : Route)
    : (outline.brackets opened path route).filterMap
        (fun m => if m.1 = .start then some m.2 else none) = outline.preorder path route := by
  rw [brackets, collect_filterMap, preorder]
  congr 1
  funext x
  by_cases h : opened x.route <;> simp [closing, h]

inductive Whole : Outline ε → Prop where
  | mk (node : Node) (children : List (Edge × Outline ε))
      (below : ∀ entry ∈ children, Whole entry.2) : Whole (.mk node children none)

end Outline

theorem Strategy.whole_outline {ε : Type} {strategy : Strategy ε}
    (h : ∀ n, (strategy n).failure = none) (n : Node) (hacc : Acc strategy.IsChild n)
    : (strategy.outline n hacc).Whole := by
  induction hacc with
  | intro n hbelow ih =>
    rw [outline_eq_mk, h n]
    apply Outline.Whole.mk
    intro entry hentry
    obtain ⟨c, hc, _, houtline⟩ := mem_children_outline hentry
    rw [houtline]
    apply ih c ⟨_, hc⟩

namespace Census

section Count

variable (kind : String) (n : Int) (kinds : List (String × Int))

theorem lookup_count (k : String)
    : (count kind n kinds).lookup k =
        if k = kind then some ((kinds.lookup k).getD 0 + n) else kinds.lookup k := by
  fun_induction count kind n kinds with
  | case1 =>
    by_cases hk : k = kind
    · simp [hk]
    · simp [hk, List.lookup_cons, beq_false_of_ne hk]
  | case2 m rest =>
    by_cases hk : k = kind
    · simp [hk]
    · simp [hk, List.lookup_cons, beq_false_of_ne hk]
  | case3 key m rest hkey ih =>
    by_cases hk : k = key
    · have hother : k ≠ kind := by rwa [hk]
      simp [hk, hkey]
    · simp [List.lookup_cons, beq_false_of_ne hk, ih]

theorem names_count
    : (count kind n kinds).map (·.1) =
        if kind ∈ kinds.map (·.1) then kinds.map (·.1) else kinds.map (·.1) ++ [kind] := by
  fun_induction count kind n kinds with
  | case1 => rfl
  | case2 m rest => simp
  | case3 key m rest hkey ih =>
    rw [List.map_cons, ih]
    by_cases hmem : kind ∈ rest.map (·.1)
    · have hold : kind ∈ ((key, m) :: rest).map (·.1) := List.mem_cons_of_mem _ hmem
      rw [if_pos hmem, if_pos hold]
      rfl
    · have hnew : kind ∉ ((key, m) :: rest).map (·.1) := by
        rw [List.map_cons, List.mem_cons, not_or]
        exact ⟨Ne.symm hkey, hmem⟩
      rw [if_neg hmem, if_neg hnew]
      rfl

theorem sum_count
    : ((count kind n kinds).map (·.2)).sum = (kinds.map (·.2)).sum + n := by
  fun_induction count kind n kinds with
  | case1 => simp
  | case2 m rest =>
    simp only [List.map_cons, List.sum_cons]
    omega
  | case3 key m rest hkey ih =>
    simp only [List.map_cons, List.sum_cons, ih]
    omega

end Count

theorem eraseDups_concat (names : List String) (kind : String)
    : (names ++ [kind]).eraseDups =
        if kind ∈ names then names.eraseDups else names.eraseDups ++ [kind] := by
  rw [List.eraseDups_append, List.removeAll]
  by_cases hmem : kind ∈ names
  · simp [hmem]
  · simp [hmem, List.eraseDups_cons]

theorem nodup_eraseDups (names : List String) : names.eraseDups.Nodup := by
  induction names using List.reverseRecOn with
  | nil => exact List.nodup_nil
  | append_singleton names kind ih =>
    rw [eraseDups_concat]
    split
    next => exact ih
    next hnew =>
      rw [← List.concat_eq_append, List.nodup_concat, List.mem_eraseDups]
      exact ⟨hnew, ih⟩

/--
What a census says of the occurrences that were visited. Each of their kinds has the number of
occurrences of that kind, no other kind has an entry, and kinds stand in the order in which they
were first visited.
-/
structure Counts (c : Census) (visited : List Occurrence) : Prop where
  nodeCount : c.nodeCount = visited.length
  maxDepth : c.maxDepth = ((visited.map (·.path.length)).foldl max 0 : Nat)
  lookup : ∀ kind, c.kinds.lookup kind =
    if kind ∈ visited.map (·.node.kind) then
      some (((visited.map (·.node.kind)).count kind : Nat) : Int)
    else none
  names : c.kinds.map (·.1) = (visited.map (·.node.kind)).eraseDups
  total : (c.kinds.map (·.2)).sum = c.nodeCount

theorem Counts.empty : Counts {} [] where
  nodeCount := rfl
  maxDepth := rfl
  lookup _ := rfl
  names := rfl
  total := rfl

theorem Counts.add {c : Census} {visited : List Occurrence} (h : c.Counts visited) (x : Occurrence)
    : (c.add x.node.kind x.path.length).Counts (visited ++ [x]) where
  nodeCount := by
    rw [Census.add, h.nodeCount, List.length_append]
    rfl
  maxDepth := by
    rw [Census.add, h.maxDepth, List.map_append, List.foldl_append]
    simp only [List.map_cons, List.map_nil, List.foldl_cons, List.foldl_nil]
    omega
  lookup kind := by
    rw [Census.add, lookup_count, h.lookup, List.map_append, List.count_append]
    by_cases hkind : kind = x.node.kind
    · by_cases hmem : kind ∈ visited.map (·.node.kind)
      · simp [hkind] at hmem ⊢
        simp [hmem]
      · have hzero := List.count_eq_zero_of_not_mem hmem
        rw [hkind] at hmem hzero ⊢
        simp [hmem, hzero]
    · simp [hkind, Ne.symm hkind]
  names := by
    rw [Census.add, names_count, h.names, List.map_append]
    simp only [List.mem_eraseDups]
    apply (eraseDups_concat _ _).symm
  total := by
    rw [Census.add, sum_count, h.total]

theorem Counts.nodup_kinds {c : Census} {visited : List Occurrence} (h : c.Counts visited)
    : (c.kinds.map (·.1)).Nodup := by
  rw [h.names]
  exact nodup_eraseDups _

variable {ε : Type} [Described ε]

def CountsIn (outline : Outline ε) : Prop :=
  ∀ (path : Path) (route : Route) (s : Session Census) (visited : List Occurrence),
    s.state.Counts visited →
    ∃ s', visit visitor () path outline s = (.ok (), s')
      ∧ s'.state.Counts (visited ++ outline.preorder path route)

theorem visitAll_counts {children : List (Edge × Outline ε)}
    (h : ∀ entry ∈ children, CountsIn entry.2) (path : Path) (route : Route) (parent : Node)
    (i : Nat) {s : Session Census} {visited : List Occurrence} (hs : s.state.Counts visited)
    : ∃ s', visitAll visitor () path parent children none s = (.ok (), s')
      ∧ s'.state.Counts (visited ++ Outline.preorderAll children path route parent i) := by
  induction children generalizing i s visited with
  | nil =>
    refine ⟨s, rfl, ?_⟩
    rw [show Outline.preorderAll ([] : List (Edge × Outline ε)) path route parent i = [] from rfl,
      List.append_nil]
    apply hs
  | cons entry rest ih =>
    obtain ⟨edge, child⟩ := entry
    rw [List.forall_mem_cons] at h
    obtain ⟨s₁, hvisit, hs₁⟩ := h.1 (path.descend parent edge) (i :: route) s visited hs
    obtain ⟨s', hall, hs'⟩ := ih h.2 (i + 1) hs₁
    refine ⟨s', ?_, ?_⟩
    · rw [visitAll, hvisit]
      apply hall
    · rw [Outline.preorderAll_cons, ← List.append_assoc]
      apply hs'

theorem visit_counts {outline : Outline ε} (h : outline.Whole) : CountsIn outline := by
  induction h with
  | mk node children hchildren ih =>
    intro path route s visited hs
    -- the node is counted first, then its children are visited
    have hown := hs.add ⟨route, path, node⟩
    obtain ⟨s', hall, hs'⟩ := visitAll_counts ih path route node 0
      (s := { s.arrive path.length with state := s.state.add node.kind path.length }) hown
    refine ⟨s', ?_, ?_⟩
    · rw [visitor, visit_callbacks, ← visitor]
      dsimp only [Override.apply]
      rw [hall]
    · rw [Outline.preorder_mk, List.append_cons]
      apply hs'

end Census

namespace Walk

variable {σ φ κ ε : Type} [Described ε]

theorem starts_history {v : Visitor σ φ κ ε} {context : κ} {outline : Outline ε} {s : Session σ}
    (hok : (visit v context [] outline s).1 = .ok ())
    : occurrencesIn .start (history v context [] [] outline s) = outline.preorder [] [] := by
  have htrace := trace_history _ v context [] [] outline s hok fun _ he => isOpenAt_history he
  rw [occurrencesIn_eq_trace (by simp), htrace, Outline.brackets_start]

theorem counters_of_ok (v : Visitor σ φ κ ε) (strategy : Strategy ε) (root : Node)
    (finite : strategy.FiniteFrom root.value) (context : κ) (s : Session σ)
    (hok : (walk v strategy root.value finite context s).1 = .ok ())
    : (walk v strategy root.value finite context s).2.visited =
        ((strategy.unfolding root finite).preorder [] []).length
      ∧ (walk v strategy root.value finite context s).2.maxDepth =
        (strategy.unfolding root finite).height := by
  obtain ⟨hvisited, hdepth⟩ := counters_walk v strategy root finite context s
  rw [walk_eq_visit] at hok
  rw [events, starts_history hok] at hvisited hdepth
  rw [Outline.max?_depths] at hdepth
  exact ⟨hvisited, (Option.some.inj hdepth).symm⟩

end Walk

variable {σ φ κ ε : Type} [Described ε]

theorem census_counts (strategy : Strategy ε) (root : Node)
    (finite : strategy.FiniteFrom root.value) (whole : (strategy.unfolding root finite).Whole)
    : ∃ c, (census strategy root.value finite).1 = .ok c
      ∧ c.Counts ((strategy.unfolding root finite).preorder [] []) := by
  let start : Session Census := { state := {} }
  obtain ⟨s, hvisit, hs⟩ := Census.visit_counts whole [] []
    (start.restart.record (.walkStarted root.kind)) [] .empty
  refine ⟨s.state, ?_, hs⟩
  rw [census, walk_eq_visit, hvisit]
  rfl

/--
The census of all that a strategy reaches from a root succeeds and counts every occurrence of the
unfolding, provided that no listing of children fails; the depth that it tells is the height of the
unfolding. The counters of a walk with the same strategy agree with it, whatever the visitor does,
if the walk succeeds.
-/
theorem census_exact (strategy : Strategy ε) (root : Node)
    (finite : strategy.FiniteFrom root.value) (whole : (strategy.unfolding root finite).Whole)
    (v : Visitor σ φ κ ε) (context : κ) (s : Session σ)
    : ∃ c, (census strategy root.value finite).1 = .ok c
      ∧ c.Counts ((strategy.unfolding root finite).preorder [] [])
      ∧ c.maxDepth = (strategy.unfolding root finite).height
      ∧ ((walk v strategy root.value finite context s).1 = .ok () →
          (walk v strategy root.value finite context s).2.visited = c.nodeCount
          ∧ (walk v strategy root.value finite context s).2.maxDepth = c.maxDepth) := by
  obtain ⟨c, hcensus, hcounts⟩ := census_counts strategy root finite whole
  have hheight : c.maxDepth = (strategy.unfolding root finite).height := by
    rw [hcounts.maxDepth, Outline.foldl_depths_preorder]
    simp
  refine ⟨c, hcensus, hcounts, hheight, ?_⟩
  intro hok
  obtain ⟨hvisited, hdepth⟩ := counters_of_ok v strategy root finite context s hok
  rw [hvisited, hdepth, hcounts.nodeCount, hheight]
  exact ⟨rfl, rfl⟩

def samplePair : Node :=
  ⟨.record 0 .map [("type", .str "Pair"), ("left", sampleLeaf.value),
    ("right", .record 2 .map [("type", .str "Wrap"), ("of", sampleLeaf.value)])], "Pair", rfl⟩

def sampleReverse : Strategy Script.Failure :=
  ChildRule.reverse.strategy

theorem finite_samplePair : sampleReverse.FiniteFrom samplePair.value :=
  (ChildRule.descends .reverse).finiteFrom _

def samplePairOutline : Outline Script.Failure :=
  .mk samplePair
    [(⟨"right", none⟩, .mk ⟨.record 2 .map [("type", .str "Wrap"), ("of", sampleLeaf.value)], "Wrap",
      rfl⟩ [(⟨"of", none⟩, .mk sampleLeaf [] none)] none), (⟨"left", none⟩, .mk sampleLeaf [] none)]
    none

theorem unfolding_samplePair
    : sampleReverse.unfolding samplePair finite_samplePair = samplePairOutline := by
  cbv

theorem census_exact_sample
    : ∃ c, (census sampleReverse samplePair.value finite_samplePair).1 = .ok c
      ∧ c.kinds = [("Pair", 1), ("Wrap", 1), ("Leaf", 2)]
      ∧ c.Counts ((sampleReverse.unfolding samplePair finite_samplePair).preorder [] [])
      ∧ c.maxDepth = 2
      ∧ (walk (scripted []) sampleReverse samplePair.value finite_samplePair .null
          sampleSession).2.visited = c.nodeCount := by
  have hwhole : (sampleReverse.unfolding samplePair finite_samplePair).Whole :=
    Strategy.whole_outline (fun _ => rfl) _ _
  have hok : (walk (scripted []) sampleReverse samplePair.value finite_samplePair .null
      sampleSession).1 = .ok () := by
    rw [walk_eq_visit, unfolding_samplePair]
    rfl
  have hkinds : (census sampleReverse samplePair.value finite_samplePair).1.map (·.kinds) =
      .ok [("Pair", 1), ("Wrap", 1), ("Leaf", 2)] := by
    rw [census, walk_eq_visit, unfolding_samplePair]
    rfl
  have hheight : (sampleReverse.unfolding samplePair finite_samplePair).height = 2 := by
    rw [unfolding_samplePair]
    decide
  obtain ⟨c, hcensus, hcounts, hdepth, hcounters⟩ :=
    census_exact sampleReverse samplePair finite_samplePair hwhole (scripted []) .null sampleSession
  rw [hcensus] at hkinds
  rw [hheight] at hdepth
  exact ⟨c, hcensus, Except.ok.inj hkinds, hcounts, hdepth, (hcounters hok).1⟩

end Arbor
