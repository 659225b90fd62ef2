import Arbor.Outline
import Arbor.Path
import Mathlib.Data.List.Nodup

/-!
This module lists the occurrences of an outline. An occurrence is known by its route, so a node
that hangs on several parents, or several times on one, has one occurrence for each way to it.
Listing is done once and for all by `collect`; pre-order and post-order are two cases of it.
-/

namespace Arbor

/--
The way from an occurrence up to the root: its place among the children of its parent, then the
place of its parent, and so on.
-/
abbrev Route := List Nat

namespace Route

def ancestors : Route → List Route
  | [] => []
  | _ :: route => route :: ancestors route

theorem mem_ancestors {r route : Route} : r ∈ ancestors route ↔ r <:+ route ∧ r ≠ route := by
  induction route with
  | nil => simp [ancestors]
  | cons i route ih =>
    simp only [ancestors, List.mem_cons, ih, List.suffix_cons_iff]
    constructor
    · intro h
      rcases h with rfl | ⟨hs, hne⟩
      · exact ⟨.inr (List.suffix_refl r), List.ne_cons_self⟩
      · refine ⟨.inr hs, ?_⟩
        intro heq
        have := hs.length_le
        rw [heq, List.length_cons] at this
        omega
    · rintro ⟨rfl | hs, hne⟩
      · contradiction
      · by_cases heq : r = route
        · exact .inl heq
        · exact .inr ⟨hs, heq⟩

theorem eq_of_cons_suffix {i j : Nat} {r route : Route} (hi : i :: r <:+ route)
    (hj : j :: r <:+ route) : i = j := by
  have h : i :: r <:+ j :: r := List.suffix_of_suffix_length_le hi hj (by simp)
  have := h.eq_of_length (by simp)
  injection this

theorem not_cons_suffix_self (i : Nat) (route : Route) : ¬ i :: route <:+ route := by
  intro h
  have := h.length_le
  rw [List.length_cons] at this
  omega

theorem suffix_of_cons_suffix {i : Nat} {r route : Route} (h : i :: r <:+ route)
    : r <:+ route ∧ r ≠ route := by
  refine ⟨(List.suffix_cons i r).trans h, ?_⟩
  rintro rfl
  exact not_cons_suffix_self i r h

end Route

structure Occurrence where
  route : Route
  path : Path
  node : Node

namespace Outline

variable {ε α β : Type}

@[elab_as_elim]
theorem induct {motive : Outline ε → Prop}
    (mk : ∀ node children failure, (∀ entry ∈ children, motive entry.2) →
      motive (.mk node children failure))
    (outline : Outline ε) : motive outline := by
  refine @Outline.rec ε motive (fun children => ∀ entry ∈ children, motive entry.2)
    (fun entry => motive entry.2) ?_ ?_ ?_ ?_ outline
  · intro node children failure ih
    exact mk node children failure ih
  · intro entry h
    contradiction
  · intro head tail hhead htail entry h
    rcases List.mem_cons.1 h with rfl | h
    · exact hhead
    · exact htail entry h
  · intro edge child h
    exact h

mutual

def collect (first last : Occurrence → List α) (path : Path) (route : Route) :
    Outline ε → List α
  | .mk node children _ =>
    first ⟨route, path, node⟩ ++
      (collectAll first last path route node 0 children ++ last ⟨route, path, node⟩)

def collectAll (first last : Occurrence → List α) (path : Path) (route : Route) (parent : Node) :
    Nat → List (Edge × Outline ε) → List α
  | _, [] => []
  | i, (edge, child) :: rest =>
    collect first last (path.descend parent edge) (i :: route) child ++
      collectAll first last path route parent (i + 1) rest

end

def preorder (outline : Outline ε) (path : Path) (route : Route) : List Occurrence :=
  outline.collect (fun x => [x]) (fun _ => []) path route

def postorder (outline : Outline ε) (path : Path) (route : Route) : List Occurrence :=
  outline.collect (fun _ => []) (fun x => [x]) path route

def preorderAll (children : List (Edge × Outline ε)) (path : Path) (route : Route) (parent : Node)
    (i : Nat) : List Occurrence :=
  collectAll (fun x => [x]) (fun _ => []) path route parent i children

theorem preorder_mk (node : Node) (children : List (Edge × Outline ε)) (failure : Option ε)
    (path : Path) (route : Route)
    : (Outline.mk node children failure).preorder path route =
        ⟨route, path, node⟩ :: preorderAll children path route node 0 := by
  simp [preorder, preorderAll, collect]

theorem preorderAll_cons (edge : Edge) (child : Outline ε) (rest : List (Edge × Outline ε))
    (path : Path) (route : Route) (parent : Node) (i : Nat)
    : preorderAll ((edge, child) :: rest) path route parent i =
        child.preorder (path.descend parent edge) (i :: route) ++
          preorderAll rest path route parent (i + 1) := by
  simp [preorder, preorderAll, collectAll]

theorem mem_preorderAll {children : List (Edge × Outline ε)} {path : Path} {route : Route}
    {parent : Node} {i : Nat} {x : Occurrence}
    : x ∈ preorderAll children path route parent i
      ↔
      ∃ (k : Nat) (edge : Edge) (child : Outline ε), children[k]? = some (edge, child)
        ∧ x ∈ child.preorder (path.descend parent edge) ((i + k) :: route) := by
  induction children generalizing i with
  | nil => simp [preorderAll, collectAll]
  | cons entry rest ih =>
    obtain ⟨edge, child⟩ := entry
    rw [preorderAll_cons, List.mem_append, ih]
    constructor
    · rintro (h | ⟨k, edge', child', hk, h⟩)
      · exact ⟨0, edge, child, rfl, h⟩
      · refine ⟨k + 1, edge', child', hk, ?_⟩
        rw [show i + (k + 1) = i + 1 + k by omega]
        exact h
    · rintro ⟨k, edge', child', hk, h⟩
      cases k with
      | zero =>
        simp only [List.getElem?_cons_zero, Option.some.injEq, Prod.mk.injEq] at hk
        obtain ⟨rfl, rfl⟩ := hk
        exact .inl h
      | succ k =>
        refine .inr ⟨k, edge', child', hk, ?_⟩
        rw [show i + 1 + k = i + (k + 1) by omega]
        exact h

theorem collectAll_flatMap (g : α → List β) (first last : Occurrence → List α)
    (children : List (Edge × Outline ε))
    (ih : ∀ entry ∈ children, ∀ path route,
      (entry.2.collect first last path route).flatMap g =
        entry.2.collect (fun x => (first x).flatMap g) (fun x => (last x).flatMap g) path route)
    (path : Path) (route : Route) (parent : Node) (i : Nat)
    : (collectAll first last path route parent i children).flatMap g =
        collectAll (fun x => (first x).flatMap g) (fun x => (last x).flatMap g) path route
          parent i children := by
  induction children generalizing i with
  | nil => simp [collectAll]
  | cons entry rest ihrest =>
    obtain ⟨edge, child⟩ := entry
    simp only [collectAll, List.flatMap_append]
    rw [ih _ (List.mem_cons_self ..)]
    rw [ihrest (fun entry h => ih entry (List.mem_cons_of_mem _ h))]

theorem collect_flatMap (g : α → List β) (first last : Occurrence → List α)
    (outline : Outline ε) (path : Path) (route : Route)
    : (outline.collect first last path route).flatMap g =
        outline.collect (fun x => (first x).flatMap g) (fun x => (last x).flatMap g) path
          route := by
  induction outline using Outline.induct generalizing path route with
  | mk node children failure ih =>
    simp only [collect, List.flatMap_append]
    rw [collectAll_flatMap g first last children ih]

theorem collect_filterMap (g : α → Option β) (first last : Occurrence → List α)
    (outline : Outline ε) (path : Path) (route : Route)
    : (outline.collect first last path route).filterMap g =
        outline.collect (fun x => (first x).filterMap g) (fun x => (last x).filterMap g) path
          route := by
  simp only [List.filterMap_eq_flatMap_toList]
  exact collect_flatMap _ first last outline path route

theorem collectAll_perm (first last : Occurrence → List α) (children : List (Edge × Outline ε))
    (ih : ∀ entry ∈ children, ∀ path route,
      (entry.2.collect first last path route).Perm
        (entry.2.collect (fun x => first x ++ last x) (fun _ => []) path route))
    (path : Path) (route : Route) (parent : Node) (i : Nat)
    : (collectAll first last path route parent i children).Perm
        (collectAll (fun x => first x ++ last x) (fun _ => []) path route parent i children) := by
  induction children generalizing i with
  | nil => exact .refl _
  | cons entry rest ihrest =>
    obtain ⟨edge, child⟩ := entry
    simp only [collectAll]
    apply List.Perm.append
    · exact ih (edge, child) (List.mem_cons_self ..) _ _
    · exact ihrest (fun entry h => ih entry (List.mem_cons_of_mem _ h)) _

theorem collect_perm (first last : Occurrence → List α) (outline : Outline ε) (path : Path)
    (route : Route)
    : (outline.collect first last path route).Perm
        (outline.collect (fun x => first x ++ last x) (fun _ => []) path route) := by
  induction outline using Outline.induct generalizing path route with
  | mk node children failure ih =>
    simp only [collect, List.append_nil, List.append_assoc]
    apply List.Perm.append_left
    apply List.perm_append_comm.trans
    apply List.Perm.append_left
    exact collectAll_perm first last children ih path route node 0

theorem postorder_perm (outline : Outline ε) (path : Path) (route : Route)
    : (outline.postorder path route).Perm (outline.preorder path route) :=
  collect_perm (fun _ => []) (fun x => [x]) outline path route

theorem mem_collect {first last : Occurrence → List α} {outline : Outline ε} {path : Path}
    {route : Route} {a : α}
    : a ∈ outline.collect first last path route
      ↔
      ∃ x ∈ outline.preorder path route, a ∈ first x ∨ a ∈ last x := by
  have h : (outline.preorder path route).flatMap (fun x => first x ++ last x) =
      outline.collect (fun x => first x ++ last x) (fun _ => []) path route := by
    rw [preorder, collect_flatMap]
    simp
  rw [(collect_perm first last outline path route).mem_iff, ← h, List.mem_flatMap]
  simp only [List.mem_append]

theorem route_preorder {outline : Outline ε} {path : Path} {route : Route} {x : Occurrence}
    (h : x ∈ outline.preorder path route) : route <:+ x.route := by
  induction outline using Outline.induct generalizing path route with
  | mk node children failure ih =>
    rw [preorder_mk] at h
    rcases List.mem_cons.1 h with rfl | h
    · exact List.suffix_refl route
    · obtain ⟨k, edge, child, hk, hmem⟩ := mem_preorderAll.1 h
      have := ih (edge, child) (List.mem_of_getElem? hk) hmem
      exact (Route.suffix_of_cons_suffix this).1

theorem route_preorderAll {children : List (Edge × Outline ε)} {path : Path} {route : Route}
    {parent : Node} {i : Nat} {x : Occurrence} (h : x ∈ preorderAll children path route parent i)
    : ∃ k, i ≤ k ∧ k :: route <:+ x.route := by
  obtain ⟨k, edge, child, hk, hmem⟩ := mem_preorderAll.1 h
  exact ⟨i + k, by omega, route_preorder hmem⟩

theorem nodup_preorderAll (children : List (Edge × Outline ε))
    (ih : ∀ entry ∈ children, ∀ path route, ((entry.2.preorder path route).map (·.route)).Nodup)
    (path : Path) (route : Route) (parent : Node) (i : Nat)
    : ((preorderAll children path route parent i).map (·.route)).Nodup := by
  induction children generalizing i with
  | nil => exact .nil
  | cons entry rest ihrest =>
    obtain ⟨edge, child⟩ := entry
    rw [preorderAll_cons, List.map_append, List.nodup_append]
    refine ⟨ih (edge, child) (List.mem_cons_self ..) _ _,
      ihrest (fun entry h => ih entry (List.mem_cons_of_mem _ h)) _, ?_⟩
    rintro a ha b hb rfl
    obtain ⟨x, hx, rfl⟩ := List.mem_map.1 ha
    obtain ⟨y, hy, heq⟩ := List.mem_map.1 hb
    obtain ⟨k, hk, hsuffix⟩ := route_preorderAll hy
    rw [heq] at hsuffix
    have := Route.eq_of_cons_suffix (route_preorder hx) hsuffix
    omega

theorem nodup_preorder (outline : Outline ε) (path : Path) (route : Route)
    : ((outline.preorder path route).map (·.route)).Nodup := by
  induction outline using Outline.induct generalizing path route with
  | mk node children failure ih =>
    rw [preorder_mk, List.map_cons, List.nodup_cons]
    refine ⟨?_, nodup_preorderAll children ih path route node 0⟩
    intro h
    obtain ⟨x, hx, heq⟩ := List.mem_map.1 h
    obtain ⟨k, _, hsuffix⟩ := route_preorderAll hx
    rw [heq] at hsuffix
    exact Route.not_cons_suffix_self k route hsuffix

theorem parent_preorder {outline : Outline ε} {path : Path} {route : Route} {x : Occurrence}
    (h : x ∈ outline.preorder path route)
    : x = ⟨route, path, outline.node⟩
      ∨
      ∃ i y edge, y ∈ outline.preorder path route ∧ x.route = i :: y.route
        ∧ x.path = y.path.descend y.node edge := by
  induction outline using Outline.induct generalizing path route with
  | mk node children failure ih =>
    rw [preorder_mk] at h ⊢
    rcases List.mem_cons.1 h with rfl | h
    · exact .inl rfl
    · obtain ⟨k, edge, child, hk, hmem⟩ := mem_preorderAll.1 h
      rcases ih (edge, child) (List.mem_of_getElem? hk) hmem with
        rfl | ⟨i, y, edge', hy, hroute, hpath⟩
      · exact .inr ⟨0 + k, _, edge, List.mem_cons_self .., rfl, rfl⟩
      · refine .inr ⟨i, y, edge', List.mem_cons_of_mem _ ?_, hroute, hpath⟩
        exact mem_preorderAll.2 ⟨k, edge, child, hk, hy⟩

def at? (outline : Outline ε) (r : Route) : Option Occurrence :=
  (outline.preorder [] []).find? (·.route = r)

theorem at?_route {outline : Outline ε} {x : Occurrence}
    (hx : x ∈ outline.preorder [] []) : outline.at? x.route = some x := by
  cases hfind : outline.at? x.route with
  | none =>
    have := List.find?_eq_none.1 hfind x hx
    simp at this
  | some y =>
    -- the first occurrence on this route is the only one
    have hroute := List.find?_some hfind
    have hy := List.mem_of_find?_eq_some hfind
    rw [decide_eq_true_eq] at hroute
    rw [List.inj_on_of_nodup_map (outline.nodup_preorder [] []) hy hx hroute]

end Outline

namespace Strategy

variable {ε : Type}

theorem outline_eq_mk (strategy : Strategy ε) (n : Node) (h : Acc strategy.IsChild n)
    : strategy.outline n h = .mk n (strategy.outline n h).children (strategy n).failure := by
  rw [outline]
  rfl

theorem outline_of_descends {strategy : Strategy ε} (hs : strategy.Descends) (n : Node)
    (h : Acc strategy.IsChild n)
    : strategy.outline n h =
        .mk n ((strategy n).entries.map fun (e, c) => (e, strategy.outline c (hs.acc c)))
          (strategy n).failure := by
  rw [outline]
  congr 1
  exact List.attach_map_val (f := fun entry : Edge × Node =>
    (entry.1, strategy.outline entry.2 (hs.acc entry.2)))

theorem map_children_outline {α : Type} (strategy : Strategy ε) (n : Node)
    (h : Acc strategy.IsChild n) (g : Node → α)
    : ((strategy.outline n h).children.map fun (e, child) => (e, g child.node)) =
        (strategy n).entries.map fun (e, c) => (e, g c) := by
  have hnode : ∀ (c : Node) (hc : Acc strategy.IsChild c), (strategy.outline c hc).node = c := by
    intro c hc
    rw [outline_eq_mk]
    rfl
  rw [outline, Outline.children, List.map_map]
  conv_rhs => rw [← List.attach_map_subtype_val (strategy n).entries, List.map_map]
  apply List.map_congr_left
  rintro ⟨⟨e, c⟩, hc⟩ _
  exact congrArg (fun node => (e, g node)) (hnode c _)

theorem getElem?_children_outline {strategy : Strategy ε} {n : Node} {h : Acc strategy.IsChild n}
    {k : Nat} {entry : Edge × Outline ε} (hentry : (strategy.outline n h).children[k]? = some entry)
    : ∃ c, (strategy n).entries[k]? = some (entry.1, c)
      ∧ ∃ hc : Acc strategy.IsChild c, entry.2 = strategy.outline c hc := by
  rw [outline, Outline.children, List.getElem?_map, Option.map_eq_some_iff] at hentry
  obtain ⟨⟨⟨e, c⟩, hc⟩, hk, rfl⟩ := hentry
  refine ⟨c, ?_, _, rfl⟩
  have hval := congrArg (Option.map Subtype.val) hk
  rwa [← List.getElem?_map, List.attach_map_subtype_val] at hval

theorem exists_children_outline {strategy : Strategy ε} {n : Node} (h : Acc strategy.IsChild n)
    {k : Nat} {e : Edge} {c : Node} (hentry : (strategy n).entries[k]? = some (e, c))
    : ∃ hc : Acc strategy.IsChild c,
        (strategy.outline n h).children[k]? = some (e, strategy.outline c hc) := by
  rw [← List.attach_map_subtype_val (strategy n).entries, List.getElem?_map,
    Option.map_eq_some_iff] at hentry
  obtain ⟨⟨⟨e', c'⟩, hc⟩, hk, heq⟩ := hentry
  injection heq with he hc'
  subst he hc'
  rw [outline, Outline.children, List.getElem?_map, hk]
  exact ⟨_, rfl⟩

theorem mem_children_outline {strategy : Strategy ε} {n : Node} {h : Acc strategy.IsChild n}
    {entry : Edge × Outline ε} (hentry : entry ∈ (strategy.outline n h).children)
    : ∃ c, (entry.1, c) ∈ (strategy n).entries
      ∧ ∃ hc : Acc strategy.IsChild c, entry.2 = strategy.outline c hc := by
  rw [outline, Outline.children] at hentry
  obtain ⟨⟨⟨e, c⟩, hc⟩, _, rfl⟩ := List.mem_map.1 hentry
  exact ⟨c, hc, _, rfl⟩

end Strategy

end Arbor
