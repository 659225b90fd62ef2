import Mathlib.Data.List.Sort
import Arbor.Proofs.Scope.Declaration

/-!
This module is about the tree that scopes form. A scope that is opened is adopted by the scope it is
opened in, and scopes are opened in the order of the visits. Since the occurrences below an
occurrence are visited one after the other, the scopes inside a scope stand together behind it in
the table (`Nested`). Main statement: the scopes from that of the whole tree inwards are those that
the occurrences open, in the order of the visits (`scopesOf_shape`).
-/

namespace Arbor

namespace ScopeTable

variable {t : ScopeTable}

/-- A linked table in which the scopes inside a scope stand together behind it. -/
structure Nested (t : ScopeTable) : Prop where
  linked : t.Linked
  between : ∀ outer id inner : Nat, outer ∈ t.chain inner → inner < t.size →
    outer ≤ id → id ≤ inner → outer ∈ t.chain id

theorem Nested.pairwise_preorder (h : t.Nested) {id : Nat} (hid : id < t.size)
    : (t.preorder id).Pairwise (· < ·) := by
  induction hk : t.size - id using Nat.strongRecOn generalizing id with
  | ind k ih =>
    rw [preorder_eq, List.pairwise_cons, List.pairwise_flatMap]
    have below : ∀ {c x : Nat}, c ∈ t.children id → x ∈ t.preorder c →
        id < c ∧ c ∈ t.chain x ∧ c ≤ x ∧ x < t.size := by
      intro c x hc hx
      rw [h.linked.mem_children] at hc
      obtain ⟨hlt, hmem⟩ := (h.linked.mem_preorder (lt_size_of_parent? hc)).1 hx
      exact ⟨parent_lt hc, hmem, le_of_mem_chain hmem, hlt⟩
    refine ⟨?_, ?_, ?_⟩
    · intro x hx
      obtain ⟨c, hc, hx⟩ := List.mem_flatMap.1 hx
      obtain ⟨hlt, _, hle, _⟩ := below hc hx
      exact Nat.lt_of_lt_of_le hlt hle
    · intro c hc
      rw [h.linked.mem_children] at hc
      have := parent_lt hc
      exact ih (t.size - c) (by omega) (lt_size_of_parent? hc) rfl
    · refine (h.linked.pairwise_children id).imp_of_mem ?_
      intro c d hc hd hcd x hx y hy
      obtain ⟨_, hmem, _, hsize⟩ := below hc hx
      obtain ⟨_, _, hle, _⟩ := below hd hy
      -- else the one child would be inside the other
      by_contra hge
      have hdx : d ≤ x := Nat.le_trans hle (Nat.le_of_not_lt hge)
      have hbetween := h.between c d x hmem hsize (Nat.le_of_lt hcd) hdx
      rw [chain_child (h.linked.mem_children.1 hd), List.mem_cons] at hbetween
      rcases hbetween with heq | hmem'
      · exact Nat.ne_of_lt hcd heq
      · have := le_of_mem_chain hmem'
        have := parent_lt (h.linked.mem_children.1 hc)
        omega

theorem Nested.preorder_eq_range (h : t.Nested) (hsize : 0 < t.size)
    (hall : ∀ id : Nat, id < t.size → 0 ∈ t.chain id) : t.preorder 0 = List.range t.size := by
  apply (h.pairwise_preorder hsize).eq_of_mem_iff List.pairwise_lt_range
  intro x
  rw [h.linked.mem_preorder hsize, List.mem_range]
  exact ⟨fun hx => hx.1, fun hx => ⟨hx, hall x hx⟩⟩

theorem hoistScope_split {id other : Nat} (hmem : other ∈ t.chain id)
    (hother : t.isBlock other = false)
    : ∃ inside outside, t.chain id = inside ++ t.hoistScope id :: outside
      ∧ (∀ s ∈ inside, t.isBlock s = true) ∧ t.isBlock (t.hoistScope id) = false := by
  obtain ⟨found, hfound⟩ : ∃ found, (t.chain id).find? (fun s => !t.isBlock s) = some found := by
    rw [← Option.isSome_iff_exists, List.find?_isSome]
    exact ⟨other, hmem, by simp [hother]⟩
  have hhoist : t.hoistScope id = found := by
    rw [hoistScope_eq, hfound]
    rfl
  obtain ⟨hblock, inside, outside, hchain, hinside⟩ := List.find?_eq_some_iff_append.1 hfound
  rw [hhoist]
  exact ⟨inside, outside, hchain, by simpa using hinside, by simpa using hblock⟩

end ScopeTable

namespace Scope

open Walk

theorem mem_block_iff {ks before block after : List Key} (hnodup : ks.Nodup)
    (h : ks = before ++ (block ++ after)) {i : Nat} {key : Key} (hkey : ks[i]? = some key)
    : key ∈ block ↔ before.length ≤ i ∧ i < before.length + block.length := by
  constructor
  · intro hmem
    obtain ⟨j, hj, rfl⟩ := List.mem_iff_getElem.1 hmem
    have hplace : ks[before.length + j]? = some block[j] := by
      rw [h, List.getElem?_append_right (by omega), Nat.add_sub_cancel_left]
      rw [List.getElem?_append_left hj, List.getElem?_eq_getElem hj]
    have hlt : i < ks.length := (List.getElem?_eq_some_iff.1 hkey).1
    have heq : i = before.length + j := by
      rw [← List.getElem?_inj hlt hnodup, hkey, hplace]
    omega
  · rintro ⟨hle, hlt⟩
    rw [h, List.getElem?_append_right hle, List.getElem?_append_left (by omega)] at hkey
    exact List.mem_of_getElem? hkey

theorem mem_keys {xs : List Occurrence} {key : Key}
    : key ∈ keys xs ↔ key = none ∨ ∃ x ∈ xs, x.opens.isSome = true ∧ some x.route = key := by
  simp only [keys, List.mem_cons, List.mem_map, List.mem_filter, and_assoc]

theorem none_mem_above (place : Route → Option Occurrence) (key : Key)
    : none ∈ key :: above place key := by
  cases key with
  | none => exact List.mem_cons_self ..
  | some r => simp [above, around]

theorem some_mem_around {place : Route → Option Occurrence} {r other : Route}
    : some r ∈ around place other ↔ r ∈ other.ancestors ∧ (kindAt place r).isSome = true := by
  simp [around]

section Tree

variable {root : Node}

theorem kindAt_visited {x : Occurrence} (hx : x ∈ Analysis.visited root)
    : kindAt (Analysis.outline root).at? x.route = x.opens := by
  rw [kindAt, Outline.at?_route hx]
  rfl

theorem keys_block {key : Key} (hkey : key ∈ keys (Analysis.visited root))
    : ∃ before block after, keys (Analysis.visited root) = before ++ (key :: block ++ after)
      ∧ ∀ other ∈ keys (Analysis.visited root),
        (other ∈ key :: block ↔ key ∈ other :: above (Analysis.outline root).at? other) := by
  rcases mem_keys.1 hkey with rfl | ⟨x, hx, hopens, rfl⟩
  · refine ⟨[], _, [], (List.append_nil _).symm, ?_⟩
    intro other hother
    exact iff_of_true hother (none_mem_above _ other)
  · obtain ⟨before, inner, after, heq, hinner, houter⟩ := Outline.preorder_block hx
    have hkeys : keys (Analysis.visited root) = keys before ++
        (some x.route :: (inner.filter (·.opens.isSome)).map (fun y => some y.route) ++
          (after.filter (·.opens.isSome)).map (fun y => some y.route)) := by
      rw [Analysis.visited, heq, keys, keys]
      simp [hopens]
    refine ⟨_, _, _, hkeys, ?_⟩
    intro other hother
    rcases mem_keys.1 hother with rfl | ⟨y, hy, hopensy, rfl⟩
    · simp [above]
    · have hkind := kindAt_visited hx
      simp only [List.mem_cons, Option.some.injEq, List.mem_map, List.mem_filter, above,
        some_mem_around, hkind, hopens, and_true]
      constructor
      · rintro (hroute | ⟨z, ⟨hz, _⟩, hroute⟩)
        · exact .inl hroute.symm
        · exact .inr (hroute ▸ hinner z hz)
      · rintro (hroute | hmem)
        · exact .inl hroute.symm
        · -- an occurrence below the one that opens the scope is nowhere else
          rw [Analysis.visited, heq] at hy
          simp only [List.mem_append, List.mem_cons] at hy houter
          rcases hy with hy | rfl | hy | hy
          · exact absurd hmem (houter y (.inl hy))
          · exact .inl rfl
          · exact .inr ⟨y, ⟨hy, hopensy⟩, rfl⟩
          · exact absurd hmem (houter y (.inr hy))

variable {t : ScopeTable}

theorem exists_key (h : Reflects (Analysis.outline root).at? root.value (Analysis.visited root) t)
    {id : Nat} (hid : id < t.size) : ∃ key, (keys (Analysis.visited root))[id]? = some key := by
  rw [h.size] at hid
  exact ⟨_, List.getElem?_eq_getElem hid⟩

theorem mem_chain_iff
    (h : Reflects (Analysis.outline root).at? root.value (Analysis.visited root) t)
    {outer : Nat} {key : Key} (houter : (keys (Analysis.visited root))[outer]? = some key)
    : ∃ last, ∀ inner : Nat, inner < t.size →
        (outer ∈ t.chain inner ↔ outer ≤ inner ∧ inner < last) := by
  obtain ⟨before, block, after, heq, hblock⟩ := keys_block (List.mem_of_getElem? houter)
  have hplace : (keys (Analysis.visited root))[before.length]? = some key := by
    rw [heq]
    simp
  have hfirst : outer = before.length := by
    have hlt := (List.getElem?_eq_some_iff.1 houter).1
    rw [← List.getElem?_inj hlt h.nodup, houter, hplace]
  refine ⟨before.length + (key :: block).length, ?_⟩
  intro inner hinner
  obtain ⟨other, hother⟩ := exists_key h hinner
  rw [h.mem_chain houter hother, ← hblock other (List.mem_of_getElem? hother)]
  rw [mem_block_iff h.nodup heq hother, hfirst]

theorem nested_reflects
    (h : Reflects (Analysis.outline root).at? root.value (Analysis.visited root) t)
    : t.Nested := by
  refine ⟨h.linked, ?_⟩
  intro outer id inner hmem hinner hle hle'
  obtain ⟨other, hother⟩ := exists_key h hinner
  have hkey : (keys (Analysis.visited root))[outer]? ∈
      (other :: above (Analysis.outline root).at? other).map some := by
    rw [← h.chain hother]
    exact List.mem_map_of_mem hmem
  obtain ⟨key, _, hkey⟩ := List.mem_map.1 hkey
  obtain ⟨last, hlast⟩ := mem_chain_iff h hkey.symm
  have hinside := (hlast inner hinner).1 hmem
  exact (hlast id (by omega)).2 ⟨hle, by omega⟩

end Tree

theorem not_isFunction_of_isBlock : ∀ kind ∈ blockKinds, kind ∉ functionKinds := by
  decide

theorem opens_eq_function {kind : String} {parent : Option Value}
    : opens kind parent = some .function ↔ kind ∈ functionKinds := by
  unfold opens
  by_cases hfunction : kind ∈ functionKinds
  · simp [hfunction]
  · simp only [List.contains_iff_mem, hfunction, if_false, iff_false]
    split
    · split <;> simp
    · simp

theorem opens_eq_block {kind : String} {parent : Option Value}
    : opens kind parent = some .block ↔
        kind ∈ blockKinds
        ∧ ¬ (kind = "BlockStatement" ∧ (parent.map isFunction).getD false = true) := by
  unfold opens
  by_cases hblock : kind ∈ blockKinds
  · have hfunction := not_isFunction_of_isBlock kind hblock
    simp [hblock, hfunction]
  · simp only [List.contains_iff_mem, hblock, if_false, false_and, iff_false]
    split <;> simp

theorem opens_cases {kind : String} {parent : Option Value} {opened : Kind}
    (h : opens kind parent = some opened) : opened = .function ∨ opened = .block := by
  unfold opens at h
  split at h
  · injection h with h
    exact .inl h.symm
  · split at h
    · split at h
      · contradiction
      · injection h with h
        exact .inr h.symm
    · contradiction

def IsBody (root : Node) (x : Occurrence) : Prop :=
  x.node.kind = "BlockStatement"
    ∧ ∃ i, ∃ y ∈ Analysis.visited root, x.route = i :: y.route ∧ y.node.kind ∈ functionKinds

theorem parent?_isFunction {root : Node} {x : Occurrence} (hx : x ∈ Analysis.visited root)
    : (x.path.parent?.map isFunction).getD false = true ↔
        ∃ i, ∃ y ∈ Analysis.visited root, x.route = i :: y.route ∧ y.node.kind ∈ functionKinds := by
  rcases Outline.parent_preorder hx with rfl | ⟨i, y, edge, hy, hroute, hpath⟩
  · simp [Path.parent?]
  · have hparent : (x.path.parent?.map isFunction).getD false =
        functionKinds.contains y.node.kind := by
      rw [hpath, Path.parent?, Path.descend, List.getLast?_concat]
      simp [isFunction, y.node.kind_eq]
    rw [hparent, List.contains_iff_mem]
    constructor
    · exact fun hkind => ⟨i, y, hy, hroute, hkind⟩
    · rintro ⟨j, z, hz, hroute', hkind⟩
      rw [hroute, List.cons.injEq] at hroute'
      rwa [List.inj_on_of_nodup_map (Outline.nodup_preorder _ [] []) hy hz hroute'.2]

def placeOf (root : Node) (key : Key) : Nat :=
  (keys (Analysis.visited root)).idxOf key

def openAbove (root : Node) (r : Route) : Nat :=
  r.ancestors.countP fun a => (kindAt (Analysis.outline root).at? a).isSome

theorem length_around (root : Node) (r : Route)
    : (around (Analysis.outline root).at? r).length = openAbove root r + 1 := by
  rw [around, List.length_append, List.length_map, ← List.countP_eq_length_filter]
  rfl

theorem some_mem_keys {root : Node} {x : Occurrence} {kind : Kind}
    (hx : x ∈ Analysis.visited root) (hkind : x.opens = some kind)
    : some x.route ∈ keys (Analysis.visited root) := by
  refine mem_keys.2 (.inr ⟨x, hx, ?_, rfl⟩)
  rw [hkind]
  rfl

theorem getElem?_placeOf {root : Node} {key : Key} (h : key ∈ keys (Analysis.visited root))
    : (keys (Analysis.visited root))[placeOf root key]? = some key :=
  List.getElem?_idxOf h

theorem eq_placeOf {root : Node} (hnodup : (keys (Analysis.visited root)).Nodup) {id : Nat}
    {key : Key} (h : (keys (Analysis.visited root))[id]? = some key) : id = placeOf root key := by
  have hlt := (List.getElem?_eq_some_iff.1 h).1
  rw [← List.getElem?_inj hlt hnodup, h, getElem?_placeOf (List.mem_of_getElem? h)]

theorem map_placeOf {root : Node} (hnodup : (keys (Analysis.visited root)).Nodup)
    : (keys (Analysis.visited root)).map (placeOf root) =
        List.range (keys (Analysis.visited root)).length := by
  apply List.ext_getElem
  · rw [List.length_map, List.length_range]
  · intro i hi _
    rw [List.getElem_map, List.getElem_range, placeOf]
    exact hnodup.idxOf_getElem i _

/--
The shape of the scopes of a tree, where a scope is named by the occurrence that opens it. The
scopes from that of the whole tree inwards are listed in the order of the visits.
-/
structure Shape (root : Node) (table : ScopeTable) : Prop where
  function : ∀ x ∈ Analysis.visited root,
    (x.opens = some .function ↔ x.node.kind ∈ functionKinds)
  block : ∀ x ∈ Analysis.visited root,
    (x.opens = some .block ↔ x.node.kind ∈ blockKinds ∧ ¬ IsBody root x)
  listed : table.preorder Analysis.moduleScope =
    (none :: ((Analysis.visited root).filter (·.opens.isSome)).map (some ·.route)).map (placeOf root)
  distinct : (table.preorder Analysis.moduleScope).Nodup
  module : placeOf root none = Analysis.moduleScope
    ∧ table.depth Analysis.moduleScope = 0
    ∧ ∃ scope, table.scope? Analysis.moduleScope = some scope
      ∧ scope.kind = .module ∧ scope.node = root.value ∧ scope.parent? = none
  opened : ∀ x ∈ Analysis.visited root, ∀ kind, x.opens = some kind →
    (kind = .function ∨ kind = .block)
    ∧ table.depth (placeOf root (some x.route)) = openAbove root x.route + 1
    ∧ ∃ scope, table.scope? (placeOf root (some x.route)) = some scope
      ∧ scope.kind = kind ∧ scope.node = x.node.value
      ∧ scope.parent? = some (placeOf root (enclosing (Analysis.outline root).at? x.route))
  children : ∀ id c : Nat,
    (table.children id).count c = if table.parent? c = some id then 1 else 0
  alone : ∀ id ∈ table.preorder Analysis.moduleScope, id ≠ Analysis.moduleScope →
    (table.scope? id).map (·.kind) ≠ some .module ∧ table.parent? id ≠ none
  chain : ∀ id ∈ table.preorder Analysis.moduleScope,
    table.chain id = id :: ((table.parent? id).map table.chain).getD []
  hoist : ∀ id ∈ table.preorder Analysis.moduleScope, ∃ inside outside,
    table.chain id = inside ++ table.hoistScope id :: outside
    ∧ (∀ other ∈ inside, table.isBlock other = true)
    ∧ table.isBlock (table.hoistScope id) = false

theorem exists_opening {root : Node} {r : Route}
    (h : (kindAt (Analysis.outline root).at? r).isSome = true)
    : ∃ x ∈ Analysis.visited root, ∃ kind, x.route = r ∧ x.opens = some kind := by
  rw [kindAt, Option.isSome_iff_exists] at h
  obtain ⟨kind, hkind⟩ := h
  obtain ⟨x, hx, hkind⟩ := Option.bind_eq_some_iff.1 hkind
  have hroute : x.route = r := by simpa using List.find?_some hx
  exact ⟨x, List.mem_of_find?_eq_some hx, kind, hroute, hkind⟩

theorem enclosing_mem_keys {root : Node} {r : Route}
    : enclosing (Analysis.outline root).at? r ∈ keys (Analysis.visited root) := by
  cases h : enclosing (Analysis.outline root).at? r with
  | none => exact List.mem_cons_self ..
  | some a =>
    have hopens := List.find?_some h
    obtain ⟨x, hx, kind, rfl, hkind⟩ := exists_opening hopens
    exact some_mem_keys hx hkind

theorem own_mem_keys {root : Node} {x : Occurrence} (hx : x ∈ Analysis.visited root)
    : own (Analysis.outline root).at? x.route ∈ keys (Analysis.visited root) := by
  rw [own, kindAt_visited hx]
  split
  next hopens => exact mem_keys.2 (.inr ⟨x, hx, hopens, rfl⟩)
  next => exact enclosing_mem_keys

section Tree

variable {root : Node} {t : ScopeTable}
  (h : Reflects (Analysis.outline root).at? root.value (Analysis.visited root) t)

include h

theorem module_mem_chain {id : Nat} (hid : id < t.size) : 0 ∈ t.chain id := by
  obtain ⟨key, hkey⟩ := exists_key h hid
  exact (h.mem_chain rfl hkey).2 (none_mem_above _ key)

theorem preorder_module : t.preorder Analysis.moduleScope = List.range t.size := by
  have hsize : 0 < t.size := by
    rw [h.size]
    exact Nat.succ_pos _
  exact (nested_reflects h).preorder_eq_range hsize fun id => module_mem_chain h

theorem scope?_module
    : t.depth Analysis.moduleScope = 0
      ∧ ∃ scope, t.scope? Analysis.moduleScope = some scope
        ∧ scope.kind = .module ∧ scope.node = root.value ∧ scope.parent? = none := by
  have hkey : (keys (Analysis.visited root))[Analysis.moduleScope]? = some none := rfl
  obtain ⟨scope, hscope, hholds⟩ := h.scope hkey
  have hparent : t.parent? Analysis.moduleScope = none := Option.map_eq_none_iff.1 (h.parent? hkey)
  constructor
  · have hlength := congrArg List.length (h.chain hkey)
    rw [List.length_map, ← ScopeTable.depth_succ] at hlength
    exact Nat.succ.inj hlength
  · rw [ScopeTable.parent?, hscope] at hparent
    exact ⟨scope, hscope, hholds.kind, hholds.node, hparent⟩

theorem scope?_opened {x : Occurrence} (hx : x ∈ Analysis.visited root) {kind : Kind}
    (hkind : x.opens = some kind)
    : t.depth (placeOf root (some x.route)) = openAbove root x.route + 1
      ∧ ∃ scope, t.scope? (placeOf root (some x.route)) = some scope
        ∧ scope.kind = kind ∧ scope.node = x.node.value
        ∧ scope.parent? =
          some (placeOf root (enclosing (Analysis.outline root).at? x.route)) := by
  have hplace := getElem?_placeOf (some_mem_keys hx hkind)
  obtain ⟨scope, hscope, hholds⟩ := h.scope hplace
  have hparent := h.parent? hplace
  rw [ScopeTable.parent?, hscope] at hparent
  refine ⟨?_, scope, hscope, ?_, ?_, ?_⟩
  · have hlength := congrArg List.length (h.chain hplace)
    rw [List.length_map, List.length_map, ← ScopeTable.depth_succ, List.length_cons, above,
      length_around] at hlength
    exact Nat.succ.inj hlength
  · rw [hholds.kind, Option.bind_some, kindAt_visited hx, hkind]
    rfl
  · have hat : (some x.route).bind (Analysis.outline root).at? = some x := Outline.at?_route hx
    rw [hholds.node, hat]
    rfl
  · obtain ⟨parent, hparent, hkey⟩ := Option.map_eq_some_iff.1 hparent
    rw [← eq_placeOf h.nodup hkey]
    exact hparent

theorem shape_reflects : Shape root t := by
  have hpreorder := preorder_module h
  have inside : ∀ {id : Nat}, id ∈ t.preorder Analysis.moduleScope → id < t.size := by
    intro id hid
    rwa [hpreorder, List.mem_range] at hid
  refine ⟨?_, ?_, ?_, ?_, ⟨rfl, scope?_module h⟩, ?_, ?_, ?_, ?_, ?_⟩
  · intro x _
    exact opens_eq_function
  · intro x hx
    rw [Occurrence.opens, opens_eq_block, parent?_isFunction hx]
    rfl
  · rw [hpreorder, h.size, ← map_placeOf h.nodup]
    rfl
  · rw [hpreorder]
    exact List.nodup_range
  · intro x hx kind hkind
    exact ⟨opens_cases hkind, scope?_opened h hx hkind⟩
  · exact h.linked.count_children
  · intro id hid hne
    obtain ⟨key, hkey⟩ := exists_key h (inside hid)
    rcases mem_keys.1 (List.mem_of_getElem? hkey) with rfl | ⟨x, hx, hopens, rfl⟩
    · exact absurd (eq_placeOf h.nodup hkey) hne
    · obtain ⟨kind, hkind⟩ := Option.isSome_iff_exists.1 hopens
      obtain ⟨_, scope, hscope, hscopeKind, _, hparent⟩ := scope?_opened h hx hkind
      rw [eq_placeOf h.nodup hkey, ScopeTable.parent?, hscope, Option.map_some, Option.bind_some]
      rw [hscopeKind, hparent]
      rcases opens_cases hkind with rfl | rfl
      · simp
      · simp
  · intro id _
    exact t.chain_eq id
  · intro id hid
    have hkey : (keys (Analysis.visited root))[0]? = some none := rfl
    have hmodule : t.isBlock 0 = false := h.isBlock hkey
    exact ScopeTable.hoistScope_split (module_mem_chain h (inside hid)) hmodule

end Tree

/--
The scopes of a tree on which the analysis succeeds: that of the whole tree, then those that the
occurrences open, in the order in which they are entered, each inside that of the nearest occurrence
above it that opens one.
-/
theorem scopesOf_shape (root : Node) (table : ScopeTable) (log : Log)
    (h : scopesOf root.value = (.ok table, log))
    : occurrencesIn .enter (events (Analysis.visitor .silent) .all root
          (Strategy.all_finiteFrom root.value) Analysis.moduleScope
          { state := (Analysis.fresh .silent).restart .silent root.value }) =
        Analysis.visited root
      ∧ Shape root table := by
  obtain ⟨hok, htable⟩ := Analysis.scopesOf_run.1 ⟨log, h⟩
  have hreflects := Analysis.reflects_run hok
  rw [htable] at hreflects
  refine ⟨?_, shape_reflects hreflects⟩
  rw [Analysis.run, walk_eq_visit] at hok
  exact (orderly_history hok).enters

def sampleBody : Node :=
  ⟨.record 10 .map [("type", .str "BlockStatement"), ("body", .list [sampleClass.value])],
    "BlockStatement", rfl⟩

def sampleFunction : Node :=
  ⟨.record 11 .map [("type", .str "ArrowFunctionExpression"), ("body", sampleBody.value)],
    "ArrowFunctionExpression", rfl⟩

/-- The block `{ () => { class a }; { class a } }`, in which the inner blocks are the same. -/
def sampleNest : Node :=
  ⟨.record 12 .map [("type", .str "BlockStatement"),
    ("body", .list [sampleFunction.value, sampleBody.value])], "BlockStatement", rfl⟩

def sampleBodyOutline : Outline Value.NotIterable :=
  .mk sampleBody
    [(⟨"body", some 0⟩, .mk sampleClass [(⟨"id", none⟩, .mk (sampleName 7) [] none)] none)] none

def sampleNestOutline : Outline Value.NotIterable :=
  .mk sampleNest
    [(⟨"body", some 0⟩, .mk sampleFunction [(⟨"body", none⟩, sampleBodyOutline)] none),
      (⟨"body", some 1⟩, sampleBodyOutline)]
    none

theorem outline_sampleNest : Analysis.outline sampleNest = sampleNestOutline := by
  cbv

theorem scopesOf_shape_sample
    : ∃ table log, scopesOf sampleNest.value = (.ok table, log)
      ∧ Shape sampleNest table
      ∧ (table.preorder Analysis.moduleScope).map
          (fun id => ((table.scope? id).map (·.kind), table.parent? id, table.children id)) =
        [(some .module, none, [1]), (some .block, some 0, [2, 3]), (some .function, some 1, []),
          (some .block, some 1, [])] := by
  have hok : (Analysis.run .silent (.fresh .silent) sampleNest.value).1 = .ok () := by
    apply Analysis.run_eq_ok
    rw [Analysis.run_eq_visit, outline_sampleNest]
    decide +kernel
  obtain ⟨log, hlog⟩ := Analysis.scopesOf_run.2 ⟨hok, rfl⟩
  refine ⟨_, log, hlog, (scopesOf_shape sampleNest _ log hlog).2, ?_⟩
  rw [preorder_module (Analysis.reflects_run hok), Analysis.run_eq_visit, outline_sampleNest]
  decide +kernel

end Scope

end Arbor
