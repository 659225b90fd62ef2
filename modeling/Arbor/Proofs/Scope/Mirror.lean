import Arbor.Proofs.Scope.Placement
import Arbor.Proofs.Scope.Table

/-!
This module relates a table of scopes to the occurrences that were visited. The table holds the
scopes that these occurrences open, in their order and linked to the scopes around them, and each
scope holds the first binding for each name among those that the occurrences direct to it
(`Mirrors`). There is a lemma for each operation of the analysis on its table.
-/

namespace Arbor

namespace Scope

variable (place : Route → Option Occurrence) (root : Value)

def keys (xs : List Occurrence) : List Key :=
  none :: (xs.filter (·.opens.isSome)).map fun x => some x.route

def direct (r : Route) (b : Target × Value) : Option (Key × Value) :=
  (keyOf place r b.1).map fun key => (key, b.2)

def directed (x : Occurrence) : List (Key × Value) :=
  (declared x.node).filterMap (direct place x.route)

def named (key : Key) (bs : List (Key × Value)) : List (String × Value) :=
  bs.filterMap fun b =>
    match b.2.field "name" with
    | .str name => if b.1 = key then some (name, b.2) else none
    | _ => none

structure Holds (bs : List (Key × Value)) (key : Key) (s : Scope) : Prop where
  kind : s.kind = (key.bind (kindAt place)).getD .module
  node : s.node = ((key.bind place).map (·.node.value)).getD root
  declarations : s.declarations = firstPerName (named key bs)

/-- A table holds the scopes with some keys, in which some bindings were declared. -/
structure Mirrors (ks : List Key) (bs : List (Key × Value)) (t : ScopeTable) : Prop where
  size : t.size = ks.length
  nodup : ks.Nodup
  known : ∀ b ∈ bs, b.1 ∈ ks
  linked : t.Linked
  parent? : ∀ {id key}, ks[id]? = some key →
    (t.parent? id).map (ks[·]?) = key.map fun r => some (enclosing place r)
  scope : ∀ {id key}, ks[id]? = some key → ∃ s, t.scope? id = some s ∧ Holds place root bs key s

theorem named_concat (key : Key) (bs : List (Key × Value)) (b : Key × Value)
    : named key (bs ++ [b]) = named key bs ++ named key [b] := by
  simp [named]

theorem named_eq_nil {key : Key} {bs : List (Key × Value)} (h : ∀ b ∈ bs, b.1 ≠ key)
    : named key bs = [] := by
  rw [named, List.filterMap_eq_nil_iff]
  intro b hb
  split
  · rw [if_neg (h b hb)]
  · rfl

theorem mem_named {key : Key} {bs : List (Key × Value)} {name : String}
    : name ∈ (named key bs).map (·.1)
      ↔
      ∃ identifier, (key, identifier) ∈ bs ∧ identifier.field "name" = .str name := by
  simp only [named, List.mem_map, List.mem_filterMap]
  constructor
  · rintro ⟨entry, ⟨⟨key', identifier⟩, hb, hentry⟩, rfl⟩
    dsimp only at hentry
    split at hentry
    next name hname =>
      rw [Option.ite_none_right_eq_some] at hentry
      obtain ⟨rfl, hentry⟩ := hentry
      injection hentry with hentry
      subst hentry
      exact ⟨identifier, hb, hname⟩
    next => contradiction
  · rintro ⟨identifier, hb, hname⟩
    exact ⟨(name, identifier), ⟨(key, identifier), hb, by simp [hname]⟩, rfl⟩

theorem find?_places {ks : List Key} {p : ScopeId → Bool} {q : Key → Bool}
    (hpq : ∀ id key, ks[id]? = some key → p id = q key) {ids : List ScopeId} {l : List Key}
    (h : ids.map (ks[·]?) = l.map some) {key : Key} (hkey : l.find? q = some key)
    : ∃ id, ids.find? p = some id ∧ ks[id]? = some key := by
  induction ids generalizing l with
  | nil =>
    rw [List.map_nil, List.nil_eq, List.map_eq_nil_iff] at h
    subst h
    contradiction
  | cons id ids ih =>
    cases l with
    | nil => contradiction
    | cons first l =>
      rw [List.map_cons, List.map_cons, List.cons.injEq] at h
      rw [List.find?_cons] at hkey ⊢
      rw [hpq id first h.1]
      cases hq : q first with
      | true =>
        rw [hq] at hkey
        injection hkey with hkey
        subst hkey
        exact ⟨id, rfl, h.1⟩
      | false =>
        rw [hq] at hkey
        exact ih h.2 hkey

namespace Holds

variable {place : Route → Option Occurrence} {root : Value} {bs : List (Key × Value)} {key : Key}
  {s : Scope}

theorem concat (h : Holds place root bs key s) {b : Key × Value} (hb : named key [b] = [])
    : Holds place root (bs ++ [b]) key s := by
  refine ⟨h.kind, h.node, ?_⟩
  rw [named_concat, hb, List.append_nil]
  exact h.declarations

theorem declare (h : Holds place root bs key s) {identifier : Value} {name : String}
    (hname : identifier.field "name" = .str name)
    : Holds place root (bs ++ [(key, identifier)]) key (s.declare name identifier) := by
  have hnamed : named key [(key, identifier)] = [(name, identifier)] := by
    simp [named, hname]
  rw [declare_eq name identifier h.declarations]
  refine ⟨h.kind, h.node, ?_⟩
  rw [named_concat, hnamed]

end Holds

namespace Mirrors

variable {place : Route → Option Occurrence} {root : Value} {ks : List Key}
  {bs : List (Key × Value)} {t : ScopeTable}

theorem eq_of_key (h : Mirrors place root ks bs t) {id id' : ScopeId} {key : Key}
    (hid : ks[id]? = some key) (hid' : ks[id']? = some key) : id = id' := by
  have hlt : id < ks.length := (List.getElem?_eq_some_iff.1 hid).1
  rw [← List.getElem?_inj hlt h.nodup, hid, hid']

theorem chain (h : Mirrors place root ks bs t) {id : Nat} {key : Key} (hid : ks[id]? = some key)
    : (t.chain id).map (ks[·]?) = (key :: above place key).map some := by
  induction id using Nat.strongRecOn generalizing key with
  | ind id ih =>
    have hparent := h.parent? hid
    rw [ScopeTable.chain_eq, List.map_cons, List.map_cons, hid]
    cases key with
    | none =>
      rw [Option.map_eq_none_iff.1 hparent]
      rfl
    | some r =>
      obtain ⟨parent, hparent, houter⟩ := Option.map_eq_some_iff.1 hparent
      have habove := ih parent (ScopeTable.parent_lt hparent) houter
      rw [hparent, above, around_eq, Option.map_some, Option.getD_some, habove]

theorem mem_chain (h : Mirrors place root ks bs t) {outer inner : ScopeId} {key other : Key}
    (houter : ks[outer]? = some key) (hinner : ks[inner]? = some other)
    : outer ∈ t.chain inner ↔ key ∈ other :: above place other := by
  have hmem : some key ∈ (t.chain inner).map (ks[·]?) ↔ key ∈ other :: above place other := by
    rw [h.chain hinner, List.mem_map]
    simp
  rw [← hmem]
  constructor
  · intro hchain
    rw [← houter]
    exact List.mem_map_of_mem hchain
  · intro hkey
    obtain ⟨id, hid, heq⟩ := List.mem_map.1 hkey
    rwa [← h.eq_of_key heq houter]

theorem scope?_eq_none (h : Mirrors place root ks bs t) {id : ScopeId} (hid : ks[id]? = none)
    : t.scope? id = none := by
  apply t.scope?_eq_none
  rw [h.size]
  exact List.getElem?_eq_none_iff.1 hid

theorem parent?_unique (h : Mirrors place root ks bs t) {t' : ScopeTable}
    (h' : Mirrors place root ks bs t') (id : ScopeId) : t.parent? id = t'.parent? id := by
  cases hid : ks[id]? with
  | none =>
    rw [ScopeTable.parent?, ScopeTable.parent?, h.scope?_eq_none hid, h'.scope?_eq_none hid]
  | some key =>
    have hparent := h.parent? hid
    have hparent' := h'.parent? hid
    cases key with
    | none => rw [Option.map_eq_none_iff.1 hparent, Option.map_eq_none_iff.1 hparent']
    | some r =>
      obtain ⟨parent, hparent, hkey⟩ := Option.map_eq_some_iff.1 hparent
      obtain ⟨parent', hparent', hkey'⟩ := Option.map_eq_some_iff.1 hparent'
      rw [hparent, hparent', h.eq_of_key hkey hkey']

theorem unique (h : Mirrors place root ks bs t) {t' : ScopeTable}
    (h' : Mirrors place root ks bs t') : t = t' := by
  have hparents : t.parent? = t'.parent? := funext (h.parent?_unique h')
  apply ScopeTable.eq_of_scope?
  intro id
  cases hid : ks[id]? with
  | none => rw [h.scope?_eq_none hid, h'.scope?_eq_none hid]
  | some key =>
    obtain ⟨s, hs, hholds⟩ := h.scope hid
    obtain ⟨s', hs', hholds'⟩ := h'.scope hid
    have hparent : s.parent? = s'.parent? := by
      have hparent := congrFun hparents id
      rwa [ScopeTable.parent?, ScopeTable.parent?, hs, hs'] at hparent
    -- the links to children follow from those to parents
    have hchildren : s.children = s'.children := by
      have hchildren := h.linked.children id
      rw [hparents, h.size, ← h'.size, ← h'.linked.children id] at hchildren
      rwa [ScopeTable.children, ScopeTable.children, hs, hs'] at hchildren
    have hscope : s = s' := by
      cases s
      cases s'
      rw [Scope.mk.injEq]
      exact ⟨hholds.kind.trans hholds'.kind.symm, hholds.node.trans hholds'.node.symm, hparent,
        hholds.declarations.trans hholds'.declarations.symm, hchildren⟩
    rw [hs, hs', hscope]

theorem declares (h : Mirrors place root ks bs t) {id : ScopeId} {key : Key}
    (hid : ks[id]? = some key) (name : String)
    : t.declares name id = true
      ↔
      ∃ identifier, (key, identifier) ∈ bs ∧ identifier.field "name" = .str name := by
  obtain ⟨s, hs, hholds⟩ := h.scope hid
  rw [ScopeTable.declares, hs, Option.map_some, Option.getD_some, Scope.declares, Scope.names,
    List.contains_iff_mem, hholds.declarations, mem_names_firstPerName, mem_named]

theorem isBlock (h : Mirrors place root ks bs t) {id : ScopeId} {key : Key}
    (hid : ks[id]? = some key)
    : t.isBlock id = isBlockKey place key := by
  obtain ⟨s, hs, hholds⟩ := h.scope hid
  rw [ScopeTable.isBlock, hs, isBlockKey, Option.map_some, hholds.kind]
  cases key.bind (kindAt place) with
  | none => rfl
  | some kind =>
    rw [Bool.eq_iff_iff]
    simp

theorem hoistScope (h : Mirrors place root ks bs t) {outer : ScopeId} {r : Route}
    (houter : ks[outer]? = some (enclosing place r))
    : ks[t.hoistScope outer]? = some (hoisted place r) := by
  have hchain := h.chain houter
  rw [← around_eq] at hchain
  have hblock : ∀ id key, ks[id]? = some key → (!t.isBlock id) = !isBlockKey place key := by
    intro id key hid
    rw [h.isBlock hid]
  obtain ⟨id, hid, hkey⟩ := find?_places hblock hchain (find?_around place r)
  rw [ScopeTable.hoistScope_eq, hid]
  exact hkey

theorem outermost (h : Mirrors place root ks bs t) {outer : ScopeId} {r : Route}
    (houter : ks[outer]? = some (enclosing place r)) : ks[t.outermost outer]? = some none := by
  have hchain := h.chain houter
  rw [← around_eq] at hchain
  have hlast : (t.chain outer).getLast?.map (ks[·]?) = some (some none) := by
    rw [← List.getLast?_map, hchain, List.getLast?_map, getLast?_around]
    rfl
  rw [ScopeTable.getLast?_chain, Option.map_some, Option.some.injEq] at hlast
  exact hlast

theorem targetScope {α : Type} {a : Analysis α} (h : Mirrors place root ks bs a.table)
    {outer inner : ScopeId} {r : Route} (houter : ks[outer]? = some (enclosing place r))
    (hinner : ks[inner]? = some (own place r)) (target : Target)
    : (a.targetScope outer inner target).map (ks[·]?) = (keyOf place r target).map some := by
  cases target with
  | outer => exact congrArg some houter
  | inner => exact congrArg some hinner
  | hoisted => exact congrArg some (h.hoistScope houter)
  | module => exact congrArg some (h.outermost houter)
  | nowhere => rfl

theorem openScope (h : Mirrors place root ks bs t) {outer : ScopeId} {x : Occurrence} {kind : Kind}
    (hplace : place x.route = some x) (hkind : x.opens = some kind) (hnew : some x.route ∉ ks)
    (houter : ks[outer]? = some (enclosing place x.route))
    : Mirrors place root (ks ++ [some x.route]) bs
        (t.openScope kind x.node.value (some outer)).1 := by
  have hlt : outer < ks.length := (List.getElem?_eq_some_iff.1 houter).1
  have hparent : (some outer).filter (· < t.size) = some outer := by
    apply t.filter_parent
    rintro p ⟨⟩
    exact h.size ▸ hlt
  -- a key is the new one, or it was there before
  have cases_key : ∀ {id : Nat} {key : Key}, (ks ++ [some x.route])[id]? = some key →
      id = t.size ∧ key = some x.route ∨ id ≠ t.size ∧ ks[id]? = some key := by
    intro id key hid
    rw [h.size]
    by_cases hlast : id = ks.length
    · rw [hlast, List.getElem?_concat_length, Option.some.injEq] at hid
      exact .inl ⟨hlast, hid.symm⟩
    · have hid' := (List.getElem?_eq_some_iff.1 hid).1
      rw [List.length_append, List.length_singleton] at hid'
      rw [List.getElem?_append_left (by omega)] at hid
      exact .inr ⟨hlast, hid⟩
  refine ⟨?_, ?_, ?_, h.linked.openScope .., ?_, ?_⟩
  · rw [ScopeTable.size_openScope, List.length_append, h.size]
    rfl
  · rw [List.nodup_append]
    refine ⟨h.nodup, List.nodup_singleton _, ?_⟩
    intro key hkey other hother heq
    rw [heq, List.mem_singleton.1 hother] at hkey
    exact hnew hkey
  · intro b hb
    exact List.mem_append_left _ (h.known b hb)
  · intro id key hid
    rw [ScopeTable.parent?_openScope, hparent]
    rcases cases_key hid with ⟨hlast, rfl⟩ | ⟨hlast, hid⟩
    · rw [if_pos hlast, Option.map_some, List.getElem?_append_left hlt, houter]
      rfl
    · rw [if_neg hlast, ← h.parent? hid]
      apply Option.map_congr
      intro parent hparent
      have hlt' := ScopeTable.parent_lt hparent
      have hid' := (List.getElem?_eq_some_iff.1 hid).1
      exact List.getElem?_append_left (Nat.lt_trans hlt' hid')
  · intro id key hid
    rw [ScopeTable.scope?_openScope, hparent]
    rcases cases_key hid with ⟨hlast, rfl⟩ | ⟨hlast, hid⟩
    · rw [if_pos hlast]
      refine ⟨_, rfl, ?_, ?_, ?_⟩
      · simp [kindAt, hplace, hkind]
      · simp [hplace]
      · -- nothing was directed to a scope that was not there
        rw [named_eq_nil]
        · rfl
        · intro b hb heq
          exact hnew (heq ▸ h.known b hb)
    · obtain ⟨s, hs, hholds⟩ := h.scope hid
      rw [if_neg hlast, hs]
      split
      next => exact ⟨_, rfl, hholds.kind, hholds.node, hholds.declarations⟩
      next => exact ⟨s, rfl, hholds⟩

theorem declareIn (h : Mirrors place root ks bs t) {id : ScopeId} {key : Key}
    (hid : ks[id]? = some key) (identifier : Value)
    : Mirrors place root ks (bs ++ [(key, identifier)])
        (Analysis.declareIn t (some id) identifier) := by
  have hknown : ∀ b ∈ bs ++ [(key, identifier)], b.1 ∈ ks := by
    intro b hb
    rcases List.mem_append.1 hb with hb | hb
    · exact h.known b hb
    · rw [List.mem_singleton.1 hb]
      exact List.mem_of_getElem? hid
  unfold Analysis.declareIn
  cases hname : identifier.field "name" with
  | str name =>
    refine ⟨?_, h.nodup, hknown, h.linked.declare .., ?_, ?_⟩
    · rw [ScopeTable.size_declare, h.size]
    · intro other key' hother
      rw [ScopeTable.parent?_declare]
      exact h.parent? hother
    · intro other key' hother
      obtain ⟨s, hs, hholds⟩ := h.scope hother
      rw [ScopeTable.scope?_declare, hs]
      by_cases heq : id = other
      · have hkey : key = key' := by
          rw [heq, hother] at hid
          injection hid with hid
          exact hid.symm
        rw [if_pos heq, hkey]
        exact ⟨_, rfl, hholds.declare hname⟩
      · -- keys do not repeat, so another place has another key
        have hkey : key ≠ key' := by
          rintro rfl
          exact heq (h.eq_of_key hid hother)
        rw [if_neg heq]
        exact ⟨s, rfl, hholds.concat (named_eq_nil (by simpa using hkey))⟩
  | _ =>
    refine ⟨h.size, h.nodup, hknown, h.linked, h.parent?, ?_⟩
    intro other key' hother
    obtain ⟨s, hs, hholds⟩ := h.scope hother
    refine ⟨s, hs, hholds.concat ?_⟩
    simp [named, hname]

theorem bindEntries {α : Type} {a : Analysis α} (h : Mirrors place root ks bs a.table)
    {outer inner : ScopeId} {r : Route} (houter : ks[outer]? = some (enclosing place r))
    (hinner : ks[inner]? = some (own place r)) (entries : List (Target × Value))
    : Mirrors place root ks (bs ++ entries.filterMap (direct place r))
        (entries.foldl (Analysis.bind outer inner) a).table := by
  induction entries generalizing a bs with
  | nil =>
    rw [List.filterMap_nil, List.append_nil]
    exact h
  | cons entry rest ih =>
    obtain ⟨target, identifier⟩ := entry
    have htarget := h.targetScope houter hinner target
    rw [List.foldl_cons, List.filterMap_cons, direct]
    cases hscope : a.targetScope outer inner target with
    | none =>
      rw [hscope, Option.map_none, eq_comm, Option.map_eq_none_iff] at htarget
      rw [htarget]
      apply ih
      rw [Analysis.bind, hscope]
      exact h
    | some id =>
      rw [hscope, Option.map_some, eq_comm, Option.map_eq_some_iff] at htarget
      obtain ⟨key, hkey, hid⟩ := htarget
      rw [hkey, Option.map_some]
      dsimp only
      rw [← List.singleton_append, ← List.append_assoc]
      apply ih
      rw [Analysis.bind, hscope]
      exact h.declareIn hid.symm identifier

theorem bindAll {α : Type} {a a' : Analysis α} (h : Mirrors place root ks bs a.table)
    {outer inner : ScopeId} {x : Occurrence} (houter : ks[outer]? = some (enclosing place x.route))
    (hinner : ks[inner]? = some (own place x.route))
    (hbind : Analysis.bindAll x.node outer inner a = (.ok (), a'))
    : Mirrors place root ks (bs ++ directed place x) a'.table := by
  unfold Analysis.bindAll at hbind
  dsimp only at hbind
  cases hfailure : (bindings x.node).failure with
  | some e =>
    rw [hfailure] at hbind
    injection hbind with herror _
    contradiction
  | none =>
    rw [hfailure] at hbind
    injection hbind with _ ha
    -- what is bound nowhere does not show in the table
    have hdirected : (bindings x.node).entries.filterMap (direct place x.route) =
        directed place x := by
      rw [directed, ← bindings_eq_declared hfailure, List.filterMap_filter]
      apply List.filterMap_congr
      intro b _
      by_cases hb : b.1 = .nowhere
      · simp [hb, direct, keyOf]
      · simp [hb]
    rw [← hdirected, ← ha]
    exact h.bindEntries houter hinner _

theorem openAt {α : Type} {a a' : Analysis α} {xs : List Occurrence} {x : Occurrence}
    {outer : ScopeId} {opened : Option ScopeId}
    (h : Mirrors place root (keys xs) bs a.table) (hplace : place x.route = some x)
    (hnew : x.route ∉ xs.map (·.route))
    (houter : (keys xs)[outer]? = some (enclosing place x.route))
    (hopen : Analysis.openAt ⟨x.node, outer, x.path⟩ a = (opened, a'))
    : Mirrors place root (keys (xs ++ [x])) bs a'.table
      ∧ (keys (xs ++ [x]))[outer]? = some (enclosing place x.route)
      ∧ (keys (xs ++ [x]))[opened.getD outer]? = some (own place x.route) := by
  have hkind : kindAt place x.route = x.opens := by
    rw [kindAt, hplace]
    rfl
  have hopens? : Scope.opens x.node.kind x.path.parent? = x.opens := rfl
  unfold Analysis.openAt at hopen
  dsimp only at hopen
  rw [hopens?] at hopen
  cases hopens : x.opens with
  | none =>
    have hkeys : keys (xs ++ [x]) = keys xs := by
      simp [keys, hopens]
    rw [hopens] at hopen
    injection hopen with hopened ha
    subst hopened ha
    rw [hkeys, own, hkind, hopens]
    exact ⟨h, houter, houter⟩
  | some kind =>
    have hkeys : keys (xs ++ [x]) = keys xs ++ [some x.route] := by
      simp [keys, hopens]
    have hfresh : some x.route ∉ keys xs := by
      intro hmem
      apply hnew
      simp only [keys, List.mem_cons, reduceCtorEq, List.mem_map, false_or] at hmem
      obtain ⟨y, hy, heq⟩ := hmem
      injection heq with heq
      rw [← heq]
      exact List.mem_map_of_mem (List.mem_of_mem_filter hy)
    have hlt : outer < (keys xs).length := (List.getElem?_eq_some_iff.1 houter).1
    rw [hopens] at hopen
    injection hopen with hopened ha
    subst hopened ha
    rw [hkeys, own, hkind, hopens]
    refine ⟨h.openScope hplace hopens hfresh houter, ?_, ?_⟩
    · rw [List.getElem?_append_left hlt, houter]
    · have hid : (a.table.openScope kind x.node.value (some outer)).2 = (keys xs).length := h.size
      rw [Option.getD_some, hid, List.getElem?_concat_length]
      rfl

end Mirrors

end Scope

end Arbor
