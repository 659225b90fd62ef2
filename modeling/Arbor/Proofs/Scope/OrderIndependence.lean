import Arbor.Proofs.Scope.Correspondence

/-!
This module compares the analyses of a tree and of a reordered one. Names are declared, identifiers
are bound and references are noted in the order of the visits, but none of this shows in the end,
if scopes and references are known by the identities of their nodes. The reason is that an
identifier is only bound by a node around it, which is always visited before it
(`mem_referring_visited`). Main statement: both analyses find the same (`order_independent`).
-/

namespace Arbor

open Value

namespace ScopeTable

def label (t : ScopeTable) (id : ScopeId) : Option (Scope.Kind × Option Nat) :=
  (t.scope? id).map fun s => (s.kind, s.node.id?)

structure Agrees (t t' : ScopeTable) : Prop where
  scopes : ((t.preorder Analysis.moduleScope).map t.label).Perm
    ((t'.preorder Analysis.moduleScope).map t'.label)
  distinct : ((t.preorder Analysis.moduleScope).map t.label).Nodup
  parent : ∀ id id', t.label id = t'.label id' →
    (t.parent? id).map t.label = (t'.parent? id').map t'.label
  declares : ∀ id id', t.label id = t'.label id' →
    ∀ name, t.declares name id = t'.declares name id'

end ScopeTable

namespace Reference

structure Label where
  node : Option Nat
  name : String
  scope : Option (Scope.Kind × Option Nat)
  owner : Option (Option (Scope.Kind × Option Nat))

def label (t : ScopeTable) (r : Reference) : Label :=
  ⟨r.node.id?, r.name, t.label r.scope, (r.resolve t).map t.label⟩

structure Agree (t t' : ScopeTable) (references references' : List Reference) : Prop where
  labels : (references.map (label t)).Perm (references'.map (label t'))
  distinct : (references.map (·.node.id?)).Nodup

end Reference

namespace Scope

variable {root root' : Node}

def labelOf (root : Node) (key : Key) : Kind × Option Nat :=
  ((key.bind (kindAt (Analysis.outline root).at?)).getD .module,
    (((key.bind (Analysis.outline root).at?).map (·.node.value)).getD root.value).id?)

theorem labelOf_opened {x : Occurrence} (hx : x ∈ Analysis.visited root)
    : labelOf root (some x.route) = (x.opens.getD .module, x.node.value.id?) := by
  have hat : (Analysis.outline root).at? x.route = some x := Outline.at?_route hx
  rw [labelOf, Option.bind_some, Option.bind_some, kindAt_visited hx, hat]
  rfl

theorem opened_ne_module {x : Occurrence} (h : x.opens.isSome = true)
    : x.opens.getD .module ≠ .module := by
  obtain ⟨kind, hkind⟩ := Option.isSome_iff_exists.1 h
  rw [hkind, Option.getD_some]
  rcases opens_cases hkind with rfl | rfl
  · simp
  · simp

theorem eq_of_labelOf_eq (hdistinct : root.value.recordIds.Nodup) {key other : Key}
    (hkey : key ∈ keys (Analysis.visited root)) (hother : other ∈ keys (Analysis.visited root))
    (h : labelOf root key = labelOf root other) : key = other := by
  rcases mem_keys.1 hkey with rfl | ⟨x, hx, hopens, rfl⟩
  · rcases mem_keys.1 hother with rfl | ⟨y, hy, hopens, rfl⟩
    · rfl
    · rw [labelOf_opened hy] at h
      exact absurd (congrArg Prod.fst h).symm (opened_ne_module hopens)
  · rw [labelOf_opened hx] at h
    rcases mem_keys.1 hother with rfl | ⟨y, hy, _, rfl⟩
    · exact absurd (congrArg Prod.fst h) (opened_ne_module hopens)
    · rw [labelOf_opened hy] at h
      rw [eq_of_id?_eq hdistinct hx hy (congrArg Prod.snd h)]

theorem KeyMatches.labelOf_eq (h : Reordered root.value root'.value) {key key' : Key}
    (hkey : KeyMatches root root' key key') : labelOf root key = labelOf root' key' := by
  cases hkey with
  | module => exact congrArg (Prod.mk Kind.module) h.id?
  | opened hmatch left right =>
    rw [labelOf_opened left, labelOf_opened right, hmatch.opens, hmatch.node.id?]

section Table

variable {t : ScopeTable}
  (h : Reflects (Analysis.outline root).at? root.value (Analysis.visited root) t)

include h

theorem label_eq (id : ScopeId)
    : t.label id = (keys (Analysis.visited root))[id]?.map (labelOf root) := by
  rw [ScopeTable.label]
  cases hid : (keys (Analysis.visited root))[id]? with
  | none =>
    rw [h.scope?_eq_none hid]
    rfl
  | some key =>
    obtain ⟨scope, hscope, hholds⟩ := h.scope hid
    rw [hscope, Option.map_some, hholds.kind, hholds.node]
    rfl

theorem map_label {ids : List ScopeId} {l : List Key}
    (hids : ids.map ((keys (Analysis.visited root))[·]?) = l.map some)
    : ids.map t.label = (l.map (labelOf root)).map some := by
  have hlabel : t.label = Option.map (labelOf root) ∘ ((keys (Analysis.visited root))[·]?) :=
    funext (label_eq h)
  rw [hlabel, ← List.map_map, hids, List.map_map, List.map_map]
  rfl

theorem map_label_preorder
    : (t.preorder Analysis.moduleScope).map t.label =
        ((keys (Analysis.visited root)).map (labelOf root)).map some := by
  apply map_label h
  rw [preorder_module h, h.size]
  apply List.ext_getElem
  · simp
  · intro i hi _
    rw [List.length_map, List.length_range] at hi
    simp

end Table

/--
A tree and a reordered one, where no record stands twice and the bindings of all nodes can be
listed. All that is known about the one tree is known about the other as well.
-/
structure Variants (root root' : Node) : Prop where
  reordered : Reordered root.value root'.value
  distinct : root.value.recordIds.Nodup
  distinct' : root'.value.recordIds.Nodup
  listed : ∀ x ∈ Analysis.visited root, (bindings x.node).failure = none
  listed' : ∀ x ∈ Analysis.visited root', (bindings x.node).failure = none

namespace Variants

theorem symm (v : Variants root root') : Variants root' root :=
  ⟨v.reordered.symm, v.distinct', v.distinct, v.listed', v.listed⟩

theorem of_listed (reordered : Reordered root.value root'.value)
    (distinct : root.value.recordIds.Nodup)
    (listed : ∀ x ∈ Analysis.visited root, (bindings x.node).failure = none)
    : Variants root root' := by
  refine ⟨reordered, distinct, reordered.recordIds.nodup_iff.1 distinct, listed, ?_⟩
  intro x' hx'
  obtain ⟨x, hx, hmatch⟩ := exists_match reordered.symm hx'
  exact (carriedBy_bindings hmatch.symm.node (listed x hx)).1

variable (v : Variants root root')

include v

theorem mem_labels {label : Kind × Option Nat}
    (h : label ∈ (keys (Analysis.visited root)).map (labelOf root))
    : label ∈ (keys (Analysis.visited root')).map (labelOf root') := by
  obtain ⟨key, hkey, rfl⟩ := List.mem_map.1 h
  obtain ⟨key', hkey', hmatch⟩ := exists_keyMatch v.reordered hkey
  exact List.mem_map.2 ⟨key', hkey', (hmatch.labelOf_eq v.reordered).symm⟩

theorem keyMatches {key key' : Key} (hkey : key ∈ keys (Analysis.visited root))
    (hkey' : key' ∈ keys (Analysis.visited root')) (h : labelOf root key = labelOf root' key')
    : KeyMatches root root' key key' := by
  obtain ⟨other, hother, hmatch⟩ := exists_keyMatch v.reordered hkey
  have hlabel : labelOf root' other = labelOf root' key' :=
    (hmatch.labelOf_eq v.reordered).symm.trans h
  rwa [eq_of_labelOf_eq v.distinct' hother hkey' hlabel] at hmatch

end Variants

theorem nodup_labels (hdistinct : root.value.recordIds.Nodup)
    (hnodup : (keys (Analysis.visited root)).Nodup)
    : ((keys (Analysis.visited root)).map (labelOf root)).Nodup :=
  hnodup.map_on fun _ hkey _ hother => eq_of_labelOf_eq hdistinct hkey hother

theorem map_find?_eq {α β γ : Type} {f : α → γ} {g : β → γ} {p : α → Bool} {q : β → Bool}
    (hpq : ∀ a b, f a = g b → p a = q b) {l : List α} {l' : List β} (h : l.map f = l'.map g)
    : (l.find? p).map f = (l'.find? q).map g := by
  induction l generalizing l' with
  | nil =>
    obtain rfl : l' = [] := List.map_eq_nil_iff.1 h.symm
    rfl
  | cons a l ih =>
    obtain ⟨b, rest, rfl, hb, hrest⟩ := List.map_eq_cons_iff.1 h.symm
    rw [List.find?_cons, List.find?_cons, hpq a b hb.symm]
    cases q b with
    | true => exact congrArg some hb.symm
    | false => exact ih hrest.symm

theorem map_labelOf (h : Reordered root.value root'.value) {l l' : List Key}
    (hkeys : List.Forall₂ (KeyMatches root root') l l')
    : l.map (labelOf root) = l'.map (labelOf root') := by
  induction hkeys with
  | nil => rfl
  | cons hkey _ ih => rw [List.map_cons, List.map_cons, hkey.labelOf_eq h, ih]

section Tables

variable (v : Variants root root') {t t' : ScopeTable}
  (h : Reflects (Analysis.outline root).at? root.value (Analysis.visited root) t)
  (h' : Reflects (Analysis.outline root').at? root'.value (Analysis.visited root') t')

include v h h'

theorem keys_of_label_eq {id id' : ScopeId} (hlabel : t.label id = t'.label id')
    : (keys (Analysis.visited root))[id]? = none ∧ (keys (Analysis.visited root'))[id']? = none
      ∨ ∃ key key', (keys (Analysis.visited root))[id]? = some key
        ∧ (keys (Analysis.visited root'))[id']? = some key' ∧ KeyMatches root root' key key' := by
  rw [label_eq h, label_eq h'] at hlabel
  cases hid : (keys (Analysis.visited root))[id]? with
  | none =>
    rw [hid, Option.map_none, eq_comm, Option.map_eq_none_iff] at hlabel
    exact .inl ⟨rfl, hlabel⟩
  | some key =>
    rw [hid, Option.map_some, eq_comm, Option.map_eq_some_iff] at hlabel
    obtain ⟨key', hid', hlabel⟩ := hlabel
    refine .inr ⟨key, key', rfl, hid', ?_⟩
    exact v.keyMatches (List.mem_of_getElem? hid) (List.mem_of_getElem? hid') hlabel.symm

theorem map_label_chain {id id' : ScopeId} (hlabel : t.label id = t'.label id')
    : (t.chain id).map t.label = (t'.chain id').map t'.label := by
  rcases keys_of_label_eq v h h' hlabel with ⟨hid, hid'⟩ | ⟨key, key', hid, hid', hkey⟩
  · rw [ScopeTable.chain_eq, ScopeTable.chain_eq, ScopeTable.parent?, ScopeTable.parent?,
      h.scope?_eq_none hid, h'.scope?_eq_none hid']
    exact congrArg ([·]) hlabel
  · rw [map_label h (h.chain hid), map_label h' (h'.chain hid')]
    rw [map_labelOf v.reordered (.cons hkey (matches_above hkey))]

theorem declares_eq {id id' : ScopeId} (hlabel : t.label id = t'.label id') (name : String)
    : t.declares name id = t'.declares name id' := by
  rcases keys_of_label_eq v h h' hlabel with ⟨hid, hid'⟩ | ⟨key, key', hid, hid', hkey⟩
  · rw [ScopeTable.declares, ScopeTable.declares, h.scope?_eq_none hid, h'.scope?_eq_none hid']
  · rw [Bool.eq_iff_iff, h.declares hid, h'.declares hid', ← mem_named, ← mem_named]
    exact ⟨declaredIn_reordered v.reordered v.distinct' v.listed hkey,
      declaredIn_reordered v.symm.reordered v.distinct v.listed' hkey.symm⟩

theorem map_label_resolve {id id' : ScopeId} (hlabel : t.label id = t'.label id') (name : String)
    : (t.resolve id name).map t.label = (t'.resolve id' name).map t'.label := by
  rw [ScopeTable.resolve_eq, ScopeTable.resolve_eq]
  exact map_find?_eq (fun _ _ hlabel => declares_eq v h h' hlabel name)
    (map_label_chain v h h' hlabel)

theorem agrees_reflects : t.Agrees t' := by
  have hnodup := nodup_labels v.distinct h.nodup
  have hnodup' := nodup_labels v.distinct' h'.nodup
  refine ⟨?_, ?_, ?_, fun id id' => declares_eq v h h'⟩
  · rw [map_label_preorder h, map_label_preorder h']
    refine ((List.perm_ext_iff_of_nodup hnodup hnodup').2 fun label => ?_).map some
    exact ⟨v.mem_labels, v.symm.mem_labels⟩
  · rw [map_label_preorder h]
    exact hnodup.map (Option.some_injective _)
  · intro id id' hlabel
    rw [ScopeTable.parent?_eq, ScopeTable.parent?_eq, ← List.head?_map, ← List.head?_map,
      List.map_tail, List.map_tail, map_label_chain v h h' hlabel]

end Tables

end Scope

namespace Reference

open Analysis Scope

variable {root root' : Node}

theorem sublist_referring (bound : List Nat) (xs : List Occurrence)
    : (referring bound xs).Sublist xs := by
  induction xs generalizing bound with
  | nil => exact .refl _
  | cons x rest ih =>
    rw [referring]
    split
    · exact (ih _).cons_cons x
    · exact (ih _).cons x

theorem mem_bound_before (hdistinct : root.value.recordIds.Nodup) {x : Occurrence}
    {before after : List Occurrence} (h : visited root = before ++ x :: after) {id : Nat}
    (hid : x.node.value.id? = some id)
    : id ∈ boundBy x.node ++ boundAfter [] before ↔ id ∈ boundAfter [] (visited root) := by
  have hx : x ∈ visited root := by
    rw [h]
    exact List.mem_append_right _ (List.mem_cons_self ..)
  rw [List.mem_append, mem_boundAfter, mem_boundAfter]
  constructor
  · rintro (hmem | hmem | ⟨y, hy, hmem⟩)
    · exact .inr ⟨x, hx, hmem⟩
    · contradiction
    · rw [h]
      exact .inr ⟨y, List.mem_append_left _ hy, hmem⟩
  · rintro (hmem | ⟨y, hy, hmem⟩)
    · contradiction
    · -- what a node binds is inside it, so the node is on the way to the identifier
      obtain ⟨b, hb, hbound⟩ := mem_boundBy.1 hmem
      have hinside := inside_bindings y.node b hb (mem_recordIds_self hbound)
      have hsuffix := Strategy.suffix_of_mem_recordIds hdistinct hx hy hid hinside
      by_cases hroute : y.route = x.route
      · rw [← List.inj_on_of_nodup_map (Outline.nodup_preorder _ [] []) hy hx hroute]
        exact .inl hmem
      · have hbefore := Outline.mem_before h hy (Route.mem_ancestors.2 ⟨hsuffix, hroute⟩)
        exact .inr (.inr ⟨y, hbefore, hmem⟩)

theorem mem_referring_visited (hdistinct : root.value.recordIds.Nodup) {x : Occurrence}
    : x ∈ referring [] (visited root)
      ↔
      x ∈ visited root ∧ isUse (boundAfter [] (visited root)) x = true := by
  rw [mem_referring]
  constructor
  · rintro ⟨before, after, h, huse⟩
    rw [isUse_congr fun id hid => mem_bound_before hdistinct h hid] at huse
    rw [h] at huse ⊢
    exact ⟨List.mem_append_right _ (List.mem_cons_self ..), huse⟩
  · rintro ⟨hx, huse⟩
    obtain ⟨before, after, h⟩ := List.append_of_mem hx
    refine ⟨before, after, h, ?_⟩
    rwa [isUse_congr fun id hid => mem_bound_before hdistinct h hid]

theorem mem_bound_reordered (v : Variants root root') {id : Nat}
    (h : id ∈ boundAfter [] (visited root)) : id ∈ boundAfter [] (visited root') := by
  rw [mem_boundAfter] at h ⊢
  rcases h with h | ⟨x, hx, h⟩
  · contradiction
  · obtain ⟨b, hb, hid⟩ := mem_boundBy.1 h
    obtain ⟨x', hx', hmatch⟩ := exists_match v.reordered hx
    obtain ⟨b', hb', _, hreordered⟩ := (carriedBy_bindings hmatch.node (v.listed x hx)).2 b hb
    exact .inr ⟨x', hx', mem_boundBy.2 ⟨b', hb', hreordered.id?.symm.trans hid⟩⟩

theorem isUse_matches {x x' : Occurrence} (h : Matches root root' x x') (bound : List Nat)
    : isUse bound x = isUse bound x' := by
  have hname := h.node.field "name"
  rw [isUse, isUse, h.kind, h.node.id?, h.isNamePosition]
  generalize x.node.value.field "name" = name at hname ⊢
  generalize x'.node.value.field "name" = name' at hname ⊢
  cases hname <;> rfl

theorem mem_referring_matches (v : Variants root root') {x x' : Occurrence}
    (h : Matches root root' x x') (hx' : x' ∈ visited root')
    (hx : x ∈ referring [] (visited root)) : x' ∈ referring [] (visited root') := by
  have huse := ((mem_referring_visited v.distinct).1 hx).2
  rw [isUse_matches h] at huse
  rw [mem_referring_visited v.distinct', ← huse]
  refine ⟨hx', isUse_congr fun id _ => ?_⟩
  exact ⟨mem_bound_reordered v.symm, mem_bound_reordered v⟩

def atOccurrence (root : Node) : Occurrence → Reference :=
  ofOccurrence fun r => placeOf root (own (outline root).at? r)

theorem eq_atOccurrence (hnodup : (keys (visited root)).Nodup) {x : Occurrence} {r : Reference}
    (h : StandsAt (outline root).at? (keys (visited root)) x r) : atOccurrence root x = r := by
  rw [atOccurrence, ofOccurrence, ← eq_placeOf hnodup h.scope, h.name, ← h.node, ← h.path]

theorem label_matches (v : Variants root root') {t t' : ScopeTable}
    (h : Reflects (outline root).at? root.value (visited root) t)
    (h' : Reflects (outline root').at? root'.value (visited root') t') {x x' : Occurrence}
    (hmatch : Matches root root' x x') (hx : x ∈ visited root) (hx' : x' ∈ visited root')
    : label t (atOccurrence root x) = label t' (atOccurrence root' x') := by
  have hscope : t.label (atOccurrence root x).scope = t'.label (atOccurrence root' x').scope := by
    have hkeys := (matches_own hmatch hx hx').labelOf_eq v.reordered
    have hown := getElem?_placeOf (own_mem_keys hx)
    have hown' := getElem?_placeOf (own_mem_keys hx')
    rw [label_eq h, label_eq h', atOccurrence, atOccurrence, ofOccurrence, ofOccurrence, hown,
      hown', Option.map_some, Option.map_some, hkeys]
  have hname : (atOccurrence root x).name = (atOccurrence root' x').name := by
    have hname := hmatch.node.field "name"
    rw [atOccurrence, atOccurrence, ofOccurrence, ofOccurrence]
    dsimp only
    generalize x.node.value.field "name" = name at hname ⊢
    generalize x'.node.value.field "name" = name' at hname ⊢
    cases hname <;> rfl
  have howner := map_label_resolve v h h' hscope (atOccurrence root x).name
  rw [label, label, resolve, resolve, howner, hscope, hname]
  congr 1
  exact hmatch.node.id?

def allIn (root : Node) : List Reference :=
  (referring [] (visited root)).map (atOccurrence root)

theorem nodup_allIn (hdistinct : root.value.recordIds.Nodup)
    : ((allIn root).map (·.node.id?)).Nodup := by
  have hids : ((visited root).map (·.node.value.id?)).Nodup :=
    (Outline.nodup_preorder _ [] []).of_map.map_on fun _ hx _ hy => eq_of_id?_eq hdistinct hx hy
  rw [allIn, List.map_map]
  exact hids.sublist ((sublist_referring _ _).map _)

theorem nodup_label {references : List Reference} (h : (references.map (·.node.id?)).Nodup)
    (t : ScopeTable) : (references.map (label t)).Nodup := by
  apply List.Nodup.of_map Label.node
  rw [List.map_map]
  exact h

theorem unresolved_label (t : ScopeTable) (references : List Reference)
    : (unresolved t references).map (label t) =
        (references.map (label t)).filter (·.owner.isNone) := by
  rw [List.filter_map, unresolved]
  congr 2
  funext r
  exact Option.isNone_map.symm

theorem Agree.unresolved {t t' : ScopeTable} {references references' : List Reference}
    (h : Agree t t' references references')
    : Agree t t' (unresolved t references) (unresolved t' references') := by
  refine ⟨?_, h.distinct.sublist (List.filter_sublist.map _)⟩
  rw [unresolved_label, unresolved_label]
  exact h.labels.filter _

section Tables

variable (v : Variants root root') {t t' : ScopeTable}
  (h : Reflects (outline root).at? root.value (visited root) t)
  (h' : Reflects (outline root').at? root'.value (visited root') t')

include v h h'

theorem mem_labels {l : Label} (hl : l ∈ (allIn root).map (label t))
    : l ∈ (allIn root').map (label t') := by
  rw [allIn, List.map_map, List.mem_map] at hl ⊢
  obtain ⟨x, hreferring, rfl⟩ := hl
  have hx := (sublist_referring _ _).subset hreferring
  obtain ⟨x', hx', hmatch⟩ := exists_match v.reordered hx
  exact ⟨x', mem_referring_matches v hmatch hx' hreferring,
    (label_matches v h h' hmatch hx hx').symm⟩

theorem agree_allIn : Agree t t' (allIn root) (allIn root') := by
  have hdistinct := nodup_allIn v.distinct
  have hdistinct' := nodup_allIn v.distinct'
  refine ⟨?_, hdistinct⟩
  refine (List.perm_ext_iff_of_nodup (nodup_label hdistinct t) (nodup_label hdistinct' t')).2 ?_
  exact fun l => ⟨mem_labels v h h', mem_labels v.symm h' h⟩

end Tables

structure Finds (root : Value) (table : ScopeTable) (references free : List Reference) : Prop where
  scopes : (scopesOf root).1 = .ok table
  collected : ∃ s, Analysis.run hooks (.fresh hooks) root = (.ok (), s)
    ∧ s.state.table = table ∧ s.state.notes = references
  free : (freeReferences root).1 = .ok free

theorem collected_eq (hok : (collection root).1 = .ok ()) : collected root = allIn root := by
  obtain ⟨hreflects, _, hnoted⟩ :=
    run_keeps (P := Noted (outline root).at?) keeps_noted ⟨rfl, .nil⟩ hok
  have hall : List.Forall₂ (fun x r => atOccurrence root x = r) (referring [] (visited root))
      (collected root) :=
    hnoted.imp fun _ _ h => eq_atOccurrence hreflects.nodup h
  rw [← List.forall₂_map_left_iff, List.forall₂_eq_eq_eq] at hall
  exact hall.symm

theorem finds_listed (hlisted : ∀ x ∈ visited root, (bindings x.node).failure = none)
    : Reflects (outline root).at? root.value (visited root) (scopes root)
      ∧ Finds root.value (scopes root) (allIn root) (unresolved (scopes root) (allIn root)) := by
  have hok : (collection root).1 = .ok () := run_ok_iff.2 hlisted
  have hsilent : (run .silent (.fresh .silent) root.value).1 = .ok () := run_ok_iff.2 hlisted
  have hreflects := reflects_run hok
  have hcollected := collected_eq hok
  refine ⟨hreflects, ?_, ⟨(collection root).2, ?_, rfl, hcollected⟩, ?_⟩
  · have htable := (reflects_run hsilent).unique hreflects
    obtain ⟨log, hscopes⟩ := scopesOf_run.2 ⟨hsilent, htable⟩
    exact congrArg Prod.fst hscopes
  · rw [← hok]
    rfl
  · rw [← hcollected]
    obtain ⟨log, hfree⟩ := freeReferences_collection.2 ⟨hok, rfl⟩
    exact congrArg Prod.fst hfree

theorem run_of_freeReferences {root : Value} {free : List Reference}
    (h : (freeReferences root).1 = .ok free) : (run hooks (.fresh hooks) root).1 = .ok () := by
  unfold freeReferences at h
  generalize run hooks (.fresh hooks) root = out at h ⊢
  obtain ⟨result, s⟩ := out
  cases result with
  | error fault => contradiction
  | ok u => rfl

/--
The order of statements, or of the elements of any list in a tree, does not matter to the analyses.
Where no record stands twice and one of the analyses returns, both return, on the reordered tree as
well. They find the same scopes with the same parents and names there, and the same references,
which stand in the same scopes and refer to the same scopes; so the same references are free.
-/
theorem order_independent (root reordered : Value) (h : Reordered root reordered)
    (hdistinct : root.recordIds.Nodup)
    (hreturns : (∃ table, (scopesOf root).1 = .ok table)
      ∨ ∃ free, (freeReferences root).1 = .ok free)
    : ∃ table references free table' references' free',
        Finds root table references free
        ∧ Finds reordered table' references' free'
        ∧ table.Agrees table'
        ∧ Agree table table' references references'
        ∧ Agree table table' free free' := by
  obtain ⟨root, rfl, hlisted⟩ : ∃ n : Node, n.value = root ∧
      ∀ x ∈ visited n, (bindings x.node).failure = none := by
    rcases hreturns with ⟨table, hscopes⟩ | ⟨free, hfree⟩
    · exact listed_of_run (scopesOf_run.1 ⟨_, Prod.ext hscopes rfl⟩).1
    · exact listed_of_run (run_of_freeReferences hfree)
  obtain ⟨root', rfl, _⟩ := h.node
  have v := Variants.of_listed h hdistinct hlisted
  obtain ⟨hreflects, hfinds⟩ := finds_listed v.listed
  obtain ⟨hreflects', hfinds'⟩ := finds_listed v.listed'
  have hagree := agree_allIn v hreflects hreflects'
  exact ⟨_, _, _, _, _, _, hfinds, hfinds', agrees_reflects v hreflects hreflects', hagree,
    hagree.unresolved⟩

def sampleVarReordered : Value :=
  .record 1 .map [("type", .str "VariableDeclaration"), ("kind", .str "var"),
    ("declarations", .list [(sampleDeclarator 4).value, (sampleDeclarator 2).value])]

/-- The block `{ a; b; var a, a }`, read from its end. -/
def sampleReordered : Value :=
  .record 0 .map [("type", .str "BlockStatement"),
    ("body", .list [sampleVarReordered, (sampleUse 9 "b").value, (sampleUse 8 "a").value])]

theorem reordered_sampleVar : Reordered sampleVar.value sampleVarReordered :=
  .record 1 .map (.cons "type" (.refl _) (.cons "kind" (.refl _)
    (.cons "declarations" (.list (.swap _ _ [])) .nil)))

theorem reordered_sampleScript : Reordered sampleScript.value sampleReordered := by
  refine .record 0 .map (.cons "type" (.refl _) (.cons "body" (.list ?_) .nil))
  refine .trans (.of_perm (List.reverse_perm _).symm) ?_
  exact .cons reordered_sampleVar (.refl _)

theorem listed_sampleScript : ∀ x ∈ visited sampleScript, (bindings x.node).failure = none := by
  have hnone : ∀ x ∈ sampleScriptOutline.preorder [] [],
      (bindings x.node).failure.isNone = true := by
    decide +kernel
  rw [visited, outline_sampleScript]
  exact fun x hx => Option.isNone_iff_eq_none.1 (hnone x hx)

theorem order_independent_sample
    : Reordered sampleScript.value sampleReordered
      ∧ sampleScript.value.recordIds.Nodup
      ∧ ∃ table references free table' references' free',
        Finds sampleScript.value table references free
        ∧ Finds sampleReordered table' references' free'
        ∧ table.Agrees table'
        ∧ Agree table table' references references'
        ∧ Agree table table' free free' := by
  have hdistinct : sampleScript.value.recordIds.Nodup := by decide
  obtain ⟨_, hfinds⟩ := finds_listed listed_sampleScript
  exact ⟨reordered_sampleScript, hdistinct,
    order_independent _ _ reordered_sampleScript hdistinct (.inl ⟨_, hfinds.scopes⟩)⟩

end Reference

end Arbor
