import Arbor.Proofs.Outline.Order
import Arbor.Proofs.Value.Reordering
import Mathlib.Data.List.Flatten

/-!
This module is about trees in which no record stands at two places. There an occurrence is known by
the identity of its node, and a record can only be found in the nodes on the way to it
(`suffix_of_mem_recordIds`).
-/

namespace Arbor

namespace Value

mutual

def recordIds : Value → List Nat
  | .record id _ fields => id :: idsUnder fields
  | .list items | .tuple items | .brackets items => idsIn items
  | _ => []

def idsIn : List Value → List Nat
  | [] => []
  | v :: rest => recordIds v ++ idsIn rest

def idsUnder : List (String × Value) → List Nat
  | [] => []
  | (_, v) :: rest => recordIds v ++ idsUnder rest

end

mutual

theorem Reordered.recordIds {v w : Value} : Reordered v w → v.recordIds.Perm w.recordIds
  | .refl v => .refl _
  | .list h => by
    rw [Value.recordIds, Value.recordIds]
    exact h.idsIn
  | .tuple h => by
    rw [Value.recordIds, Value.recordIds]
    exact h.idsIn
  | .record id form h => by
    rw [Value.recordIds, Value.recordIds]
    exact h.idsUnder.cons id

theorem ReorderedItems.idsIn {vs ws : List Value}
    : ReorderedItems vs ws → (idsIn vs).Perm (idsIn ws)
  | .nil => .refl _
  | .cons first rest => by
    rw [Value.idsIn, Value.idsIn]
    exact first.recordIds.append rest.idsIn
  | .swap v w rest => by
    simp only [Value.idsIn, ← List.append_assoc]
    exact List.perm_append_comm.append_right _
  | .trans h h' => h.idsIn.trans h'.idsIn

theorem ReorderedFields.idsUnder {vs ws : List (String × Value)}
    : ReorderedFields vs ws → (idsUnder vs).Perm (idsUnder ws)
  | .nil => .refl _
  | .cons key first rest => by
    rw [Value.idsUnder, Value.idsUnder]
    exact first.recordIds.append rest.idsUnder

end

theorem idsIn_eq (items : List Value) : idsIn items = items.flatMap recordIds := by
  induction items with
  | nil => rfl
  | cons v rest ih => rw [idsIn, ih, List.flatMap_cons]

theorem idsUnder_eq (fields : List (String × Value))
    : idsUnder fields = fields.flatMap (·.2.recordIds) := by
  induction fields with
  | nil => rfl
  | cons field rest ih => rw [idsUnder, ih, List.flatMap_cons]

theorem ids_field (v : Value) (name : String)
    : (v.field name).recordIds.Sublist v.recordIds := by
  rcases field_cases v name with hnull | ⟨id, form, fields, hv, hmem⟩
  · rw [hnull]
    exact List.nil_sublist _
  · generalize v.field name = value at hmem ⊢
    rw [hv, recordIds, idsUnder_eq]
    apply List.Sublist.cons
    exact sublist_flatMap_of_mem (fun entry : String × Value => entry.2.recordIds) hmem

theorem recordIds_field (v : Value) (name : String) : (v.field name).recordIds ⊆ v.recordIds :=
  (ids_field v name).subset

theorem ids_items (v : Value) : (v.items.flatMap recordIds).Sublist v.recordIds := by
  cases v with
  | list items | tuple items =>
    rw [recordIds, idsIn_eq]
    exact List.Sublist.refl _
  | _ => exact List.nil_sublist _

theorem recordIds_element {v item : Value} {items : List Value} (h : v.elementsOrNone = .ok items)
    (hitem : item ∈ items) : item.recordIds ⊆ v.recordIds := by
  rw [elementsOrNone] at h
  split at h
  next =>
    cases v with
    | list items' | tuple items' =>
      injection h with h
      subst h
      rw [recordIds, idsIn_eq]
      exact fun other hother => List.mem_flatMap.2 ⟨item, hitem, hother⟩
    | str s | bytes data =>
      -- a character or a number is no record
      injection h with h
      subst h
      obtain ⟨_, _, rfl⟩ := List.mem_map.1 hitem
      exact List.nil_subset _
    | record id form fields =>
      rw [elements] at h
      split at h
      next =>
        injection h with h
        subst h
        obtain ⟨_, _, rfl⟩ := List.mem_map.1 hitem
        exact List.nil_subset _
      next => contradiction
    | _ => contradiction
  next =>
    injection h with h
    subst h
    contradiction

theorem ids_itemChildren (key : String) (items : List Value)
    : ((itemChildren key items).flatMap (·.2.value.recordIds)).Sublist (idsIn items) := by
  rw [flatMap_itemChildren (·.value.recordIds), idsIn_eq]
  apply List.Sublist.flatMap_right
  intro item _
  cases hnode : Node.ofValue? item with
  | none => exact List.nil_sublist _
  | some n =>
    rw [← Node.ofValue?_eq_some.1 hnode]
    exact List.Sublist.refl _

theorem ids_fieldChildren (key : String) (v : Value)
    : ((fieldChildren key v).flatMap (·.2.value.recordIds)).Sublist v.recordIds := by
  rw [fieldChildren]
  split
  next n hn => simp [Node.ofValue?_eq_some.1 hn]
  next =>
    have hitems := ids_itemChildren key v.items
    cases v with
    | list items | tuple items => exact hitems
    | _ => exact List.nil_sublist _

theorem ids_children (v : Value)
    : (v.children.flatMap (·.2.value.recordIds)).Sublist v.recordIds.tail := by
  cases v with
  | record id form fs =>
    have hfields : (Value.record id form fs).fields.Sublist fs := by
      rw [fields]
      split
      · exact List.Sublist.refl fs
      · exact List.filter_sublist
    rw [children, List.flatMap_assoc, recordIds, List.tail_cons, idsUnder_eq]
    refine List.Sublist.trans ?_ (hfields.flatMap _)
    exact List.Sublist.flatMap_right _ fun field _ => ids_fieldChildren field.1 field.2
  | _ => exact List.nil_sublist _

theorem nodup_child {v : Value} (h : v.recordIds.Nodup) {e : Edge} {c : Node}
    (hchild : (e, c) ∈ v.children) : c.value.recordIds.Nodup := by
  have hnodup := (ids_children v).nodup (h.sublist (List.tail_sublist _))
  exact (List.nodup_flatMap.1 hnodup).1 (e, c) hchild

theorem eq_of_mem_recordIds {v : Value} (h : v.recordIds.Nodup) {j k : Nat} {c d : Edge × Node}
    (hj : v.children[j]? = some c) (hk : v.children[k]? = some d) {id : Nat}
    (hc : id ∈ c.2.value.recordIds) (hd : id ∈ d.2.value.recordIds) : j = k := by
  have hnodup := (ids_children v).nodup (h.sublist (List.tail_sublist _))
  have hdisjoint := List.pairwise_iff_getElem.1 (List.nodup_flatMap.1 hnodup).2
  obtain ⟨hjlt, rfl⟩ := List.getElem?_eq_some_iff.1 hj
  obtain ⟨hklt, rfl⟩ := List.getElem?_eq_some_iff.1 hk
  rcases Nat.lt_trichotomy j k with hlt | heq | hlt
  · exact absurd hd (hdisjoint j k hjlt hklt hlt hc)
  · exact heq
  · exact absurd hc (hdisjoint k j hklt hjlt hlt hd)

theorem recordIds_eq {v : Value} {id : Nat} (h : v.id? = some id)
    : v.recordIds = id :: v.recordIds.tail := by
  cases v with
  | record id' form fields =>
    injection h with h
    rw [recordIds, h]
    rfl
  | _ => contradiction

theorem mem_recordIds_self {v : Value} {id : Nat} (h : v.id? = some id) : id ∈ v.recordIds := by
  rw [recordIds_eq h]
  exact List.mem_cons_self ..

theorem not_mem_child {v : Value} {id : Nat} (hnodup : v.recordIds.Nodup) (h : v.id? = some id)
    {e : Edge} {c : Node} (hchild : (e, c) ∈ v.children) : id ∉ c.value.recordIds := by
  rw [recordIds_eq h, List.nodup_cons] at hnodup
  intro hid
  exact hnodup.1 ((ids_children v).subset (List.mem_flatMap.2 ⟨(e, c), hchild, hid⟩))

end Value

namespace Strategy

variable {ε : Type}

theorem mem_preorder_all {n : Node} {h : Acc (all : Strategy ε).IsChild n} {path : Path}
    {route : Route} {x : Occurrence}
    : x ∈ (all.outline n h).preorder path route
      ↔
      x = ⟨route, path, n⟩
      ∨ ∃ (k : Nat) (e : Edge) (c : Node) (hc : Acc (all : Strategy ε).IsChild c),
          n.value.children[k]? = some (e, c)
          ∧ x ∈ (all.outline c hc).preorder (path.descend n e) (k :: route) := by
  rw [outline_eq_mk, Outline.preorder_mk, List.mem_cons, Outline.mem_preorderAll]
  apply or_congr_right
  constructor
  · rintro ⟨k, e, child, hk, hx⟩
    obtain ⟨c, hentry, hc, rfl⟩ := getElem?_children_outline hk
    rw [Nat.zero_add] at hx
    exact ⟨k, e, c, hc, hentry, hx⟩
  · rintro ⟨k, e, c, hc, hk, hx⟩
    obtain ⟨_, hentry⟩ := exists_children_outline h hk
    refine ⟨k, e, _, hentry, ?_⟩
    rw [Nat.zero_add]
    exact hx

theorem recordIds_preorder {n : Node} {h : Acc (all : Strategy ε).IsChild n} {path : Path}
    {route : Route} {x : Occurrence} (hx : x ∈ (all.outline n h).preorder path route)
    : x.node.value.recordIds ⊆ n.value.recordIds := by
  induction h generalizing path route with
  | intro n _ ih =>
    rcases mem_preorder_all.1 hx with rfl | ⟨k, e, c, hc, hk, hx⟩
    · exact List.Subset.refl _
    · have hchild : (e, c) ∈ n.value.children := List.mem_of_getElem? hk
      intro id hid
      have hid := ih c ⟨e, hchild⟩ hx hid
      apply List.mem_of_mem_tail
      exact (Value.ids_children n.value).subset (List.mem_flatMap.2 ⟨_, hchild, hid⟩)

/-- A record that stands nowhere twice can only be found in the nodes on the way to it. -/
theorem suffix_of_mem_recordIds {n : Node} {h : Acc (all : Strategy ε).IsChild n} {path : Path}
    {route : Route} {x y : Occurrence} (hnodup : n.value.recordIds.Nodup)
    (hx : x ∈ (all.outline n h).preorder path route)
    (hy : y ∈ (all.outline n h).preorder path route) {id : Nat}
    (hid : x.node.value.id? = some id) (hmem : id ∈ y.node.value.recordIds)
    : y.route <:+ x.route := by
  induction h generalizing path route with
  | intro n hacc ih =>
    rcases mem_preorder_all.1 hy with rfl | ⟨k, e', d, hd, hk, hy⟩
    · exact Outline.route_preorder hx
    · have hmem' : id ∈ d.value.recordIds := recordIds_preorder hy hmem
      rcases mem_preorder_all.1 hx with rfl | ⟨j, e, c, hc, hj, hx⟩
      · exact absurd hmem' (Value.not_mem_child hnodup hid (List.mem_of_getElem? hk))
      · have hown : id ∈ c.value.recordIds :=
          recordIds_preorder hx (Value.mem_recordIds_self hid)
        -- a record stands in one child only
        obtain rfl : j = k := Value.eq_of_mem_recordIds hnodup hj hk hown hmem'
        rw [hj, Option.some.injEq, Prod.mk.injEq] at hk
        obtain ⟨rfl, rfl⟩ := hk
        have hchild : (e, c) ∈ n.value.children := List.mem_of_getElem? hj
        exact ih c ⟨e, hchild⟩ (Value.nodup_child hnodup hchild) hx hy

end Strategy

end Arbor
