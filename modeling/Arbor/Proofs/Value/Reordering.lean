import Arbor.Proofs.Value.Parts
import Mathlib.Data.List.Perm.Basic

/-!
This module is about values that differ in the order of elements only. The elements of any list or
tuple in a value may be in another order, at any depth; fields keep their order. Such values have
the same identity, kind and fields, and children that correspond to each other (`mem_children`).
-/

namespace Arbor

namespace Value

mutual

/-- The same value, apart from the order of the elements of the lists and tuples in it. -/
inductive Reordered : Value → Value → Prop
  | refl (v : Value) : Reordered v v
  | list {items others : List Value} (h : ReorderedItems items others) :
      Reordered (.list items) (.list others)
  | tuple {items others : List Value} (h : ReorderedItems items others) :
      Reordered (.tuple items) (.tuple others)
  | record (id : Nat) (form : Form) {fields others : List (String × Value)}
      (h : ReorderedFields fields others) :
      Reordered (.record id form fields) (.record id form others)

inductive ReorderedItems : List Value → List Value → Prop
  | nil : ReorderedItems [] []
  | cons {v w : Value} {vs ws : List Value} (first : Reordered v w) (rest : ReorderedItems vs ws) :
      ReorderedItems (v :: vs) (w :: ws)
  | swap (v w : Value) (rest : List Value) : ReorderedItems (v :: w :: rest) (w :: v :: rest)
  | trans {us vs ws : List Value} (h : ReorderedItems us vs) (h' : ReorderedItems vs ws) :
      ReorderedItems us ws

inductive ReorderedFields : List (String × Value) → List (String × Value) → Prop
  | nil : ReorderedFields [] []
  | cons (key : String) {v w : Value} {vs ws : List (String × Value)} (first : Reordered v w)
      (rest : ReorderedFields vs ws) : ReorderedFields ((key, v) :: vs) ((key, w) :: ws)

end

mutual

theorem Reordered.symm {v w : Value} : Reordered v w → Reordered w v
  | .refl v => .refl v
  | .list h => .list h.symm
  | .tuple h => .tuple h.symm
  | .record id form h => .record id form h.symm

theorem ReorderedItems.symm {vs ws : List Value} : ReorderedItems vs ws → ReorderedItems ws vs
  | .nil => .nil
  | .cons first rest => .cons first.symm rest.symm
  | .swap v w rest => .swap w v rest
  | .trans h h' => .trans h'.symm h.symm

theorem ReorderedFields.symm {vs ws : List (String × Value)}
    : ReorderedFields vs ws → ReorderedFields ws vs
  | .nil => .nil
  | .cons key first rest => .cons key first.symm rest.symm

end

mutual

theorem Reordered.trans {u v w : Value} : Reordered u v → Reordered v w → Reordered u w
  | .refl _, h => h
  | .list h, .refl _ => .list h
  | .list h, .list h' => .list (.trans h h')
  | .tuple h, .refl _ => .tuple h
  | .tuple h, .tuple h' => .tuple (.trans h h')
  | .record id form h, .refl _ => .record id form h
  | .record id form h, .record _ _ h' => .record id form (h.trans h')

theorem ReorderedFields.trans {us vs ws : List (String × Value)}
    : ReorderedFields us vs → ReorderedFields vs ws → ReorderedFields us ws
  | .nil, h => h
  | .cons key first rest, .cons _ first' rest' => .cons key (first.trans first') (rest.trans rest')

end

theorem ReorderedItems.refl (items : List Value) : ReorderedItems items items := by
  induction items with
  | nil => exact .nil
  | cons v rest ih => exact .cons (.refl v) ih

theorem ReorderedItems.of_perm {items others : List Value} (h : items.Perm others)
    : ReorderedItems items others := by
  induction h with
  | nil => exact .nil
  | cons v _ ih => exact .cons (.refl v) ih
  | swap v w rest => exact .swap w v rest
  | trans _ _ ih ih' => exact .trans ih ih'

theorem ReorderedItems.mem {items others : List Value} {v : Value}
    : ReorderedItems items others → v ∈ items → ∃ w ∈ others, Reordered v w
  | .nil, hv => by contradiction
  | .cons first rest, hv => by
    rcases List.mem_cons.1 hv with rfl | hv
    · exact ⟨_, List.mem_cons_self .., first⟩
    · obtain ⟨w, hw, h⟩ := rest.mem hv
      exact ⟨w, List.mem_cons_of_mem _ hw, h⟩
  | .swap u w rest, hv => ⟨v, (List.Perm.swap w u rest).mem_iff.1 hv, .refl v⟩
  | .trans h h', hv => by
    obtain ⟨w, hw, hfirst⟩ := h.mem hv
    obtain ⟨x, hx, hsecond⟩ := h'.mem hw
    exact ⟨x, hx, hfirst.trans hsecond⟩

theorem ReorderedItems.isEmpty {items others : List Value}
    : ReorderedItems items others → items.isEmpty = others.isEmpty
  | .nil => rfl
  | .cons _ _ => rfl
  | .swap _ _ _ => rfl
  | .trans h h' => h.isEmpty.trans h'.isEmpty

theorem ReorderedFields.isEmpty {fields others : List (String × Value)}
    : ReorderedFields fields others → fields.isEmpty = others.isEmpty
  | .nil => rfl
  | .cons _ _ _ => rfl

theorem ReorderedFields.names {fields others : List (String × Value)}
    : ReorderedFields fields others → fields.map (·.1) = others.map (·.1)
  | .nil => rfl
  | .cons key _ rest => congrArg (key :: ·) rest.names

theorem ReorderedFields.mem {fields others : List (String × Value)} {key : String} {v : Value}
    : ReorderedFields fields others → (key, v) ∈ fields → ∃ w, (key, w) ∈ others ∧ Reordered v w
  | .nil, hv => by contradiction
  | .cons key' first rest, hv => by
    rcases List.mem_cons.1 hv with heq | hv
    · injection heq with hkey hvalue
      subst hkey hvalue
      exact ⟨_, List.mem_cons_self .., first⟩
    · obtain ⟨w, hw, h⟩ := rest.mem hv
      exact ⟨w, List.mem_cons_of_mem _ hw, h⟩

theorem ReorderedFields.lookup {fields others : List (String × Value)}
    : ReorderedFields fields others → (name : String) →
      Option.Rel Reordered (fields.lookup name) (others.lookup name)
  | .nil, _ => .none
  | .cons key first rest, name => by
    rw [List.lookup_cons, List.lookup_cons]
    cases name == key with
    | true => exact .some first
    | false => exact rest.lookup name

theorem elements_record (id : Nat) (form : Form) (fields : List (String × Value))
    : (record id form fields).elements =
        if form.isMapping then .ok ((fields.map (·.1)).map .str)
        else .error ⟨record id form fields⟩ := by
  rw [elements, List.map_map]
  rfl

section

variable {v w : Value} (h : Reordered v w)

include h

theorem Reordered.id? : v.id? = w.id? := by
  cases h <;> rfl

theorem Reordered.eq_str {s : String} (hv : v = .str s) : w = .str s := by
  subst hv
  cases h
  rfl

theorem Reordered.field (name : String) : Reordered (v.field name) (w.field name) := by
  cases h with
  | refl => exact .refl _
  | list _ => exact .refl _
  | tuple _ => exact .refl _
  | record id form hfields =>
    have hlookup := hfields.lookup name
    rw [Value.field, Value.field, field?, field?]
    generalize List.lookup name _ = found at hlookup ⊢
    generalize List.lookup name _ = other at hlookup ⊢
    cases hlookup with
    | none => exact .refl _
    | some hvalue => exact hvalue

theorem Reordered.kind? : v.kind? = w.kind? := by
  cases h with
  | refl => rfl
  | list _ => rfl
  | tuple _ => rfl
  | record id form hfields =>
    have hlookup := hfields.lookup kindField
    rw [Value.kind?, Value.kind?]
    generalize List.lookup kindField _ = found at hlookup ⊢
    generalize List.lookup kindField _ = other at hlookup ⊢
    cases hlookup with
    | none => rfl
    | some hvalue => cases hvalue <;> rfl

theorem Reordered.isTruthy : v.isTruthy = w.isTruthy := by
  cases h with
  | refl => rfl
  | list hitems => rw [Value.isTruthy, Value.isTruthy, hitems.isEmpty]
  | tuple hitems => rw [Value.isTruthy, Value.isTruthy, hitems.isEmpty]
  | record id form hfields => rw [Value.isTruthy, Value.isTruthy, hfields.isEmpty]

theorem Reordered.items : ReorderedItems v.items w.items := by
  cases h with
  | refl => exact .refl _
  | list hitems => exact hitems
  | tuple hitems => exact hitems
  | record _ _ _ => exact .nil

theorem Reordered.elements {items : List Value} (hv : v.elements = .ok items)
    : ∃ others, w.elements = .ok others ∧ ReorderedItems items others := by
  cases h with
  | refl => exact ⟨items, hv, .refl items⟩
  | list hitems =>
    injection hv with hv
    exact ⟨_, rfl, hv ▸ hitems⟩
  | tuple hitems =>
    injection hv with hv
    exact ⟨_, rfl, hv ▸ hitems⟩
  | record id form hfields =>
    rw [elements_record] at hv ⊢
    rw [hfields.names] at hv
    split at hv
    next hmapping =>
      injection hv with hv
      rw [if_pos hmapping, hv]
      exact ⟨items, rfl, .refl items⟩
    next => contradiction

theorem Reordered.elementsOrNone {items : List Value} (hv : v.elementsOrNone = .ok items)
    : ∃ others, w.elementsOrNone = .ok others ∧ ReorderedItems items others := by
  rw [Value.elementsOrNone] at hv ⊢
  rw [← h.isTruthy]
  by_cases htruthy : v.isTruthy = true
  · rw [if_pos htruthy] at hv ⊢
    exact h.elements hv
  · rw [if_neg htruthy] at hv ⊢
    injection hv with hv
    exact ⟨[], rfl, hv ▸ .nil⟩

theorem Reordered.mem_fields {key : String} {value : Value} (hfield : (key, value) ∈ v.fields)
    : ∃ other, (key, other) ∈ w.fields ∧ Reordered value other := by
  cases h with
  | refl => exact ⟨value, hfield, .refl value⟩
  | list _ => contradiction
  | tuple _ => contradiction
  | record id form hfields =>
    rw [Value.fields] at hfield ⊢
    split at hfield
    next hlists =>
      rw [if_pos hlists]
      exact hfields.mem hfield
    next hlists =>
      rw [if_neg hlists]
      obtain ⟨hmem, hshown⟩ := List.mem_filter.1 hfield
      obtain ⟨other, hother, hvalue⟩ := hfields.mem hmem
      exact ⟨other, List.mem_filter.2 ⟨hother, hshown⟩, hvalue⟩

end

theorem Reordered.node {n : Node} {w : Value} (h : Reordered n.value w)
    : ∃ n' : Node, n'.value = w ∧ n'.kind = n.kind :=
  ⟨⟨w, n.kind, h.kind? ▸ n.kind_eq⟩, rfl, rfl⟩

theorem Reordered.mem_children {v w : Value} (h : Reordered v w) {e : Edge} {n : Node}
    (hchild : (e, n) ∈ v.children)
    : ∃ e' n', (e', n') ∈ w.children ∧ e'.key = e.key ∧ Reordered n.value n'.value := by
  obtain ⟨⟨key, value⟩, hfield, hchild⟩ := List.mem_flatMap.1 hchild
  obtain ⟨other, hother, hvalue⟩ := h.mem_fields hfield
  have hkey : e.key = key := key_fieldChildren hchild
  rcases mem_fieldChildren hchild with hn | hn
  · rw [← hn] at hvalue
    obtain ⟨n', rfl, _⟩ := hvalue.node
    exact ⟨_, n', mem_children_field hother rfl, hkey.symm, hvalue⟩
  · obtain ⟨item, hitem, hreordered⟩ := hvalue.items.mem hn
    obtain ⟨n', rfl, _⟩ := hreordered.node
    obtain ⟨i, hi⟩ := List.mem_iff_getElem?.1 hitem
    have hsequence : value.kind? = none := by
      cases value <;> first | rfl | contradiction
    have hnone : Node.ofValue? other = none := by
      cases hnode : Node.ofValue? other with
      | none => rfl
      | some m =>
        have hkind := m.kind_eq
        rw [Node.ofValue?_eq_some.1 hnode, ← hvalue.kind?, hsequence] at hkind
        contradiction
    exact ⟨_, n', mem_children_item hother hnone hi, hkey.symm, hreordered⟩

end Value

end Arbor
