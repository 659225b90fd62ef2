import Arbor.Location
import Arbor.Proofs.Value.Parts
import Mathlib.Data.List.Forall2

/-!
This module is about values that differ in the forms of their records only. A record may be given in
another form, with the same fields in the same order, and each record for itself. Such values have
the same kinds, children that correspond to each other in order (`Reencoded.children`), and the same
locations (`Reencoded.location`).
-/

namespace Arbor

namespace Value

mutual

/--
The same value, apart from the forms and the identities of the records in it. A record that is
given in another form has no hidden fields.
-/
inductive Reencoded : Value → Value → Prop
  | refl (v : Value) : Reencoded v v
  | list {items others : List Value} (h : ReencodedItems items others) :
      Reencoded (.list items) (.list others)
  | tuple {items others : List Value} (h : ReencodedItems items others) :
      Reencoded (.tuple items) (.tuple others)
  | record (id id' : Nat) {form form' : Form} {fields others : List (String × Value)}
      (node : form.mayBeNode = true) (node' : form'.mayBeNode = true)
      (shown : ∀ name ∈ fields.map (·.1), isHidden name = false)
      (h : ReencodedFields fields others) :
      Reencoded (.record id form fields) (.record id' form' others)

inductive ReencodedItems : List Value → List Value → Prop
  | nil : ReencodedItems [] []
  | cons {v w : Value} {vs ws : List Value} (first : Reencoded v w) (rest : ReencodedItems vs ws) :
      ReencodedItems (v :: vs) (w :: ws)

inductive ReencodedFields : List (String × Value) → List (String × Value) → Prop
  | nil : ReencodedFields [] []
  | cons (key : String) {v w : Value} {vs ws : List (String × Value)} (first : Reencoded v w)
      (rest : ReencodedFields vs ws) : ReencodedFields ((key, v) :: vs) ((key, w) :: ws)

end

theorem ReencodedItems.forall₂ {vs ws : List Value}
    : ReencodedItems vs ws → List.Forall₂ Reencoded vs ws
  | .nil => .nil
  | .cons first rest => .cons first rest.forall₂

def SameField (a b : String × Value) : Prop :=
  a.1 = b.1 ∧ Reencoded a.2 b.2

theorem ReencodedFields.forall₂ {vs ws : List (String × Value)}
    : ReencodedFields vs ws → List.Forall₂ SameField vs ws
  | .nil => .nil
  | .cons _ first rest => .cons ⟨rfl, first⟩ rest.forall₂

theorem names_reencoded {fields others : List (String × Value)}
    (h : List.Forall₂ SameField fields others) : fields.map (·.1) = others.map (·.1) := by
  induction h with
  | nil => rfl
  | cons hfield _ ih => rw [List.map_cons, List.map_cons, hfield.1, ih]

theorem lookup_reencoded {fields others : List (String × Value)}
    (h : List.Forall₂ SameField fields others) (name : String)
    : Option.Rel Reencoded (fields.lookup name) (others.lookup name) := by
  induction h with
  | nil => exact .none
  | @cons a b _ _ hfield _ ih =>
    obtain ⟨key, v⟩ := a
    obtain ⟨key', w⟩ := b
    obtain ⟨hkey, hvalue⟩ := hfield
    dsimp only at hkey hvalue
    subst hkey
    rw [List.lookup_cons, List.lookup_cons]
    cases name == key with
    | true => exact .some hvalue
    | false => exact ih

theorem fields_of_shown {fields : List (String × Value)}
    (h : ∀ name ∈ fields.map (·.1), isHidden name = false) (id : Nat) (form : Form)
    : (record id form fields).fields = fields := by
  rw [Value.fields]
  split
  · rfl
  · rw [List.filter_eq_self]
    intro field hfield
    simp [h field.1 (List.mem_map_of_mem hfield)]

section

variable {v w : Value} (h : Reencoded v w)

include h

theorem Reencoded.field (name : String) : Reencoded (v.field name) (w.field name) := by
  cases h with
  | refl => exact .refl _
  | list _ => exact .refl _
  | tuple _ => exact .refl _
  | record id id' _ _ _ hfields =>
    have hlookup := lookup_reencoded hfields.forall₂ name
    rw [Value.field, Value.field, field?, field?]
    generalize List.lookup name _ = found at hlookup ⊢
    generalize List.lookup name _ = other at hlookup ⊢
    cases hlookup with
    | none => exact .refl _
    | some hvalue => exact hvalue

theorem Reencoded.kind? : v.kind? = w.kind? := by
  cases h with
  | refl => rfl
  | list _ => rfl
  | tuple _ => rfl
  | record id id' hform hform' _ hfields =>
    have hlookup := lookup_reencoded hfields.forall₂ kindField
    rw [Value.kind?, Value.kind?, if_pos hform, if_pos hform']
    generalize List.lookup kindField _ = found at hlookup ⊢
    generalize List.lookup kindField _ = other at hlookup ⊢
    cases hlookup with
    | none => rfl
    | some hvalue => cases hvalue <;> rfl

theorem Reencoded.fields : List.Forall₂ SameField v.fields w.fields := by
  have hrefl : ∀ fs : List (String × Value), List.Forall₂ SameField fs fs := by
    intro fs
    exact List.forall₂_same.2 fun field _ => ⟨rfl, .refl _⟩
  cases h with
  | refl => exact hrefl _
  | list _ => exact .nil
  | tuple _ => exact .nil
  | @record _ _ _ _ fields others _ _ hshown hfields =>
    have hall := hfields.forall₂
    rw [fields_of_shown hshown, fields_of_shown (names_reencoded hall ▸ hshown)]
    exact hall

theorem Reencoded.items : List.Forall₂ Reencoded v.items w.items := by
  cases h with
  | refl => exact List.forall₂_same.2 fun item _ => .refl item
  | list hitems => exact hitems.forall₂
  | tuple hitems => exact hitems.forall₂
  | record _ _ _ _ _ _ => exact .nil

theorem Reencoded.ordinal : Ordinal.ofValue? v = Ordinal.ofValue? w := by
  cases h <;> rfl

end

def SameNode (n m : Node) : Prop :=
  Reencoded n.value m.value

theorem SameNode.kind {n m : Node} (h : SameNode n m) : n.kind = m.kind := by
  have hkind := Reencoded.kind? h
  rw [n.kind_eq, m.kind_eq] at hkind
  exact Option.some.inj hkind

theorem Reencoded.node {n : Node} {w : Value} (h : Reencoded n.value w)
    : ∃ m : Node, m.value = w ∧ m.kind = n.kind :=
  ⟨⟨w, n.kind, h.kind? ▸ n.kind_eq⟩, rfl, rfl⟩

theorem Reencoded.ofValue? {v w : Value} (h : Reencoded v w)
    : Option.Rel SameNode (Node.ofValue? v) (Node.ofValue? w) := by
  cases hv : Node.ofValue? v with
  | none =>
    cases hw : Node.ofValue? w with
    | none => exact .none
    | some m =>
      have hkind := h.kind?
      have hm := Node.ofValue?_eq_some.1 hw
      rw [← hm, m.kind_eq] at hkind
      rw [Node.ofValue?_eq_some (n := ⟨v, m.kind, hkind⟩) |>.2 rfl] at hv
      contradiction
  | some n =>
    have hn := Node.ofValue?_eq_some.1 hv
    subst hn
    obtain ⟨m, rfl, _⟩ := h.node
    rw [Node.ofValue?_eq_some.2 rfl]
    exact .some h

def SameChild (a b : Edge × Node) : Prop :=
  a.1 = b.1 ∧ SameNode a.2 b.2

theorem zipIdx_reencoded {items others : List Value} (h : List.Forall₂ Reencoded items others)
    (k : Nat)
    : List.Forall₂ (fun a b => Reencoded a.1 b.1 ∧ a.2 = b.2) (items.zipIdx k)
        (others.zipIdx k) := by
  induction h generalizing k with
  | nil => exact .nil
  | cons hitem _ ih => exact .cons ⟨hitem, rfl⟩ (ih (k + 1))

theorem itemChildren_reencoded (key : String) {items others : List Value}
    (h : List.Forall₂ Reencoded items others)
    : List.Forall₂ SameChild (itemChildren key items) (itemChildren key others) := by
  refine List.rel_filterMap ?_ (zipIdx_reencoded h 0)
  rintro ⟨item, i⟩ ⟨other, j⟩ ⟨hitem, hplace⟩
  dsimp only at hitem hplace ⊢
  subst hplace
  have hnode := hitem.ofValue?
  generalize Node.ofValue? item = a at hnode ⊢
  generalize Node.ofValue? other = b at hnode ⊢
  cases hnode with
  | none => exact .none
  | some hsame => exact .some ⟨rfl, hsame⟩

theorem Reencoded.children {v w : Value} (h : Reencoded v w)
    : List.Forall₂ SameChild v.children w.children := by
  refine List.rel_flatMap h.fields ?_
  rintro ⟨key, value⟩ ⟨key', other⟩ ⟨hkey, hvalue⟩
  dsimp only at hkey hvalue ⊢
  subst hkey
  have hnode := hvalue.ofValue?
  rw [fieldChildren, fieldChildren]
  generalize Node.ofValue? value = a at hnode ⊢
  generalize Node.ofValue? other = b at hnode ⊢
  cases hnode with
  | none => exact itemChildren_reencoded key hvalue.items
  | some hsame => exact .cons ⟨rfl, hsame⟩ .nil

section Location

variable {v w : Value} (h : Reencoded v w)

include h

theorem Reencoded.position? : Location.position? v = Location.position? w := by
  rw [Location.position?, Location.position?, (h.field "line").ordinal, (h.field "column").ordinal]

theorem Reencoded.range? : Location.range? v = Location.range? w := by
  have hitems := (h.field "range").items
  rw [Location.range?, Location.range?]
  generalize (v.field "range").items = items at hitems ⊢
  generalize (w.field "range").items = others at hitems ⊢
  cases hitems with
  | nil => rfl
  | cons hfirst hrest =>
    cases hrest with
    | nil => rfl
    | cons hsecond hrest =>
      cases hrest with
      | nil => simp only [hfirst.ordinal, hsecond.ordinal]
      | cons _ _ => rfl

theorem Reencoded.offsets : Location.offsets v = Location.offsets w := by
  rw [Location.offsets, Location.offsets, h.range?, Location.flatRange?, Location.flatRange?,
    (h.field "start").ordinal, (h.field "end").ordinal]

theorem Reencoded.fileName (file : Option String)
    : Location.fileName file v = Location.fileName file w := by
  cases file with
  | some _ => rfl
  | none => cases h <;> rfl

theorem Reencoded.location (file : Option String)
    : Location.ofValue? v file = Location.ofValue? w file := by
  have hloc := h.field "loc"
  have hstart := (hloc.field "start").position?
  have hend := (hloc.field "end").position?
  have hsource := (hloc.field "source").fileName file
  rw [Location.ofValue?, Location.ofValue?, h.offsets]
  generalize v.field "loc" = loc at *
  generalize w.field "loc" = loc' at *
  cases hloc with
  | refl => rfl
  | list _ => rfl
  | tuple _ => rfl
  | record _ _ _ _ _ _ =>
    dsimp only
    rw [hstart, hend, hsource]

end Location

end Value

end Arbor
