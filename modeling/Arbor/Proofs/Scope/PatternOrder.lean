import Mathlib.Data.List.Lattice
import Mathlib.Data.List.Pairwise
import Mathlib.Data.Option.Basic
import Arbor.Proofs.Outline.Identity
import Arbor.Proofs.Scope.Listing
import Arbor.Proofs.Value.Parts
import Arbor.Proofs.Walk.Brackets
import Arbor.Proofs.Walk.Fault

/-!
This module compares the identifiers that a pattern binds with the nodes that a walk over the pattern
enters. The pattern is read by the names of its fields, the walk goes through all fields in their
order; still the identifiers come in the order of the walk, and where no record stands at two places,
nothing in a default or in the key of a property is among them. Main statement:
`identifiers_in_order`.
-/

namespace Arbor

def Node.descent (n : Node) : List Value :=
  n.value :: n.value.children.attach.flatMap fun entry => entry.1.2.descent
termination_by sizeOf n.value
decreasing_by exact Value.sizeOf_child_lt entry.2

theorem Node.descent_eq (n : Node)
    : n.descent = n.value :: n.value.children.flatMap (·.2.descent) := by
  rw [descent, List.flatMap_subtype (g := fun entry : Edge × Node => entry.2.descent)]
  · rw [List.unattach_attach]
  · intro entry hentry
    rfl

theorem Strategy.values_preorder {ε : Type} {n : Node} (h : Acc (all : Strategy ε).IsChild n)
    (path : Path) (route : Route)
    : ((all.outline n h).preorder path route).map (·.node.value) = n.descent := by
  induction h generalizing path route with
  | intro n hacc ih =>
    have hbelow : ∀ (entries : List (Edge × Node)) (i : Nat), entries ⊆ n.value.children →
        (Outline.preorderAll (entries.map fun entry =>
          (entry.1, (all : Strategy ε).outline entry.2 (all_descends.acc entry.2))) path route n
            i).map (·.node.value) =
          entries.flatMap (·.2.descent) := by
      intro entries
      induction entries with
      | nil =>
        intro i _
        rfl
      | cons entry rest ihrest =>
        intro i hsubset
        obtain ⟨e, c⟩ := entry
        rw [List.cons_subset] at hsubset
        rw [List.map_cons, Outline.preorderAll_cons, List.map_append, List.flatMap_cons]
        rw [ih c ⟨e, hsubset.1⟩, ihrest (i + 1) hsubset.2]
    rw [outline_of_descends all_descends, Outline.preorder_mk, List.map_cons, n.descent_eq]
    exact congrArg _ (hbelow _ 0 (List.Subset.refl _))

namespace Value

def descent (v : Value) : List Value :=
  ((Node.ofValue? v).map Node.descent).getD []

theorem descent_node (n : Node) : n.value.descent = n.descent := by
  rw [descent, Node.ofValue?_eq_some.2 rfl]
  rfl

theorem fieldChildren_sublist (v : Value) {name : String} (hname : isHidden name = false)
    : (fieldChildren name (v.field name)).Sublist v.children := by
  rcases field_cases v name with hnull | ⟨id, form, fs, hv, hmem⟩
  · rw [hnull]
    exact List.nil_sublist _
  · generalize v.field name = value at hmem ⊢
    have hshown : (name, value) ∈ v.fields := by
      rw [hv, fields]
      split
      · exact hmem
      · simp [hmem, hname]
    rw [children]
    exact sublist_flatMap_of_mem (fun entry => fieldChildren entry.1 entry.2) hshown

theorem descent_fieldChildren (n : Node) {name : String} (hname : isHidden name = false)
    : ((fieldChildren name (n.value.field name)).flatMap (·.2.descent)).Sublist
        n.value.descent := by
  rw [descent_node, n.descent_eq]
  apply List.Sublist.cons
  exact (fieldChildren_sublist n.value hname).flatMap _

theorem descent_field (n : Node) (name : String) (hname : isHidden name = false)
    : (n.value.field name).descent.Sublist n.value.descent := by
  have hchildren := descent_fieldChildren n hname
  rw [fieldChildren] at hchildren
  rw [descent]
  cases hnode : Node.ofValue? (n.value.field name) with
  | none => exact List.nil_sublist _
  | some m =>
    rw [hnode] at hchildren
    simpa using hchildren

theorem descent_items (n : Node) (name : String) (hname : isHidden name = false)
    : ((n.value.field name).items.flatMap descent).Sublist n.value.descent := by
  have hchildren := descent_fieldChildren n hname
  rw [fieldChildren] at hchildren
  cases hitems : (n.value.field name).items with
  | nil => exact List.nil_sublist _
  | cons item rest =>
    have hitem : item ∈ (n.value.field name).items := by
      rw [hitems]
      exact List.mem_cons_self ..
    rw [ofValue?_of_item hitem] at hchildren
    dsimp only at hchildren
    rw [flatMap_itemChildren Node.descent, hitems] at hchildren
    exact hchildren

/-- A value stands in another one, in elements and in fields with certain names, at any depth. -/
inductive Holds (via : String → Prop) : Value → Value → Prop where
  | self (v : Value) : Holds via v v
  | field {v w : Value} (name : String) (named : via name) (below : Holds via (v.field name) w) :
    Holds via v w
  | item {v item w : Value} (mem : item ∈ v.items) (below : Holds via item w) : Holds via v w

theorem ids_item {v item : Value} (h : item ∈ v.items) : item.recordIds.Sublist v.recordIds := by
  apply List.Sublist.trans ?_ (ids_items v)
  exact sublist_flatMap_of_mem recordIds h

namespace Holds

variable {via : String → Prop} {v w u : Value}

theorem trans (h : Holds via v w) (h' : Holds via w u) : Holds via v u := by
  induction h with
  | self v => exact h'
  | field name named below ih => exact .field name named (ih h')
  | item mem below ih => exact .item mem (ih h')

theorem everywhere {p : Value → Bool} (null : p .null = true) (h : Holds via v w)
    (hv : v.everywhere p = true) : w.everywhere p = true := by
  induction h with
  | self v => exact hv
  | @field v w name named below ih =>
    apply ih
    rcases field_cases v name with hnull | ⟨id, form, fields, rfl, hmem⟩
    · rw [hnull]
      exact null
    · exact everywhere_field hv hmem
  | item mem below ih => exact ih (everywhere_item hv mem)

theorem recordIds (h : Holds via v w) : w.recordIds ⊆ v.recordIds := by
  induction h with
  | self v => exact List.Subset.refl _
  | field name named below ih => exact List.Subset.trans ih (ids_field _ name).subset
  | item mem below ih => exact List.Subset.trans ih (ids_item mem).subset

end Holds

section NoSharing

variable {v : Value} {id : Nat}

theorem exists_entry {name : String} (h : id ∈ (v.field name).recordIds)
    : ∃ own form fields, v = .record own form fields
      ∧ ∃ entry ∈ fields, entry.1 = name ∧ id ∈ entry.2.recordIds := by
  rcases field_cases v name with hnull | ⟨own, form, fields, hv, hmem⟩
  · rw [hnull] at h
    contradiction
  · exact ⟨own, form, fields, hv, (name, v.field name), hmem, rfl, h⟩

theorem not_mem_field (hnodup : v.recordIds.Nodup) (hid : v.id? = some id) (name : String)
    : id ∉ (v.field name).recordIds := by
  intro hmem
  obtain ⟨own, form, fields, rfl, entry, hentry, _, hmem⟩ := exists_entry hmem
  injection hid with hid
  subst hid
  rw [recordIds, List.nodup_cons, idsUnder_eq] at hnodup
  exact hnodup.1 (List.mem_flatMap.2 ⟨entry, hentry, hmem⟩)

theorem eq_of_mem_flatMap {α β : Type} {l : List α} {f : α → List β} (h : (l.flatMap f).Nodup)
    {a b : α} (ha : a ∈ l) (hb : b ∈ l) {x : β} (hx : x ∈ f a) (hx' : x ∈ f b) : a = b := by
  by_contra hne
  have hsymm : Std.Symm (Function.onFun List.Disjoint f) := ⟨fun _ _ hdisjoint => hdisjoint.symm⟩
  exact (List.nodup_flatMap.1 h).2.forall ha hb hne hx hx'

theorem name_eq_of_mem (hnodup : v.recordIds.Nodup) {name name' : String}
    (hmem : id ∈ (v.field name).recordIds) (hmem' : id ∈ (v.field name').recordIds)
    : name = name' := by
  obtain ⟨own, form, fields, rfl, entry, hentry, rfl, hin⟩ := exists_entry hmem
  obtain ⟨_, _, _, heq, entry', hentry', rfl, hin'⟩ := exists_entry hmem'
  injection heq with _ _ heq
  subst heq
  rw [recordIds, List.nodup_cons, idsUnder_eq] at hnodup
  rw [eq_of_mem_flatMap hnodup.2 hentry hentry' hin hin']

theorem item_eq_of_mem (hnodup : v.recordIds.Nodup) {item item' : Value} (hitem : item ∈ v.items)
    (hitem' : item' ∈ v.items) (hmem : id ∈ item.recordIds) (hmem' : id ∈ item'.recordIds)
    : item = item' :=
  eq_of_mem_flatMap ((ids_items v).nodup hnodup) hitem hitem' hmem hmem'

theorem Holds.not_mem_field {via : String → Prop} {w y : Value} {name : String}
    (hnodup : v.recordIds.Nodup) (hw : Holds via v w) (hid : w.id? = some id) (hname : ¬ via name)
    (hy : Holds (fun _ => True) v y) : id ∉ (y.field name).recordIds := by
  -- the two ways part at some value, and there is one way only to a record
  induction hy with
  | self v =>
    cases hw with
    | self => exact Value.not_mem_field hnodup hid name
    | field other named below =>
      intro hmem
      have hown := below.recordIds (mem_recordIds_self hid)
      obtain rfl := name_eq_of_mem hnodup hmem hown
      contradiction
    | item mem below =>
      rw [field_of_item mem]
      exact List.not_mem_nil
  | @field v y other _ hbelow ih =>
    intro hmem
    have hother : id ∈ (v.field other).recordIds := hbelow.recordIds (recordIds_field _ _ hmem)
    cases hw with
    | self => exact Value.not_mem_field hnodup hid other hother
    | field other' named below =>
      obtain rfl := name_eq_of_mem hnodup hother (below.recordIds (mem_recordIds_self hid))
      exact ih ((ids_field _ _).nodup hnodup) below hmem
    | item mem below =>
      rw [field_of_item mem] at hother
      contradiction
  | @item v item y hitem hbelow ih =>
    intro hmem
    have hother : id ∈ item.recordIds := hbelow.recordIds (recordIds_field _ _ hmem)
    cases hw with
    | self =>
      rw [id?_of_item hitem] at hid
      contradiction
    | field other named below =>
      have hown := below.recordIds (mem_recordIds_self hid)
      rw [field_of_item hitem] at hown
      contradiction
    | item mem below =>
      obtain rfl := item_eq_of_mem hnodup hitem mem hother (below.recordIds (mem_recordIds_self hid))
      exact ih ((ids_item mem).nodup hnodup) below hmem

end NoSharing

end Value

namespace Pattern

def parts (p : Value) : List Value :=
  match p.kind? with
  | some "ObjectPattern" => (p.field "properties").items.map ofMember
  | some "ArrayPattern" => (p.field "elements").items
  | some "RestElement" => [p.field "argument"]
  | some "AssignmentPattern" => [p.field "left"]
  | _ => []

theorem mem_parts {p q : Value} : q ∈ parts p ↔ Part p q := by
  unfold parts
  split
  next hkind => rw [part_object hkind, List.mem_map]
  next hkind => rw [part_array hkind]
  next hkind => rw [part_rest hkind, List.mem_singleton]
  next hkind => rw [part_default hkind, List.mem_singleton]
  next hobject harray hrest hdefault =>
    refine iff_of_false List.not_mem_nil ?_
    intro hpart
    cases hpart <;> contradiction

def Found.ids : Found → List Value
  | .ok ids => ids
  | .error _ => []

theorem ids_append {a b : Found} (h : Listed (a.append b))
    : (a.append b).ids = a.ids ++ b.ids := by
  obtain ⟨⟨xs, rfl⟩, ys, rfl⟩ := listed_append.1 h
  rfl

theorem ids_ofAll {items : List Value} (h : Listed (ofAll items))
    : (ofAll items).ids = items.flatMap fun v => (identifiers v).ids := by
  induction items with
  | nil =>
    rw [ofAll]
    rfl
  | cons v rest ih =>
    rw [ofAll] at h ⊢
    rw [ids_append h, ih (listed_append.1 h).2, List.flatMap_cons]

theorem ofEachProperty_eq (items : List Value)
    : ofEachProperty items = ofAll (items.map ofMember) := by
  induction items with
  | nil => rw [ofEachProperty, List.map_nil, ofAll]
  | cons v rest ih => rw [ofEachProperty, ofProperty_eq, ih, List.map_cons, ofAll]

theorem ids_noneIn (v : Value) : (noneIn v).ids = [] := by
  rw [noneIn]
  cases v.elementsOrNone with
  | error e => rfl
  | ok items => rfl

theorem ids_ofElements {v : Value} (h : Listed (ofElements v))
    : (ofElements v).ids = v.items.flatMap fun item => (identifiers item).ids := by
  cases v with
  | list items | tuple items =>
    rw [ofElements] at h ⊢
    exact ids_ofAll h
  | _ => simp [ofElements, ids_noneIn, Value.items]

theorem ids_ofProperties {v : Value} (h : Listed (ofProperties v))
    : (ofProperties v).ids = (v.items.map ofMember).flatMap fun q => (identifiers q).ids := by
  cases v with
  | list items | tuple items =>
    rw [ofProperties, ofEachProperty_eq] at h ⊢
    exact ids_ofAll h
  | _ => simp [ofProperties, ids_noneIn, Value.items]

theorem ids_step {p : Value} (h : Listed (identifiers p))
    : p.kind? = some "Identifier" ∧ (identifiers p).ids = [p] ∧ parts p = []
      ∨ p.kind? ≠ some "Identifier"
        ∧ (identifiers p).ids = (parts p).flatMap fun q => (identifiers q).ids := by
  rw [identifiers_eq] at h ⊢
  unfold parts
  split at h
  next hkind => simp [hkind, Found.ids]
  next hkind => simp [hkind, ids_ofProperties h]
  next hkind => simp [hkind, ids_ofElements h]
  next hkind => simp [hkind]
  next hkind => simp [hkind]
  next hidentifier hobject harray hrest hdefault =>
    refine .inr ⟨hidentifier, ?_⟩
    split <;> first | contradiction | rfl

theorem mem_ids {p v : Value} (h : Listed (identifiers p))
    : v ∈ (identifiers p).ids ↔ Reaches p v ∧ v.kind? = some "Identifier" := by
  rw [Reaches, Relation.ReflTransGen.cases_head_iff]
  rcases ids_step h with ⟨hkind, hids, hparts⟩ | ⟨hkind, hids⟩
  · rw [hids, List.mem_singleton]
    constructor
    · rintro rfl
      exact ⟨.inl rfl, hkind⟩
    · rintro ⟨heq | ⟨q, hpart, _⟩, _⟩
      · exact heq.symm
      · rw [← mem_parts, hparts] at hpart
        contradiction
  · rw [hids, List.mem_flatMap]
    constructor
    · rintro ⟨q, hq, hv⟩
      have hpart := mem_parts.1 hq
      have hlt := hpart.sizeOf_lt
      obtain ⟨hreaches, hidentifier⟩ := (mem_ids (((listed_step p).1 h).2 q hpart)).1 hv
      exact ⟨.inr ⟨q, hpart, hreaches⟩, hidentifier⟩
    · rintro ⟨rfl | ⟨q, hpart, hreaches⟩, hidentifier⟩
      · contradiction
      · have hlt := hpart.sizeOf_lt
        refine ⟨q, mem_parts.2 hpart, ?_⟩
        exact (mem_ids (((listed_step p).1 h).2 q hpart)).2 ⟨hreaches, hidentifier⟩
termination_by sizeOf p

/--
Lists that are made for values hold what a pattern binds, in its order, if the list for each pattern
in it holds those for its parts and the list for an identifier holds the identifier.
-/
theorem ids_sublist {α : Type} {f : Value → List α} {g : Value → α} {p : Value}
    (own : ∀ v, v.kind? = some "Identifier" → g v ∈ f v)
    (below : ∀ q, Reaches p q → ((parts q).flatMap f).Sublist (f q))
    (h : Listed (identifiers p)) : ((identifiers p).ids.map g).Sublist (f p) := by
  rcases ids_step h with ⟨hkind, hids, _⟩ | ⟨_, hids⟩
  · rw [hids, List.map_singleton, List.singleton_sublist]
    exact own p hkind
  · rw [hids, List.map_flatMap]
    apply List.Sublist.trans ?_ (below p .refl)
    apply List.Sublist.flatMap_right
    intro q hq
    have hpart := mem_parts.1 hq
    have hlt := hpart.sizeOf_lt
    apply ids_sublist own ?_ (((listed_step p).1 h).2 q hpart)
    intro q' hreaches
    exact below q' (.head hpart hreaches)
termination_by sizeOf p

theorem ids_parts (p : Value) : ((parts p).flatMap Value.recordIds).Sublist p.recordIds := by
  have hmember : ∀ v, (ofMember v).recordIds.Sublist v.recordIds := by
    intro v
    rw [ofMember]
    split <;> apply Value.ids_field
  unfold parts
  split
  next =>
    rw [List.flatMap_map]
    apply List.Sublist.trans ?_ (Value.ids_field p "properties")
    apply List.Sublist.trans ?_ (Value.ids_items _)
    exact List.Sublist.flatMap_right _ fun v _ => hmember v
  next => exact (Value.ids_items _).trans (Value.ids_field p "elements")
  next =>
    rw [List.flatMap_singleton]
    apply Value.ids_field
  next =>
    rw [List.flatMap_singleton]
    apply Value.ids_field
  next => exact List.nil_sublist _

def MembersAreNodes (p : Value) : Prop :=
  ∀ q v, Reaches p q → q.kind? = some "ObjectPattern" → v ∈ (q.field "properties").items →
    v.isNode = true

theorem descent_parts {p q : Value} (h : MembersAreNodes p) (hreaches : Reaches p q)
    : ((parts q).flatMap Value.descent).Sublist q.descent := by
  have hnode : ∀ {v : Value}, v.isNode = true → ∃ n : Node, n.value = v := by
    intro v hv
    obtain ⟨kind, hkind⟩ := Option.isSome_iff_exists.1 hv
    exact ⟨⟨v, kind, hkind⟩, rfl⟩
  have hmember : ∀ {v : Value}, v.isNode = true → (ofMember v).descent.Sublist v.descent := by
    intro v hv
    obtain ⟨n, rfl⟩ := hnode hv
    rw [ofMember]
    split <;> exact Value.descent_field n _ rfl
  unfold parts
  split
  next hkind =>
    obtain ⟨n, rfl⟩ := hnode (v := q) (by simp [Value.isNode, hkind])
    rw [List.flatMap_map]
    apply List.Sublist.trans ?_ (Value.descent_items n "properties" rfl)
    apply List.Sublist.flatMap_right
    intro v hv
    exact hmember (h n.value v hreaches hkind hv)
  next hkind => exact Value.descent_items ⟨q, _, hkind⟩ _ rfl
  next hkind =>
    rw [List.flatMap_singleton]
    exact Value.descent_field ⟨q, _, hkind⟩ _ rfl
  next hkind =>
    rw [List.flatMap_singleton]
    exact Value.descent_field ⟨q, _, hkind⟩ _ rfl
  next => exact List.nil_sublist _

def leadsToParts (name : String) : Prop :=
  name ∈ ["argument", "left", "elements", "properties", "value"]

theorem Part.holds {p q : Value} (h : Part p q) : Value.Holds leadsToParts p q := by
  cases h with
  | argument kind => exact .field "argument" (by simp [leadsToParts]) (.self _)
  | left kind => exact .field "left" (by simp [leadsToParts]) (.self _)
  | element kind mem =>
    exact .field "elements" (by simp [leadsToParts]) (.item mem (.self _))
  | @property v kind mem =>
    have hmember : Value.Holds leadsToParts v (ofMember v) := by
      rw [ofMember]
      split
      · exact .field "argument" (by simp [leadsToParts]) (.self _)
      · exact .field "value" (by simp [leadsToParts]) (.self _)
    exact .field "properties" (by simp [leadsToParts]) (.item mem hmember)

theorem Reaches.holds {p q : Value} (h : Reaches p q) : Value.Holds leadsToParts p q := by
  induction h with
  | refl => exact .self _
  | tail _ hpart ih => exact ih.trans hpart.holds

theorem nodup_ids {p : Value} (hnodup : p.recordIds.Nodup) (h : Listed (identifiers p))
    : ((identifiers p).ids.map (·.id?)).Nodup := by
  have hsublist : ((identifiers p).ids.map (·.id?)).Sublist (p.recordIds.map some) := by
    apply ids_sublist (f := fun v => v.recordIds.map some) ?_ ?_ h
    · intro v hkind
      obtain ⟨id, form, fields, hv⟩ := Node.exists_record ⟨v, _, hkind⟩
      have hid : v.id? = some id := congrArg Value.id? hv
      rw [hid]
      exact List.mem_map_of_mem (Value.mem_recordIds_self hid)
    · intro q _
      rw [← List.map_flatMap]
      exact (ids_parts q).map some
  exact hsublist.nodup (hnodup.map (Option.some_injective _))

structure Binds (p : Value) (ids : List Value) : Prop where
  mem : ∀ v, v ∈ ids ↔ Reaches p v ∧ v.kind? = some "Identifier"
  once : p.recordIds.Nodup → (ids.map (·.id?)).Nodup
  outside : p.recordIds.Nodup → ∀ v ∈ ids, ∀ id, v.id? = some id →
    ∀ y, Value.Holds (fun _ => True) p y →
      id ∉ (y.field "right").recordIds ∧ id ∉ (y.field "key").recordIds

theorem binds_ids {p : Value} (h : Listed (identifiers p)) : Binds p (identifiers p).ids := by
  refine ⟨fun v => mem_ids h, fun hnodup => nodup_ids hnodup h, ?_⟩
  intro hnodup v hv id hid y hy
  have hholds := ((mem_ids h).1 hv).1.holds
  constructor
  · exact hholds.not_mem_field hnodup hid (by simp [leadsToParts]) hy
  · exact hholds.not_mem_field hnodup hid (by simp [leadsToParts]) hy

section Walk

variable {σ φ κ ε : Type} [Described ε]

theorem descent_of_walk {v : Visitor σ φ κ ε} {n : Node} {context : κ} {s : Session σ}
    (hok : (walk v .all n.value (Strategy.all_finiteFrom _) context s).1 = .ok ())
    : (Walk.occurrencesIn .enter
        (Walk.events v .all n (Strategy.all_finiteFrom _) context s)).map (·.node.value) =
      n.value.descent := by
  rw [Walk.walk_eq_visit] at hok
  rw [Walk.events, (Walk.orderly_history hok).enters, Strategy.unfolding, Strategy.values_preorder,
    Value.descent_node]

/--
The identifiers that a pattern binds are, in this order, among the nodes that any visitor enters in a
walk over the pattern. They are the identifiers that are reached through patterns alone; if no
record stands at two places, each is listed once, and none in a default or in a key.
-/
theorem identifiers_in_order (p : Value) (ids : List Value) (hids : identifiers p = .ok ids)
    (hmembers : MembersAreNodes p) (v : Visitor σ φ κ ε) (context : κ) (s : Session σ)
    : Binds p ids
      ∧ (p.isNode = false → ids = [])
      ∧ ∀ n : Node, n.value = p →
        (walk v .all n.value (Strategy.all_finiteFrom _) context s).1 = .ok () →
        ids.Sublist ((Walk.occurrencesIn .enter
          (Walk.events v .all n (Strategy.all_finiteFrom _) context s)).map (·.node.value)) := by
  have hlisted : Listed (identifiers p) := ⟨ids, hids⟩
  have hown : (identifiers p).ids = ids := by
    rw [hids]
    rfl
  refine ⟨hown ▸ binds_ids hlisted, ?_, ?_⟩
  · intro hnode
    have hkind : p.kind? = none := by simpa [Value.isNode] using hnode
    rw [identifiers_eq, hkind] at hids
    injection hids with hids
    exact hids.symm
  · rintro n rfl hok
    rw [descent_of_walk hok, ← hown, ← List.map_id (identifiers n.value).ids]
    apply ids_sublist ?_ (fun q => descent_parts hmembers) hlisted
    intro v hkind
    have hv := Value.descent_node ⟨v, _, hkind⟩
    rw [Node.descent_eq] at hv
    dsimp only at hv
    rw [hv]
    exact List.mem_cons_self ..

end Walk

def sampleIdentifier (id : Nat) (name : String) : Value :=
  .record id .map [("type", .str "Identifier"), ("name", .str name)]

/-- The pattern `{ a: b = c, ...[d, , ...e] }`. -/
def samplePattern : Node :=
  ⟨.record 0 .map [("type", .str "ObjectPattern"), ("properties", .list [
    .record 1 .map [("type", .str "Property"), ("key", sampleIdentifier 2 "a"),
      ("value", .record 3 .map [("type", .str "AssignmentPattern"),
        ("left", sampleIdentifier 4 "b"), ("right", sampleIdentifier 5 "c")])],
    .record 6 .map [("type", .str "RestElement"),
      ("argument", .record 7 .map [("type", .str "ArrayPattern"),
        ("elements", .list [sampleIdentifier 8 "d", .null,
          .record 9 .map [("type", .str "RestElement"),
            ("argument", sampleIdentifier 10 "e")]])])]])], "ObjectPattern", rfl⟩

theorem identifiers_samplePattern
    : identifiers samplePattern.value =
        .ok [sampleIdentifier 4 "b", sampleIdentifier 8 "d", sampleIdentifier 10 "e"] := by
  rfl

theorem membersAreNodes_samplePattern : MembersAreNodes samplePattern.value := by
  have hall : samplePattern.value.everywhere (fun q =>
      q.kind? ≠ some "ObjectPattern" || (q.field "properties").items.all (·.isNode)) = true := by
    rfl
  intro q v hreaches hkind hv
  have hq := Value.everywhere_self (hreaches.holds.everywhere rfl hall)
  simp only [hkind, ne_eq, not_true_eq_false, decide_false, Bool.false_or] at hq
  exact List.all_eq_true.1 hq v hv

theorem identifiers_in_order_sample
    : samplePattern.value.recordIds.Nodup
      ∧ Binds samplePattern.value
        [sampleIdentifier 4 "b", sampleIdentifier 8 "d", sampleIdentifier 10 "e"]
      ∧ [sampleIdentifier 4 "b", sampleIdentifier 8 "d", sampleIdentifier 10 "e"].Sublist
        ((Walk.occurrencesIn .enter (Walk.events
          (Census.visitor : Visitor Census Unit Unit Script.Failure) .all samplePattern
          (Strategy.all_finiteFrom _) () { state := {} })).map (·.node.value)) := by
  have hinOrder := identifiers_in_order samplePattern.value _ identifiers_samplePattern
    membersAreNodes_samplePattern (Census.visitor : Visitor Census Unit Unit Script.Failure) ()
    { state := {} }
  refine ⟨by decide, hinOrder.1, hinOrder.2.2 samplePattern rfl ?_⟩
  exact Walk.walk_ok Census.compliant_visitor rfl

end Pattern

end Arbor
