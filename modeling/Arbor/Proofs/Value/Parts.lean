import Arbor.Node
import Mathlib.Data.List.Nodup

/-!
This module is about conditions that hold in every part of a value, and about one of them: that no
record has two fields with the same name. Where it holds, every child of a node has an edge of its
own (`nodup_edges`).
-/

namespace Arbor

theorem Node.exists_record (n : Node) : ∃ id f fields, n.value = .record id f fields := by
  obtain ⟨v, kind, h⟩ := n
  cases v with
  | record id f fields => exact ⟨id, f, fields, rfl⟩
  | _ => contradiction

theorem lookup_of_nodup {α β : Type} [BEq α] [LawfulBEq α] {entries : List (α × β)} {key : α}
    {value : β} (hnodup : (entries.map (·.1)).Nodup) (h : (key, value) ∈ entries)
    : entries.lookup key = some value := by
  induction entries with
  | nil => contradiction
  | cons entry rest ih =>
    obtain ⟨key', value'⟩ := entry
    rw [List.map_cons, List.nodup_cons] at hnodup
    rcases List.mem_cons.1 h with heq | hrest
    · injection heq with hkey hvalue
      rw [hkey, hvalue, List.lookup_cons_self]
    · have hne : key ≠ key' := by
        intro hkey
        exact hnodup.1 (List.mem_map.2 ⟨(key, value), hrest, hkey⟩)
      rw [List.lookup_cons, beq_false_of_ne hne]
      exact ih hnodup.2 hrest

theorem sublist_flatMap_of_mem {α β : Type} {a : α} {l : List α} (f : α → List β) (h : a ∈ l)
    : (f a).Sublist (l.flatMap f) := by
  rw [List.flatMap_def]
  apply List.sublist_flatten_of_mem
  exact List.mem_map_of_mem h

namespace Value

theorem field_cases (v : Value) (name : String)
    : v.field name = .null
      ∨ ∃ id form fields, v = .record id form fields ∧ (name, v.field name) ∈ fields := by
  cases v with
  | record id form fields =>
    rw [field, field?]
    cases hlookup : fields.lookup name with
    | none => exact .inl rfl
    | some value =>
      obtain ⟨before, after, hfields, _⟩ := List.lookup_eq_some_iff.1 hlookup
      refine .inr ⟨id, form, fields, rfl, ?_⟩
      rw [Option.getD_some, hfields]
      exact List.mem_append_right _ (List.mem_cons_self ..)
  | _ => exact .inl rfl

mutual

def everywhere (p : Value → Bool) : Value → Bool
  | .list items => p (.list items) && everywhereIn p items
  | .tuple items => p (.tuple items) && everywhereIn p items
  | .record id form fields => p (.record id form fields) && everywhereUnder p fields
  | v => p v

def everywhereIn (p : Value → Bool) : List Value → Bool
  | [] => true
  | v :: rest => everywhere p v && everywhereIn p rest

def everywhereUnder (p : Value → Bool) : List (String × Value) → Bool
  | [] => true
  | (_, v) :: rest => everywhere p v && everywhereUnder p rest

end

theorem everywhereIn_iff {p : Value → Bool} {items : List Value}
    : everywhereIn p items = true ↔ ∀ item ∈ items, item.everywhere p = true := by
  induction items with
  | nil => simp [everywhereIn]
  | cons v rest ih => simp [everywhereIn, ih]

theorem everywhereUnder_iff {p : Value → Bool} {fields : List (String × Value)}
    : everywhereUnder p fields = true ↔ ∀ field ∈ fields, field.2.everywhere p = true := by
  induction fields with
  | nil => simp [everywhereUnder]
  | cons field rest ih => simp [everywhereUnder, ih]

theorem everywhere_self {p : Value → Bool} {v : Value} (h : v.everywhere p = true)
    : p v = true := by
  cases v with
  | list items | tuple items | record id form fields =>
    rw [everywhere, Bool.and_eq_true] at h
    exact h.1
  | _ => exact h

theorem everywhere_item {p : Value → Bool} {v item : Value} (h : v.everywhere p = true)
    (hitem : item ∈ v.items) : item.everywhere p = true := by
  cases v with
  | list items | tuple items =>
    rw [everywhere, Bool.and_eq_true, everywhereIn_iff] at h
    exact h.2 item hitem
  | _ => contradiction

theorem everywhere_field {p : Value → Bool} {id : Nat} {form : Form}
    {fields : List (String × Value)} (h : (Value.record id form fields).everywhere p = true)
    {key : String} {v : Value} (hfield : (key, v) ∈ fields) : v.everywhere p = true := by
  rw [everywhere, Bool.and_eq_true, everywhereUnder_iff] at h
  exact h.2 (key, v) hfield

theorem everywhere_child {p : Value → Bool} {v : Value} (h : v.everywhere p = true) {e : Edge}
    {c : Node} (hchild : (e, c) ∈ v.children) : c.value.everywhere p = true := by
  simp only [children, List.mem_flatMap] at hchild
  obtain ⟨⟨key, value⟩, hf, hc⟩ := hchild
  have hvalue : value.everywhere p = true := by
    cases v with
    | record id form fs =>
      have hm : (key, value) ∈ fs := by
        simp only [fields] at hf
        split at hf
        · exact hf
        · exact (List.mem_filter.1 hf).1
      exact everywhere_field h hm
    | _ => contradiction
  rcases mem_fieldChildren hc with heq | hi
  · rwa [heq]
  · exact everywhere_item hvalue hi

mutual

theorem everywhere_mono {p q : Value → Bool} (h : ∀ v, p v = true → q v = true)
    : (v : Value) → v.everywhere p = true → v.everywhere q = true
  | .list items, hv => by
    rw [everywhere, Bool.and_eq_true] at hv ⊢
    exact ⟨h _ hv.1, everywhereIn_mono h items hv.2⟩
  | .tuple items, hv => by
    rw [everywhere, Bool.and_eq_true] at hv ⊢
    exact ⟨h _ hv.1, everywhereIn_mono h items hv.2⟩
  | .record id form fields, hv => by
    rw [everywhere, Bool.and_eq_true] at hv ⊢
    exact ⟨h _ hv.1, everywhereUnder_mono h fields hv.2⟩
  | .null, hv | .bool _, hv | .int _, hv | .float _, hv | .str _, hv | .bytes _, hv | .keep, hv
  | .symbol _, hv | .brackets _, hv => h _ hv

theorem everywhereIn_mono {p q : Value → Bool} (h : ∀ v, p v = true → q v = true)
    : (items : List Value) → everywhereIn p items = true → everywhereIn q items = true
  | [], _ => rfl
  | v :: rest, hv => by
    rw [everywhereIn, Bool.and_eq_true] at hv ⊢
    exact ⟨everywhere_mono h v hv.1, everywhereIn_mono h rest hv.2⟩

theorem everywhereUnder_mono {p q : Value → Bool} (h : ∀ v, p v = true → q v = true)
    : (fields : List (String × Value)) → everywhereUnder p fields = true →
      everywhereUnder q fields = true
  | [], _ => rfl
  | (_, v) :: rest, hv => by
    rw [everywhereUnder, Bool.and_eq_true] at hv ⊢
    exact ⟨everywhere_mono h v hv.1, everywhereUnder_mono h rest hv.2⟩

end

def hasDistinctNames : Value → Bool
  | .record _ _ fields => decide (fields.map (·.1)).Nodup
  | _ => true

theorem nodup_fields {v : Value} (h : v.hasDistinctNames = true) : (v.fields.map (·.1)).Nodup := by
  cases v with
  | record id form fs =>
    have hnodup : (fs.map (·.1)).Nodup := of_decide_eq_true h
    rw [fields]
    split
    · exact hnodup
    · exact (List.filter_sublist.map _).nodup hnodup
  | _ => exact List.nodup_nil

theorem key_fieldChildren {key : String} {v : Value} {e : Edge} {n : Node}
    (h : (e, n) ∈ fieldChildren key v) : e.key = key := by
  unfold fieldChildren at h
  split at h
  next m hm =>
    rw [List.mem_singleton, Prod.mk.injEq] at h
    rw [h.1]
  next =>
    simp only [itemChildren, List.mem_filterMap, Option.map_eq_some_iff, Prod.mk.injEq] at h
    obtain ⟨_, _, _, _, rfl, _⟩ := h
    rfl

theorem flatMap_itemChildren {α : Type} (g : Node → List α) (key : String) (items : List Value)
    : (itemChildren key items).flatMap (fun entry => g entry.2) =
        items.flatMap fun item => ((Node.ofValue? item).map g).getD [] := by
  conv_rhs => rw [← List.zipIdx_map_fst 0 items, List.flatMap_map]
  rw [itemChildren, List.filterMap_eq_flatMap_toList, List.flatMap_assoc]
  congr 1
  funext entry
  obtain ⟨item, i⟩ := entry
  dsimp only
  cases Node.ofValue? item with
  | none => rfl
  | some n => simp

theorem nodup_fieldChildren (key : String) (v : Value)
    : ((fieldChildren key v).map (·.1)).Nodup := by
  unfold fieldChildren
  split
  · exact List.nodup_singleton _
  · -- the edges are made from places, and places do not repeat
    have hplaces : v.items.zipIdx.Pairwise fun a b => a.2 ≠ b.2 := by
      rw [← List.pairwise_map (f := Prod.snd) (R := (· ≠ ·)), List.zipIdx_map_snd]
      exact List.nodup_range'
    rw [List.Nodup, List.pairwise_map, itemChildren, List.pairwise_filterMap]
    refine hplaces.imp ?_
    rintro ⟨item, i⟩ ⟨item', j⟩ hne entry hentry entry' hentry' heq
    obtain ⟨n, _, rfl⟩ := Option.map_eq_some_iff.1 hentry
    obtain ⟨n', _, rfl⟩ := Option.map_eq_some_iff.1 hentry'
    injection heq with _ heq
    injection heq with heq
    exact hne (Int.ofNat_inj.1 heq)

theorem mem_children_field {v value : Value} {key : String} {n : Node}
    (hfield : (key, value) ∈ v.fields) (hn : n.value = value) : (⟨key, none⟩, n) ∈ v.children := by
  rw [children, List.mem_flatMap]
  refine ⟨(key, value), hfield, ?_⟩
  dsimp only
  rw [fieldChildren, Node.ofValue?_eq_some.2 hn]
  exact List.mem_singleton_self _

theorem mem_children_item {v value : Value} {key : String} {i : Nat} {n : Node}
    (hfield : (key, value) ∈ v.fields) (hvalue : Node.ofValue? value = none)
    (hn : value.items[i]? = some n.value) : (⟨key, some i⟩, n) ∈ v.children := by
  rw [children, List.mem_flatMap]
  refine ⟨(key, value), hfield, ?_⟩
  dsimp only
  rw [fieldChildren, hvalue]
  simp only [itemChildren, List.mem_filterMap]
  refine ⟨(n.value, i), List.mem_zipIdx_iff_getElem?.2 hn, ?_⟩
  rw [Node.ofValue?_eq_some.2 rfl]
  rfl

theorem mem_children_behind {v value item : Value} {before rest : List Value} {key : String}
    {n : Node} (hfield : (key, value) ∈ v.fields) (hvalue : Node.ofValue? value = none)
    (hitems : value.items = before ++ item :: rest) (hn : n.value = item)
    : (⟨key, some before.length⟩, n) ∈ v.children := by
  apply mem_children_item hfield hvalue
  rw [hitems, hn]
  simp

theorem exists_of_mem_children {v : Value} {e : Edge} {n : Node} (h : (e, n) ∈ v.children)
    : ∃ key value, (key, value) ∈ v.fields
        ∧ ((e = ⟨key, none⟩ ∧ value = n.value)
          ∨ ∃ i : Nat, e = ⟨key, some i⟩ ∧ value.items[i]? = some n.value) := by
  obtain ⟨⟨key, value⟩, hfield, hchild⟩ := List.mem_flatMap.1 h
  refine ⟨key, value, hfield, ?_⟩
  dsimp only at hchild
  rw [fieldChildren] at hchild
  split at hchild
  next m hm =>
    rw [List.mem_singleton, Prod.mk.injEq] at hchild
    obtain ⟨rfl, rfl⟩ := hchild
    exact .inl ⟨rfl, (Node.ofValue?_eq_some.1 hm).symm⟩
  next =>
    obtain ⟨⟨item, i⟩, hitem, hentry⟩ := List.mem_filterMap.1 hchild
    obtain ⟨m, hm, heq⟩ := Option.map_eq_some_iff.1 hentry
    rw [Prod.mk.injEq] at heq
    obtain ⟨rfl, rfl⟩ := heq
    rw [Node.ofValue?_eq_some.1 hm]
    exact .inr ⟨i, rfl, List.mem_zipIdx_iff_getElem?.1 hitem⟩

theorem ofValue?_of_item {v item : Value} (h : item ∈ v.items) : Node.ofValue? v = none := by
  cases v with
  | list items | tuple items => rfl
  | _ => contradiction

theorem field_of_item {v item : Value} (h : item ∈ v.items) (name : String)
    : v.field name = .null := by
  cases v with
  | list items | tuple items => rfl
  | _ => contradiction

theorem id?_of_item {v item : Value} (h : item ∈ v.items) : v.id? = none := by
  cases v with
  | list items | tuple items => rfl
  | _ => contradiction

theorem nodup_edges {v : Value} (h : v.hasDistinctNames = true)
    : (v.children.map (·.1)).Nodup := by
  rw [children, List.map_flatMap, List.nodup_flatMap]
  refine ⟨fun field _ => nodup_fieldChildren field.1 field.2, ?_⟩
  have hnames : v.fields.Pairwise fun a b => a.1 ≠ b.1 := List.pairwise_map.1 (nodup_fields h)
  refine hnames.imp ?_
  intro a b hne e ha hb
  obtain ⟨⟨_, n⟩, hn, rfl⟩ := List.mem_map.1 ha
  obtain ⟨⟨_, m⟩, hm, rfl⟩ := List.mem_map.1 hb
  exact hne ((key_fieldChildren hn).symm.trans (key_fieldChildren hm))

end Value

end Arbor
