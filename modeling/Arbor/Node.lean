import Arbor.Value.Basic

/-!
Nodes are the values with a kind. They are never declared up front: any record with a string in
its kind field is a node, and its children are found by looking through its fields.

Main statement: a child is smaller than the value it was found in (`Value.sizeOf_child_lt`), so
every descent through children ends.
-/

namespace Arbor

structure Node where
  value : Value
  kind : String
  kind_eq : value.kind? = some kind

/-- How a child hangs on its parent: the field, and the place in it if the field is a sequence. -/
structure Edge where
  key : String
  index : Option Int
deriving DecidableEq, Repr

def Edge.text (e : Edge) : String :=
  match e.index with
  | none => e.key
  | some i => s!"{e.key}[{i}]"

namespace Node

def ofValue? (v : Value) : Option Node :=
  match h : v.kind? with
  | some kind => some ⟨v, kind, h⟩
  | none => none

theorem ofValue?_eq_some {v : Value} {n : Node} : ofValue? v = some n ↔ n.value = v := by
  obtain ⟨w, kind, hw⟩ := n
  unfold ofValue?
  constructor
  · intro h
    split at h
    · injection h with h
      injection h with h
      exact h.symm
    · contradiction
  · intro h
    subst h
    split
    next k hk =>
      have : k = kind := by rw [hw] at hk; injection hk with hk; exact hk.symm
      subst this
      rfl
    next hk => rw [hw] at hk; contradiction

theorem kindValue_eq (n : Node) : n.value.kindValue = .ok (.str n.kind) := by
  obtain ⟨v, kind, h⟩ := n
  cases v with
  | record id form fields =>
    simp only [Value.kind?] at h
    split at h
    · split at h
      next k hk =>
        injection h with h
        subst h
        simp [Value.kindValue, Value.field?, hk]
      · contradiction
    · contradiction
  | _ => simp [Value.kind?] at h

end Node

namespace Value

def itemChildren (key : String) (items : List Value) : List (Edge × Node) :=
  items.zipIdx.filterMap fun (item, i) => (Node.ofValue? item).map fun n => (⟨key, some i⟩, n)

def fieldChildren (key : String) (v : Value) : List (Edge × Node) :=
  match Node.ofValue? v with
  | some n => [(⟨key, none⟩, n)]
  | none => itemChildren key v.items

def children (v : Value) : List (Edge × Node) :=
  v.fields.flatMap fun (key, value) => fieldChildren key value

theorem sizeOf_item_lt {v item : Value} (h : item ∈ v.items) : sizeOf item < sizeOf v := by
  cases v with
  | list items | tuple items =>
    simp only [Value.items] at h
    have := List.sizeOf_lt_of_mem h
    simp
    omega
  | _ => simp [items] at h

theorem sizeOf_field_lt {v value : Value} {key : String} (h : (key, value) ∈ v.fields) :
    sizeOf value < sizeOf v := by
  cases v with
  | record id form fs =>
    have hm : (key, value) ∈ fs := by
      simp only [fields] at h
      split at h
      · exact h
      · exact (List.mem_filter.1 h).1
    have := List.sizeOf_lt_of_mem hm
    simp at this ⊢
    omega
  | _ => simp [fields] at h

theorem mem_fieldChildren {key : String} {v : Value} {e : Edge} {n : Node}
    (h : (e, n) ∈ fieldChildren key v) : n.value = v ∨ n.value ∈ v.items := by
  unfold fieldChildren at h
  split at h
  next m hm =>
    simp only [List.mem_singleton, Prod.mk.injEq] at h
    obtain ⟨_, rfl⟩ := h
    exact .inl (Node.ofValue?_eq_some.1 hm)
  next =>
    simp only [itemChildren, List.mem_filterMap, Option.map_eq_some_iff] at h
    obtain ⟨⟨item, i⟩, hi, m, hm, heq⟩ := h
    simp only [Prod.mk.injEq] at heq
    obtain ⟨_, rfl⟩ := heq
    rw [Node.ofValue?_eq_some.1 hm]
    exact .inr (List.fst_mem_of_mem_zipIdx hi)

theorem sizeOf_child_lt {v : Value} {e : Edge} {n : Node} (h : (e, n) ∈ v.children) :
    sizeOf n.value < sizeOf v := by
  simp only [children, List.mem_flatMap] at h
  obtain ⟨⟨key, value⟩, hf, hc⟩ := h
  have hlt := sizeOf_field_lt hf
  rcases mem_fieldChildren hc with heq | hi
  · rwa [heq]
  · exact Nat.lt_trans (sizeOf_item_lt hi) hlt

end Value

end Arbor
