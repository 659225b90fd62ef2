import Mathlib.Logic.Relation
import Arbor.Proofs.Scope.Binding

/-!
This module says when the bindings of a node can be listed. A few fields of declarations and
patterns are run through. A value that counts as absent binds nothing there, nor does any value that
has elements other than nodes; a value that is neither absent nor has elements makes the listing
fail. Main statement: the bindings of a node can be listed if and only if all values that are run
through for them are listable (`bindings_listed_iff`).
-/

namespace Arbor

namespace Value

def isListable : Value → Bool
  | .bool b => !b
  | .int n => n == 0
  | .float x => x.isZero
  | .record _ form _ => form.isMapping
  | .symbol _ | .brackets _ => false
  | .null | .keep | .str _ | .bytes _ | .list _ | .tuple _ => true

theorem isListable_iff (v : Value)
    : v.isListable = true ↔ ∃ items, v.elementsOrNone = .ok items := by
  unfold elementsOrNone
  cases v with
  | null | keep => simp [isListable, isTruthy]
  | bool b => cases b <;> simp [isListable, isTruthy, elements]
  | int n => by_cases h : n = 0 <;> simp [isListable, isTruthy, elements, h]
  | float x => cases h : x.isZero <;> simp [isListable, isTruthy, elements, h]
  | str s => by_cases h : s = "" <;> simp [isListable, isTruthy, elements, h]
  | bytes data => cases data <;> simp [isListable, isTruthy, elements]
  | list items | tuple items => cases items <;> simp [isListable, isTruthy, elements]
  | record id form fields =>
    cases hform : form.isMapping with
    | false => simp [isListable, isTruthy, elements, hform]
    | true => cases fields <;> simp [isListable, isTruthy, elements, hform]
  | symbol name => simp [isListable, isTruthy, elements]
  | brackets items => simp [isListable, isTruthy, elements]

theorem sizeOf_field_lt_record (id : Nat) (form : Form) (fields : List (String × Value))
    (name : String)
    : sizeOf ((record id form fields).field name) < sizeOf (record id form fields) := by
  have hfield : (record id form fields).field name = (fields.lookup name).getD .null := rfl
  rw [hfield]
  cases h : fields.lookup name with
  | none =>
    have : 0 < sizeOf fields := by
      cases fields with
      | nil => simp
      | cons field rest =>
        rw [List.cons.sizeOf_spec]
        omega
    simp
    omega
  | some value =>
    obtain ⟨before, after, hfields, _⟩ := List.lookup_eq_some_iff.1 h
    have hmem : (name, value) ∈ fields := by simp [hfields]
    have := List.sizeOf_lt_of_mem hmem
    simp at this ⊢
    omega

theorem sizeOf_field_lt_of_kind {v : Value} {kind : String} (h : v.kind? = some kind)
    (name : String) : sizeOf (v.field name) < sizeOf v := by
  cases v with
  | record id form fields => exact sizeOf_field_lt_record id form fields name
  | _ => contradiction

theorem sizeOf_field_le (v : Value) (name : String) : sizeOf (v.field name) ≤ sizeOf v := by
  cases v with
  | record id form fields => exact Nat.le_of_lt (sizeOf_field_lt_record id form fields name)
  | _ => simp [field, field?]

end Value

namespace Pattern

def ofMember (v : Value) : Value :=
  if v.kind? = some "RestElement" then v.field "argument" else v.field "value"

inductive Part : Value → Value → Prop where
  | argument {p : Value} (kind : p.kind? = some "RestElement") : Part p (p.field "argument")
  | left {p : Value} (kind : p.kind? = some "AssignmentPattern") : Part p (p.field "left")
  | element {p v : Value} (kind : p.kind? = some "ArrayPattern")
      (mem : v ∈ (p.field "elements").items) : Part p v
  | property {p v : Value} (kind : p.kind? = some "ObjectPattern")
      (mem : v ∈ (p.field "properties").items) : Part p (ofMember v)

def Reaches : Value → Value → Prop :=
  Relation.ReflTransGen Part

def ownList? (p : Value) : Option Value :=
  match p.kind? with
  | some "ObjectPattern" => some (p.field "properties")
  | some "ArrayPattern" => some (p.field "elements")
  | _ => none

def Listed (found : Found) : Prop :=
  ∃ ids, found = .ok ids

theorem listed_append {a b : Found} : Listed (a.append b) ↔ Listed a ∧ Listed b := by
  cases a with
  | error e => simp [Listed, Found.append]
  | ok xs =>
    cases b with
    | error e => simp [Listed, Found.append]
    | ok ys => simp [Listed, Found.append]

theorem listed_noneIn (v : Value) : Listed (noneIn v) ↔ v.isListable = true := by
  rw [Value.isListable_iff, noneIn]
  cases v.elementsOrNone with
  | error e => simp [Listed, Except.map]
  | ok items => simp [Listed, Except.map]

theorem eq_lookup {f : List (String × Value) → Found} {g : Value → Found} {name : String}
    (null : g .null = .ok []) (nil : f [] = .ok [])
    (cons : ∀ key v rest, f ((key, v) :: rest) = if key = name then g v else f rest)
    (fields : List (String × Value)) : f fields = g ((fields.lookup name).getD .null) := by
  induction fields with
  | nil => rw [nil, List.lookup_nil, Option.getD_none, null]
  | cons entry rest ih =>
    obtain ⟨key, v⟩ := entry
    rw [cons, List.lookup_cons]
    by_cases h : key = name
    · simp [h]
    · have hne : (name == key) = false := by simpa using fun heq => h heq.symm
      rw [if_neg h, ih, hne]

theorem inField_eq (name : String) (fields : List (String × Value))
    : inField name fields = identifiers ((fields.lookup name).getD .null) := by
  apply eq_lookup
  · rw [identifiers]
    simp
  · rw [inField]
  · intro key v rest
    rw [inField]

theorem inElements_eq (fields : List (String × Value))
    : inElements fields = ofElements ((fields.lookup "elements").getD .null) := by
  apply eq_lookup
  · rfl
  · rw [inElements]
  · intro key v rest
    rw [inElements]

theorem inProperties_eq (fields : List (String × Value))
    : inProperties fields = ofProperties ((fields.lookup "properties").getD .null) := by
  apply eq_lookup
  · rfl
  · rw [inProperties]
  · intro key v rest
    rw [inProperties]

theorem identifiers_eq (p : Value)
    : identifiers p =
        match p.kind? with
        | some "Identifier" => .ok [p]
        | some "ObjectPattern" => ofProperties (p.field "properties")
        | some "ArrayPattern" => ofElements (p.field "elements")
        | some "RestElement" => identifiers (p.field "argument")
        | some "AssignmentPattern" => identifiers (p.field "left")
        | _ => .ok [] := by
  cases p with
  | record id form fields =>
    rw [identifiers]
    simp only [inField_eq, inElements_eq, inProperties_eq]
    rfl
  | _ => rfl

theorem ofProperty_eq (v : Value) : ofProperty v = identifiers (ofMember v) := by
  unfold ofMember
  cases v with
  | record id form fields =>
    rw [ofProperty]
    simp only [inField_eq]
    split <;> rfl
  | _ => rfl

theorem listed_ofAll (items : List Value)
    : Listed (ofAll items) ↔ ∀ v ∈ items, Listed (identifiers v) := by
  induction items with
  | nil => simp [ofAll, Listed]
  | cons v rest ih => rw [ofAll, listed_append, ih, List.forall_mem_cons]

theorem listed_ofEachProperty (items : List Value)
    : Listed (ofEachProperty items) ↔ ∀ v ∈ items, Listed (ofProperty v) := by
  induction items with
  | nil => simp [ofEachProperty, Listed]
  | cons v rest ih => rw [ofEachProperty, listed_append, ih, List.forall_mem_cons]

theorem listed_ofElements (v : Value)
    : Listed (ofElements v) ↔
        v.isListable = true ∧ ∀ item ∈ v.items, Listed (identifiers item) := by
  cases v with
  | list items | tuple items =>
    rw [ofElements, listed_ofAll]
    simp [Value.isListable, Value.items]
  | _ => simp [ofElements, listed_noneIn, Value.items]

theorem listed_ofProperties (v : Value)
    : Listed (ofProperties v) ↔
        v.isListable = true ∧ ∀ item ∈ v.items, Listed (ofProperty item) := by
  cases v with
  | list items | tuple items =>
    rw [ofProperties, listed_ofEachProperty]
    simp [Value.isListable, Value.items]
  | _ => simp [ofProperties, listed_noneIn, Value.items]

section Part

variable {p q : Value}

theorem part_rest (h : p.kind? = some "RestElement") : Part p q ↔ q = p.field "argument" := by
  constructor
  · intro hpart
    cases hpart <;> simp_all
  · rintro rfl
    exact .argument h

theorem part_default (h : p.kind? = some "AssignmentPattern") : Part p q ↔ q = p.field "left" := by
  constructor
  · intro hpart
    cases hpart <;> simp_all
  · rintro rfl
    exact .left h

theorem part_array (h : p.kind? = some "ArrayPattern")
    : Part p q ↔ q ∈ (p.field "elements").items := by
  constructor
  · intro hpart
    cases hpart <;> simp_all
  · exact .element h

theorem part_object (h : p.kind? = some "ObjectPattern")
    : Part p q ↔ ∃ v ∈ (p.field "properties").items, ofMember v = q := by
  constructor
  · intro hpart
    cases hpart with
    | argument kind | left kind | element kind mem => simp_all
    | property kind mem => exact ⟨_, mem, rfl⟩
  · rintro ⟨v, hv, rfl⟩
    exact .property h hv

end Part

theorem listed_step (p : Value)
    : Listed (identifiers p) ↔
        (∀ list, ownList? p = some list → list.isListable = true)
        ∧ ∀ q, Part p q → Listed (identifiers q) := by
  have hother : p.kind? ≠ some "ObjectPattern" → p.kind? ≠ some "ArrayPattern" →
      p.kind? ≠ some "RestElement" → p.kind? ≠ some "AssignmentPattern" → ∀ q, ¬ Part p q := by
    intro hobject harray hrest hdefault q hq
    cases hq <;> contradiction
  rw [identifiers_eq, ownList?]
  split
  next hkind =>
    refine iff_of_true ⟨_, rfl⟩ ⟨by simp [hkind], ?_⟩
    intro q hq
    exact absurd hq
      (hother (by simp [hkind]) (by simp [hkind]) (by simp [hkind]) (by simp [hkind]) q)
  next hkind => simp [hkind, listed_ofProperties, part_object hkind, ofProperty_eq]
  next hkind => simp [hkind, listed_ofElements, part_array hkind]
  next hkind => simp [hkind, part_rest hkind]
  next hkind => simp [hkind, part_default hkind]
  next hidentifier hobject harray hrest hdefault =>
    refine iff_of_true ⟨_, rfl⟩ ⟨?_, ?_⟩
    · split <;> simp_all
    · intro q hq
      exact absurd hq (hother hobject harray hrest hdefault q)

theorem Part.sizeOf_lt {p q : Value} (h : Part p q) : sizeOf q < sizeOf p := by
  cases h with
  | argument kind => exact Value.sizeOf_field_lt_of_kind kind "argument"
  | left kind => exact Value.sizeOf_field_lt_of_kind kind "left"
  | element kind mem =>
    have := Value.sizeOf_item_lt mem
    have := Value.sizeOf_field_lt_of_kind kind "elements"
    omega
  | @property v kind mem =>
    have := Value.sizeOf_item_lt mem
    have := Value.sizeOf_field_lt_of_kind kind "properties"
    have : sizeOf (ofMember v) ≤ sizeOf v := by
      unfold ofMember
      split
      · exact Value.sizeOf_field_le v "argument"
      · exact Value.sizeOf_field_le v "value"
    omega

theorem Reaches.listed {p q : Value} (h : Reaches p q) (hlisted : Listed (identifiers p))
    : Listed (identifiers q) := by
  induction h with
  | refl => exact hlisted
  | tail _ hpart ih => exact ((listed_step _).1 ih).2 _ hpart

theorem listed_iff (p : Value)
    : Listed (identifiers p) ↔
        ∀ q list, Reaches p q → ownList? q = some list → list.isListable = true := by
  constructor
  · intro hlisted q list hreaches hlist
    exact ((listed_step q).1 (hreaches.listed hlisted)).1 list hlist
  · intro h
    rw [listed_step]
    refine ⟨fun list => h p list .refl, ?_⟩
    intro q hpart
    have hlt := hpart.sizeOf_lt
    exact (listed_iff q).2 fun q' list hreaches => h q' list (.head hpart hreaches)
termination_by sizeOf p

end Pattern

namespace Scope

open Pattern (Listed identifiers)

def ownList? (n : Node) : Option Value :=
  if functionKinds.contains n.kind then some (n.value.field "params")
  else if n.kind = "VariableDeclaration" then some (n.value.field "declarations")
  else none

def patterns (n : Node) : List Value :=
  if functionKinds.contains n.kind then elementsOf (n.value.field "params")
  else if n.kind = "VariableDeclaration" then
    (elementsOf (n.value.field "declarations")).map (·.field "id")
  else if n.kind = "CatchClause" then [n.value.field "param"]
  else []

/-- A value is run through to list the bindings of a node. -/
inductive RunsThrough (n : Node) : Value → Prop where
  | own {list : Value} (own : ownList? n = some list) : RunsThrough n list
  | pattern {p q list : Value} (mem : p ∈ patterns n) (reaches : Pattern.Reaches p q)
      (own : Pattern.ownList? q = some list) : RunsThrough n list

namespace Bindings

theorem failure_append_iff (a b : Bindings)
    : (a.append b).failure = .none ↔ a.failure = .none ∧ b.failure = .none := by
  unfold append
  cases ha : a.failure with
  | none => simp
  | some e => simp

theorem failure_ofName (target : Target) (name : Value) : (ofName target name).failure = .none := by
  rw [ofName_eq]

theorem failure_ofPattern (target : Target) (pattern : Value)
    : (ofPattern target pattern).failure = .none ↔ Listed (identifiers pattern) := by
  unfold ofPattern Listed
  cases identifiers pattern with
  | ok ids => simp
  | error e => simp

theorem failure_ofPatterns (target : Target) (pick : Value → Value) (list : Value)
    : (ofPatterns target pick list).failure = .none ↔
        list.isListable = true ∧ ∀ p ∈ (elementsOf list).map pick, Listed (identifiers p) := by
  rw [Value.isListable_iff]
  unfold ofPatterns elementsOf
  cases list.elementsOrNone with
  | error e => simp
  | ok items =>
    simp only [Except.ok.injEq, exists_eq', true_and]
    induction items with
    | nil => simp [none]
    | cons item rest ih =>
      simp only [List.map_cons, List.foldr_cons, List.forall_mem_cons]
      rw [failure_append_iff, failure_ofPattern, ih]

end Bindings

theorem failure_bindings (n : Node)
    : (bindings n).failure = none ↔
        (∀ list, ownList? n = some list → list.isListable = true)
        ∧ ∀ p ∈ patterns n, Listed (identifiers p) := by
  unfold bindings ownList? patterns
  split
  · rw [Bindings.failure_append_iff, Bindings.failure_ofPatterns, List.map_id]
    simp [Bindings.failure_ofName]
  · split
    · rw [Bindings.failure_ofPatterns]
      simp
    · -- of all other nodes only catch clauses bind through patterns
      by_cases hcatch : n.kind = "CatchClause"
      · simp [hcatch, Bindings.failure_ofPattern]
      · simp only [hcatch, if_false]
        refine iff_of_true ?_ (by simp)
        split
        · exact Bindings.failure_ofName _ _
        · split
          · exact Bindings.failure_ofName _ _
          · split
            · exact Bindings.failure_ofName _ _
            · rfl

theorem bindings_listed_iff (n : Node)
    : (bindings n).failure = none ↔ ∀ list, RunsThrough n list → list.isListable = true := by
  rw [failure_bindings]
  constructor
  · rintro ⟨hown, hpatterns⟩ list hlist
    cases hlist with
    | own own => exact hown list own
    | pattern mem reaches own => exact (Pattern.listed_iff _).1 (hpatterns _ mem) _ _ reaches own
  · intro h
    refine ⟨fun list own => h list (.own own), ?_⟩
    intro p hp
    rw [Pattern.listed_iff]
    exact fun q list reaches own => h list (.pattern hp reaches own)

end Scope

end Arbor
