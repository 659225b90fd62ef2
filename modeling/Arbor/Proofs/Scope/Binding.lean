import Arbor.Scope.Binding

/-!
This module says what each kind of node declares, without the order of checks and the failures of
`Scope.bindings`. Where the bindings of a node can be listed in full, they are what is declared,
and the names of class expressions besides, which are bound nowhere.
-/

namespace Arbor.Scope

def elementsOf (v : Value) : List Value :=
  match v.elementsOrNone with
  | .ok items => items
  | .error _ => []

def identifiersOf (pattern : Value) : List Value :=
  match Pattern.identifiers pattern with
  | .ok ids => ids
  | .error _ => []

def declaredName (target : Target) (name : Value) : List (Target × Value) :=
  if name.isNode then [(target, name)] else []

def declaredBy (target : Target) (patterns : List Value) : List (Target × Value) :=
  (patterns.flatMap identifiersOf).map fun id => (target, id)

def declared (n : Node) : List (Target × Value) :=
  let v := n.value
  match n.kind with
  | "FunctionDeclaration" =>
    declaredName .outer (v.field "id") ++ declaredBy .inner (elementsOf (v.field "params"))
  | "FunctionExpression" | "ArrowFunctionExpression" =>
    declaredName .inner (v.field "id") ++ declaredBy .inner (elementsOf (v.field "params"))
  | "ClassDeclaration" => declaredName .outer (v.field "id")
  | "VariableDeclaration" =>
    let patterns := (elementsOf (v.field "declarations")).map (·.field "id")
    match v.field "kind" with
    | .str "var" => declaredBy .hoisted patterns
    | _ => declaredBy .outer patterns
  | "CatchClause" => declaredBy .inner [v.field "param"]
  | "ImportSpecifier" | "ImportDefaultSpecifier" | "ImportNamespaceSpecifier" =>
    declaredName .module (v.field "local")
  | _ => []

namespace Bindings

theorem failure_append {a b : Bindings} (h : (a.append b).failure = .none)
    : a.failure = .none ∧ b.failure = .none ∧ (a.append b).entries = a.entries ++ b.entries := by
  unfold append at h ⊢
  cases ha : a.failure with
  | none =>
    rw [ha] at h
    exact ⟨rfl, h, rfl⟩
  | some e =>
    rw [ha] at h
    contradiction

theorem forall_append {P : Target × Value → Prop} {a b : Bindings}
    (h : ∀ entry ∈ a.entries, P entry) (h' : ∀ entry ∈ b.entries, P entry)
    : ∀ entry ∈ (a.append b).entries, P entry := by
  unfold append
  split
  · exact h
  · intro entry hentry
    rcases List.mem_append.1 hentry with hentry | hentry
    · exact h entry hentry
    · exact h' entry hentry

theorem ofName_eq (target : Target) (name : Value)
    : ofName target name = ⟨declaredName target name, .none⟩ := by
  unfold ofName declaredName
  cases name.isNode <;> rfl

theorem ofPattern_eq {target : Target} {pattern : Value}
    (h : (ofPattern target pattern).failure = .none)
    : (ofPattern target pattern).entries = declaredBy target [pattern] := by
  unfold ofPattern at h ⊢
  simp only [declaredBy, List.flatMap_singleton, identifiersOf]
  cases hids : Pattern.identifiers pattern with
  | ok ids => rfl
  | error e =>
    rw [hids] at h
    contradiction

theorem ofPatterns_eq {target : Target} {pick : Value → Value} {list : Value}
    (h : (ofPatterns target pick list).failure = .none)
    : (ofPatterns target pick list).entries = declaredBy target ((elementsOf list).map pick) := by
  unfold ofPatterns at h ⊢
  unfold elementsOf
  cases hitems : list.elementsOrNone with
  | error e =>
    rw [hitems] at h
    contradiction
  | ok items =>
    rw [hitems] at h
    dsimp only at h ⊢
    clear hitems
    induction items with
    | nil => rfl
    | cons item rest ih =>
      simp only [List.map_cons, List.foldr_cons] at h ⊢
      obtain ⟨hitem, hrest, heq⟩ := failure_append h
      rw [heq, ofPattern_eq hitem, ih hrest]
      simp [declaredBy]

end Bindings

theorem filter_declaredName {target : Target} (h : target ≠ .nowhere) (name : Value)
    : (declaredName target name).filter (·.1 ≠ .nowhere) = declaredName target name := by
  unfold declaredName
  cases name.isNode <;> simp [h]

theorem filter_declaredBy {target : Target} (h : target ≠ .nowhere) (patterns : List Value)
    : (declaredBy target patterns).filter (·.1 ≠ .nowhere) = declaredBy target patterns := by
  rw [List.filter_eq_self]
  intro b hb
  obtain ⟨id, _, rfl⟩ := List.mem_map.1 hb
  simpa using h

theorem bindings_function {n : Node} {target : Target}
    (hkind : functionKinds.contains n.kind = true)
    (htarget : (if n.kind = "FunctionDeclaration" then Target.outer else .inner) = target)
    (hne : target ≠ .nowhere) (h : (bindings n).failure = none)
    : (bindings n).entries.filter (·.1 ≠ .nowhere) =
        declaredName target (n.value.field "id") ++
          declaredBy .inner (elementsOf (n.value.field "params")) := by
  simp only [bindings, hkind, if_true, htarget, Bindings.ofName_eq] at h ⊢
  obtain ⟨_, hparams, heq⟩ := Bindings.failure_append h
  rw [heq, Bindings.ofPatterns_eq hparams, List.map_id, List.filter_append]
  rw [filter_declaredName hne, filter_declaredBy (by simp)]

/-- Where nothing fails, what a node binds is what it declares, apart from bindings nowhere. -/
theorem bindings_eq_declared {n : Node} (h : (bindings n).failure = none)
    : (bindings n).entries.filter (·.1 ≠ .nowhere) = declared n := by
  have hname : ∀ {target : Target} {name : Value}, target ≠ .nowhere →
      bindings n = .ofName target name →
      (bindings n).entries.filter (·.1 ≠ .nowhere) = declaredName target name := by
    intro target name htarget heq
    rw [heq, Bindings.ofName_eq, filter_declaredName htarget]
  have hpatterns : ∀ {target : Target} {pick : Value → Value} {list : Value}, target ≠ .nowhere →
      bindings n = .ofPatterns target pick list →
      (bindings n).entries.filter (·.1 ≠ .nowhere) =
        declaredBy target ((elementsOf list).map pick) := by
    intro target pick list htarget heq
    rw [heq] at h ⊢
    rw [Bindings.ofPatterns_eq h, filter_declaredBy htarget]
  unfold declared
  split
  next hkind =>
    exact bindings_function (by simp [hkind, functionKinds]) (by simp [hkind]) (by simp) h
  next hkind =>
    exact bindings_function (by simp [hkind, functionKinds]) (by simp [hkind]) (by simp) h
  next hkind =>
    exact bindings_function (by simp [hkind, functionKinds]) (by simp [hkind]) (by simp) h
  next hkind => exact hname (by simp) (by simp [bindings, hkind, functionKinds])
  next hkind =>
    dsimp only
    split
    next hvar => exact hpatterns (by simp) (by simp [bindings, hkind, functionKinds, hvar])
    next hvar => exact hpatterns (by simp) (by simp [bindings, hkind, functionKinds])
  next hkind =>
    have heq : bindings n = .ofPattern .inner (n.value.field "param") := by
      simp [bindings, hkind, functionKinds]
    rw [heq] at h ⊢
    rw [Bindings.ofPattern_eq h, filter_declaredBy (by simp)]
  next hkind => exact hname (by simp) (by simp [bindings, hkind, functionKinds, importKinds])
  next hkind => exact hname (by simp) (by simp [bindings, hkind, functionKinds, importKinds])
  next hkind => exact hname (by simp) (by simp [bindings, hkind, functionKinds, importKinds])
  next =>
    -- a class expression binds its name nowhere
    by_cases hclass : n.kind = "ClassExpression"
    · have heq : bindings n = .ofName .nowhere (n.value.field "id") := by
        simp [bindings, hclass, functionKinds]
      rw [heq, Bindings.ofName_eq]
      unfold declaredName
      split <;> simp
    · have heq : bindings n = .none := by
        simp_all [bindings, functionKinds, importKinds]
      rw [heq]
      rfl

end Arbor.Scope
