import Arbor.Proofs.Outline.Identity
import Arbor.Proofs.Scope.Gathering

/-!
This module is about what nodes bind when the elements of the lists in them are in another order.
The identifiers of a pattern are found in another order then, but none is lost, and nothing fails
that did not fail before (`carries_identifiers`). So a node binds the same identifiers in the same
places (`carriedBy_bindings`), and a run on the reordered tree succeeds as well (`run_ok_iff`).
-/

namespace Arbor

open Value

namespace Pattern

def Carries (a b : Found) : Prop :=
  ∀ ids, a = .ok ids → ∃ others, b = .ok others ∧ ∀ id ∈ ids, ∃ other ∈ others, Reordered id other

theorem Carries.refl (a : Found) : Carries a a :=
  fun ids h => ⟨ids, h, fun id hid => ⟨id, hid, .refl id⟩⟩

theorem Carries.trans {a b c : Found} (h : Carries a b) (h' : Carries b c) : Carries a c := by
  intro ids ha
  obtain ⟨others, hb, hids⟩ := h ids ha
  obtain ⟨last, hc, hothers⟩ := h' others hb
  refine ⟨last, hc, ?_⟩
  intro id hid
  obtain ⟨other, hother, hfirst⟩ := hids id hid
  obtain ⟨third, hthird, hsecond⟩ := hothers other hother
  exact ⟨third, hthird, hfirst.trans hsecond⟩

theorem append_eq_ok {a b : Found} {ids : List Value} (h : a.append b = .ok ids)
    : ∃ xs ys, a = .ok xs ∧ b = .ok ys ∧ ids = xs ++ ys := by
  cases a with
  | error e => contradiction
  | ok xs =>
    cases b with
    | error e => contradiction
    | ok ys =>
      injection h with h
      exact ⟨xs, ys, rfl, rfl, h.symm⟩

theorem Carries.append {a b a' b' : Found} (h : Carries a a') (h' : Carries b b')
    : Carries (a.append b) (a'.append b') := by
  intro ids hids
  obtain ⟨xs, ys, ha, hb, rfl⟩ := append_eq_ok hids
  obtain ⟨xs', rfl, hxs⟩ := h xs ha
  obtain ⟨ys', rfl, hys⟩ := h' ys hb
  refine ⟨xs' ++ ys', rfl, ?_⟩
  intro id hid
  rcases List.mem_append.1 hid with hid | hid
  · obtain ⟨other, hother, hreordered⟩ := hxs id hid
    exact ⟨other, List.mem_append_left _ hother, hreordered⟩
  · obtain ⟨other, hother, hreordered⟩ := hys id hid
    exact ⟨other, List.mem_append_right _ hother, hreordered⟩

theorem carries_singleton {v w : Value} (h : Reordered v w) : Carries (.ok [v]) (.ok [w]) := by
  intro ids hids
  injection hids with hids
  subst hids
  refine ⟨[w], rfl, ?_⟩
  intro id hid
  rw [List.mem_singleton.1 hid]
  exact ⟨w, List.mem_singleton_self w, h⟩

theorem carries_swap (a b c : Found) : Carries (a.append (b.append c)) (b.append (a.append c)) := by
  intro ids hids
  obtain ⟨xs, ids', rfl, hb, rfl⟩ := append_eq_ok hids
  obtain ⟨ys, zs, rfl, rfl, rfl⟩ := append_eq_ok hb
  refine ⟨ys ++ (xs ++ zs), rfl, ?_⟩
  intro id hid
  refine ⟨id, ?_, .refl id⟩
  simp only [List.mem_append] at hid ⊢
  tauto

theorem carries_noneIn {v w : Value} (h : Reordered v w) : Carries (noneIn v) (noneIn w) := by
  intro ids hids
  rw [noneIn] at hids ⊢
  cases hv : v.elementsOrNone with
  | error e =>
    rw [hv] at hids
    contradiction
  | ok items =>
    rw [hv] at hids
    injection hids with hids
    obtain ⟨others, hw, _⟩ := h.elementsOrNone hv
    rw [hw]
    exact ⟨[], rfl, by simp [← hids]⟩

mutual

theorem carries_identifiers {v w : Value} : Reordered v w → Carries (identifiers v) (identifiers w)
  | .refl v => .refl _
  | .list _ => by
    rw [identifiers, identifiers]
    all_goals first | exact .refl _ | simp
  | .tuple _ => by
    rw [identifiers, identifiers]
    all_goals first | exact .refl _ | simp
  | .record id form h => by
    have hrecord := Reordered.record id form h
    rw [identifiers, identifiers, ← hrecord.kind?]
    generalize (Value.record id form _).kind? = kind
    split
    · exact carries_singleton hrecord
    · exact carries_inProperties h
    · exact carries_inElements h
    · exact carries_inField h "argument"
    · exact carries_inField h "left"
    · exact .refl _

theorem carries_inField {fields others : List (String × Value)}
    : ReorderedFields fields others → (name : String) →
      Carries (inField name fields) (inField name others)
  | .nil, _ => .refl _
  | .cons key first rest, name => by
    rw [inField, inField]
    split
    · exact carries_identifiers first
    · exact carries_inField rest name

theorem carries_inElements {fields others : List (String × Value)}
    : ReorderedFields fields others → Carries (inElements fields) (inElements others)
  | .nil => .refl _
  | .cons key first rest => by
    rw [inElements, inElements]
    split
    · exact carries_ofElements first
    · exact carries_inElements rest

theorem carries_ofElements {v w : Value} : Reordered v w → Carries (ofElements v) (ofElements w)
  | .refl v => .refl _
  | .list h => by
    rw [ofElements, ofElements]
    exact carries_ofAll h
  | .tuple h => by
    rw [ofElements, ofElements]
    exact carries_ofAll h
  | .record id form h => by
    rw [ofElements, ofElements]
    all_goals first | exact carries_noneIn (.record id form h) | simp

theorem carries_ofAll {vs ws : List Value} : ReorderedItems vs ws → Carries (ofAll vs) (ofAll ws)
  | .nil => .refl _
  | .cons first rest => by
    rw [ofAll, ofAll]
    exact (carries_identifiers first).append (carries_ofAll rest)
  | .swap v w rest => by
    simp only [ofAll]
    exact carries_swap _ _ _
  | .trans h h' => (carries_ofAll h).trans (carries_ofAll h')

theorem carries_inProperties {fields others : List (String × Value)}
    : ReorderedFields fields others → Carries (inProperties fields) (inProperties others)
  | .nil => .refl _
  | .cons key first rest => by
    rw [inProperties, inProperties]
    split
    · exact carries_ofProperties first
    · exact carries_inProperties rest

theorem carries_ofProperties {v w : Value}
    : Reordered v w → Carries (ofProperties v) (ofProperties w)
  | .refl v => .refl _
  | .list h => by
    rw [ofProperties, ofProperties]
    exact carries_ofEachProperty h
  | .tuple h => by
    rw [ofProperties, ofProperties]
    exact carries_ofEachProperty h
  | .record id form h => by
    rw [ofProperties, ofProperties]
    all_goals first | exact carries_noneIn (.record id form h) | simp

theorem carries_ofEachProperty {vs ws : List Value}
    : ReorderedItems vs ws → Carries (ofEachProperty vs) (ofEachProperty ws)
  | .nil => .refl _
  | .cons first rest => by
    rw [ofEachProperty, ofEachProperty]
    exact (carries_ofProperty first).append (carries_ofEachProperty rest)
  | .swap v w rest => by
    simp only [ofEachProperty]
    exact carries_swap _ _ _
  | .trans h h' => (carries_ofEachProperty h).trans (carries_ofEachProperty h')

theorem carries_ofProperty {v w : Value} : Reordered v w → Carries (ofProperty v) (ofProperty w)
  | .refl v => .refl _
  | .list _ => by
    rw [ofProperty, ofProperty]
    all_goals first | exact .refl _ | simp
  | .tuple _ => by
    rw [ofProperty, ofProperty]
    all_goals first | exact .refl _ | simp
  | .record id form h => by
    have hrecord := Reordered.record id form h
    rw [ofProperty, ofProperty, ← hrecord.kind?]
    split
    · exact carries_inField h "argument"
    · exact carries_inField h "value"

end

def Within (ids : List Nat) (a : Found) : Prop :=
  ∀ found, a = .ok found → ∀ v ∈ found, v.recordIds ⊆ ids

theorem within_nil (ids : List Nat) : Within ids (.ok []) := by
  intro found hfound v hv
  injection hfound with hfound
  subst hfound
  contradiction

theorem Within.append {ids more : List Nat} {a b : Found} (h : Within ids a) (h' : Within more b)
    : Within (ids ++ more) (a.append b) := by
  intro found hfound v hv
  obtain ⟨xs, ys, ha, hb, rfl⟩ := append_eq_ok hfound
  rcases List.mem_append.1 hv with hv | hv
  · exact List.subset_append_of_subset_left _ (h xs ha v hv)
  · exact List.subset_append_of_subset_right _ (h' ys hb v hv)

theorem Within.mono {ids more : List Nat} {a : Found} (h : Within ids a) (hsub : ids ⊆ more)
    : Within more a :=
  fun found hfound v hv => List.Subset.trans (h found hfound v hv) hsub

theorem within_noneIn (ids : List Nat) (v : Value) : Within ids (noneIn v) := by
  rw [noneIn]
  cases v.elementsOrNone with
  | error e =>
    intro found hfound
    contradiction
  | ok items => exact within_nil ids

mutual

theorem within_identifiers : (v : Value) → Within v.recordIds (identifiers v)
  | .record id form fields => by
    have hfields : idsUnder fields ⊆ (Value.record id form fields).recordIds := by
      rw [recordIds]
      exact List.subset_cons_self ..
    rw [identifiers]
    split
    · intro found hfound v hv
      injection hfound with hfound
      subst hfound
      rw [List.mem_singleton.1 hv]
      exact List.Subset.refl _
    · exact (within_inProperties fields).mono hfields
    · exact (within_inElements fields).mono hfields
    · exact (within_inField "argument" fields).mono hfields
    · exact (within_inField "left" fields).mono hfields
    · exact within_nil _
  | .null | .bool _ | .int _ | .float _ | .str _ | .bytes _ | .list _ | .tuple _ | .keep
  | .symbol _ | .brackets _ => by
    rw [identifiers]
    · exact within_nil _
    · simp

theorem within_inField (name : String)
    : (fields : List (String × Value)) → Within (idsUnder fields) (inField name fields)
  | [] => within_nil _
  | (key, v) :: rest => by
    rw [inField, idsUnder]
    split
    · exact (within_identifiers v).mono (List.subset_append_left ..)
    · exact (within_inField name rest).mono (List.subset_append_right ..)

theorem within_inElements
    : (fields : List (String × Value)) → Within (idsUnder fields) (inElements fields)
  | [] => within_nil _
  | (key, v) :: rest => by
    rw [inElements, idsUnder]
    split
    · exact (within_ofElements v).mono (List.subset_append_left ..)
    · exact (within_inElements rest).mono (List.subset_append_right ..)

theorem within_ofElements : (v : Value) → Within v.recordIds (ofElements v)
  | .list items | .tuple items => by
    rw [ofElements, recordIds]
    exact within_ofAll items
  | .record _ _ _ | .null | .bool _ | .int _ | .float _ | .str _ | .bytes _ | .keep | .symbol _
  | .brackets _ => by
    rw [ofElements]
    · exact within_noneIn _ _
    · simp
    · simp

theorem within_ofAll : (items : List Value) → Within (idsIn items) (ofAll items)
  | [] => within_nil _
  | v :: rest => by
    rw [ofAll, idsIn]
    exact (within_identifiers v).append (within_ofAll rest)

theorem within_inProperties
    : (fields : List (String × Value)) → Within (idsUnder fields) (inProperties fields)
  | [] => within_nil _
  | (key, v) :: rest => by
    rw [inProperties, idsUnder]
    split
    · exact (within_ofProperties v).mono (List.subset_append_left ..)
    · exact (within_inProperties rest).mono (List.subset_append_right ..)

theorem within_ofProperties : (v : Value) → Within v.recordIds (ofProperties v)
  | .list items | .tuple items => by
    rw [ofProperties, recordIds]
    exact within_ofEachProperty items
  | .record _ _ _ | .null | .bool _ | .int _ | .float _ | .str _ | .bytes _ | .keep | .symbol _
  | .brackets _ => by
    rw [ofProperties]
    · exact within_noneIn _ _
    · simp
    · simp

theorem within_ofEachProperty : (items : List Value) → Within (idsIn items) (ofEachProperty items)
  | [] => within_nil _
  | v :: rest => by
    rw [ofEachProperty, idsIn]
    exact (within_ofProperty v).append (within_ofEachProperty rest)

theorem within_ofProperty : (v : Value) → Within v.recordIds (ofProperty v)
  | .record id form fields => by
    rw [ofProperty, recordIds]
    split
    · exact (within_inField "argument" fields).mono (List.subset_cons_self ..)
    · exact (within_inField "value" fields).mono (List.subset_cons_self ..)
  | .null | .bool _ | .int _ | .float _ | .str _ | .bytes _ | .list _ | .tuple _ | .keep
  | .symbol _ | .brackets _ => by
    rw [ofProperty]
    · exact within_nil _
    · simp

end

end Pattern

namespace Scope

namespace Bindings

/-- What is bound by the one is bound by the other as well, in the same place, if nothing fails. -/
def CarriedBy (b a : Bindings) : Prop :=
  a.failure = .none → b.failure = .none
    ∧ ∀ entry ∈ a.entries, ∃ other ∈ b.entries, entry.1 = other.1 ∧ Reordered entry.2 other.2

theorem CarriedBy.refl (a : Bindings) : a.CarriedBy a :=
  fun h => ⟨h, fun entry hentry => ⟨entry, hentry, rfl, .refl _⟩⟩

theorem CarriedBy.trans {a b c : Bindings} (h : b.CarriedBy a) (h' : c.CarriedBy b)
    : c.CarriedBy a := by
  intro ha
  obtain ⟨hb, hentries⟩ := h ha
  obtain ⟨hc, hothers⟩ := h' hb
  refine ⟨hc, ?_⟩
  intro entry hentry
  obtain ⟨other, hother, htarget, hfirst⟩ := hentries entry hentry
  obtain ⟨third, hthird, htarget', hsecond⟩ := hothers other hother
  exact ⟨third, hthird, htarget.trans htarget', hfirst.trans hsecond⟩

theorem append_eq {a b : Bindings} (ha : a.failure = .none)
    : a.append b = ⟨a.entries ++ b.entries, b.failure⟩ := by
  rw [append, ha]

theorem CarriedBy.append {a b a' b' : Bindings} (h : a'.CarriedBy a) (h' : b'.CarriedBy b)
    : (a'.append b').CarriedBy (a.append b) := by
  intro hfailure
  obtain ⟨ha, hb, heq⟩ := failure_append hfailure
  obtain ⟨ha', hfirst⟩ := h ha
  obtain ⟨hb', hsecond⟩ := h' hb
  rw [append_eq ha', heq]
  refine ⟨hb', ?_⟩
  intro entry hentry
  rcases List.mem_append.1 hentry with hentry | hentry
  · obtain ⟨other, hother, hreordered⟩ := hfirst entry hentry
    exact ⟨other, List.mem_append_left _ hother, hreordered⟩
  · obtain ⟨other, hother, hreordered⟩ := hsecond entry hentry
    exact ⟨other, List.mem_append_right _ hother, hreordered⟩

theorem carriedBy_swap (a b c : Bindings)
    : (b.append (a.append c)).CarriedBy (a.append (b.append c)) := by
  intro hfailure
  obtain ⟨ha, hbc, heq⟩ := failure_append hfailure
  obtain ⟨hb, hc, heq'⟩ := failure_append hbc
  rw [append_eq hb, append_eq ha, heq, heq']
  refine ⟨hc, ?_⟩
  intro entry hentry
  refine ⟨entry, ?_, rfl, .refl _⟩
  simp only [List.mem_append] at hentry ⊢
  tauto

theorem carriedBy_ofName (target : Target) {v w : Value} (h : Reordered v w)
    : (ofName target w).CarriedBy (ofName target v) := by
  have hnode : v.isNode = w.isNode := by rw [isNode, isNode, h.kind?]
  rw [ofName, ofName, ← hnode]
  cases v.isNode with
  | false => exact .refl _
  | true =>
    intro _
    refine ⟨rfl, ?_⟩
    intro entry hentry
    rw [List.mem_singleton.1 hentry]
    exact ⟨(target, w), List.mem_singleton_self _, rfl, h⟩

theorem carriedBy_ofPattern (target : Target) {v w : Value} (h : Reordered v w)
    : (ofPattern target w).CarriedBy (ofPattern target v) := by
  have hcarries := Pattern.carries_identifiers h
  rw [ofPattern, ofPattern]
  cases hv : Pattern.identifiers v with
  | error e =>
    intro hfailure
    contradiction
  | ok ids =>
    obtain ⟨others, hw, hids⟩ := hcarries ids hv
    rw [hw]
    intro _
    refine ⟨rfl, ?_⟩
    intro entry hentry
    obtain ⟨id, hid, rfl⟩ := List.mem_map.1 hentry
    obtain ⟨other, hother, hreordered⟩ := hids id hid
    exact ⟨(target, other), List.mem_map_of_mem hother, rfl, hreordered⟩

theorem carriedBy_items (target : Target) {pick : Value → Value}
    (hpick : ∀ {v w}, Reordered v w → Reordered (pick v) (pick w)) {items others : List Value}
    : ReorderedItems items others →
      ((others.map fun item => ofPattern target (pick item)).foldr append none).CarriedBy
        ((items.map fun item => ofPattern target (pick item)).foldr append none)
  | .nil => .refl _
  | .cons first rest =>
    (carriedBy_ofPattern target (hpick first)).append (carriedBy_items target hpick rest)
  | .swap _ _ _ => carriedBy_swap _ _ _
  | .trans h h' => (carriedBy_items target hpick h).trans (carriedBy_items target hpick h')

theorem carriedBy_ofPatterns (target : Target) {pick : Value → Value}
    (hpick : ∀ {v w}, Reordered v w → Reordered (pick v) (pick w)) {v w : Value}
    (h : Reordered v w)
    : (ofPatterns target pick w).CarriedBy (ofPatterns target pick v) := by
  rw [ofPatterns, ofPatterns]
  cases hv : v.elementsOrNone with
  | error e =>
    intro hfailure
    contradiction
  | ok items =>
    obtain ⟨others, hw, hitems⟩ := h.elementsOrNone hv
    rw [hw]
    exact carriedBy_items target hpick hitems

def Inside (ids : List Nat) (a : Bindings) : Prop :=
  ∀ entry ∈ a.entries, entry.2.recordIds ⊆ ids

theorem Inside.append {ids : List Nat} {a b : Bindings} (h : Inside ids a) (h' : Inside ids b)
    : Inside ids (a.append b) :=
  forall_append h h'

theorem inside_ofName (target : Target) (name : Value)
    : Inside name.recordIds (ofName target name) := by
  rw [ofName]
  split
  · intro entry hentry
    rw [List.mem_singleton.1 hentry]
    exact List.Subset.refl _
  · intro entry hentry
    contradiction

theorem inside_ofPattern (target : Target) (pattern : Value)
    : Inside pattern.recordIds (ofPattern target pattern) := by
  have hwithin := Pattern.within_identifiers pattern
  rw [ofPattern]
  cases hids : Pattern.identifiers pattern with
  | error e =>
    intro entry hentry
    contradiction
  | ok ids =>
    intro entry hentry
    obtain ⟨v, hv, rfl⟩ := List.mem_map.1 hentry
    exact hwithin ids hids v hv

theorem inside_ofPatterns (target : Target) {pick : Value → Value}
    (hpick : ∀ v, (pick v).recordIds ⊆ v.recordIds) (list : Value)
    : Inside list.recordIds (ofPatterns target pick list) := by
  rw [ofPatterns]
  cases hitems : list.elementsOrNone with
  | error e =>
    intro entry hentry
    contradiction
  | ok items =>
    have hall : ∀ item ∈ items, (pick item).recordIds ⊆ list.recordIds :=
      fun item hitem => List.Subset.trans (hpick item) (recordIds_element hitems hitem)
    clear hitems
    dsimp only
    induction items with
    | nil =>
      intro entry hentry
      contradiction
    | cons item rest ih =>
      rw [List.forall_mem_cons] at hall
      refine Inside.append ?_ (ih hall.2)
      intro entry hentry
      exact List.Subset.trans (inside_ofPattern target (pick item) entry hentry) hall.1

end Bindings

theorem inside_bindings (n : Node) : Bindings.Inside n.value.recordIds (bindings n) := by
  have hfield : ∀ {name : String} {a : Bindings}, Bindings.Inside (n.value.field name).recordIds a →
      Bindings.Inside n.value.recordIds a :=
    fun h entry hentry => List.Subset.trans (h entry hentry) (recordIds_field ..)
  have hpatterns : ∀ (target : Target) (name : String),
      Bindings.Inside n.value.recordIds (.ofPatterns target id (n.value.field name)) :=
    fun target name => hfield (Bindings.inside_ofPatterns target (fun v => List.Subset.refl _) _)
  rw [bindings]
  split
  · exact (hfield (Bindings.inside_ofName _ _)).append (hpatterns _ _)
  · split
    · exact hfield (Bindings.inside_ofPatterns _ (fun v => recordIds_field ..) _)
    · split
      · exact hfield (Bindings.inside_ofName _ _)
      · split
        · exact hfield (Bindings.inside_ofName _ _)
        · split
          · exact hfield (Bindings.inside_ofPattern _ _)
          · split
            · exact hfield (Bindings.inside_ofName _ _)
            · intro entry hentry
              contradiction

theorem kind_reordered {n n' : Node} (h : Reordered n.value n'.value) : n.kind = n'.kind := by
  have hkind := h.kind?
  rw [n.kind_eq, n'.kind_eq] at hkind
  injection hkind

theorem carriedBy_bindings {n n' : Node} (h : Reordered n.value n'.value)
    : (bindings n').CarriedBy (bindings n) := by
  have hkind := kind_reordered h
  rw [bindings, bindings, ← hkind]
  split
  · exact (Bindings.carriedBy_ofName _ (h.field "id")).append
      (Bindings.carriedBy_ofPatterns _ (fun h => h) (h.field "params"))
  · split
    · have hvar := h.field "kind"
      dsimp only
      generalize n.value.field "kind" = kind at hvar ⊢
      generalize n'.value.field "kind" = kind' at hvar ⊢
      cases hvar <;>
        exact Bindings.carriedBy_ofPatterns _ (fun h => h.field "id") (h.field "declarations")
    · split
      · exact Bindings.carriedBy_ofName _ (h.field "id")
      · split
        · exact Bindings.carriedBy_ofName _ (h.field "id")
        · split
          · exact Bindings.carriedBy_ofPattern _ (h.field "param")
          · split
            · exact Bindings.carriedBy_ofName _ (h.field "local")
            · exact .refl _

end Scope

namespace Analysis

open Scope Walk

variable {α : Type} {hooks : Hooks α}

theorem enter_ok_iff (hooks : Hooks α) (site : Site ScopeId) (a : Analysis α)
    : (∃ out a', enter hooks site a = (.ok out, a')) ↔ (bindings site.node).failure = none := by
  rw [enter]
  obtain ⟨opened, a₁⟩ := openAt site a
  dsimp only
  rw [bindAll]
  cases (bindings site.node).failure with
  | none => exact iff_of_true ⟨_, _, rfl⟩ rfl
  | some e => simp

theorem keeps_listed {place : Route → Option Occurrence} {root : Value}
    : Keeps place root hooks fun xs _ => ∀ x ∈ xs, (bindings x.node).failure = none := by
  refine ⟨?_, fun h => h⟩
  intro xs x outer inner override a a' h _ _ _ _ henter y hy
  rcases List.mem_append.1 hy with hy | hy
  · exact h y hy
  · rw [List.mem_singleton.1 hy]
    exact (enter_ok_iff hooks ⟨x.node, outer, x.path⟩ a).1 ⟨_, _, henter⟩

theorem visitAll_ok {children : List (Edge × Outline Value.NotIterable)} {context : ScopeId}
    {path : Path} {parent : Node}
    (ih : ∀ entry ∈ children, ∀ s : Session (Analysis α),
      (visit (visitor hooks) context (path.descend parent entry.1) entry.2 s).1 = .ok ())
    (s : Session (Analysis α))
    : (visitAll (visitor hooks) context path parent children none s).1 = .ok () := by
  induction children generalizing s with
  | nil => rfl
  | cons entry rest ihrest =>
    obtain ⟨edge, child⟩ := entry
    have hchild := ih (edge, child) (List.mem_cons_self ..) s
    rw [visitAll]
    generalize visit (visitor hooks) context (path.descend parent edge) child s = out at hchild ⊢
    obtain ⟨result, s'⟩ := out
    dsimp only at hchild
    subst hchild
    exact ihrest (fun entry h => ih entry (List.mem_cons_of_mem _ h)) s'

theorem visit_ok {n : Node} (h : Acc (Strategy.all : Strategy Value.NotIterable).IsChild n)
    {path : Path} {route : Route}
    (hlisted : ∀ x ∈ (Strategy.all.outline n h).preorder path route,
      (bindings x.node).failure = none)
    (context : ScopeId) (s : Session (Analysis α))
    : (visit (visitor hooks) context path (Strategy.all.outline n h) s).1 = .ok () := by
  induction h generalizing context path route s with
  | intro n hacc ih =>
    have hown := hlisted ⟨route, path, n⟩ (Strategy.mem_preorder_all.2 (.inl rfl))
    obtain ⟨⟨override, inner⟩, a, henter⟩ :=
      (enter_ok_iff hooks ⟨n, context, path⟩ s.state).2 hown
    have hall : ∀ entry ∈ (Strategy.all.outline n (.intro n hacc)).children,
        ∀ s : Session (Analysis α),
        (visit (visitor hooks) (override.apply context) (path.descend n entry.1) entry.2 s).1 =
          .ok () := by
      intro entry hentry s
      obtain ⟨k, hk⟩ := List.mem_iff_getElem?.1 hentry
      obtain ⟨c, hc, hfinite, houtline⟩ := Strategy.getElem?_children_outline hk
      rw [houtline]
      apply ih c ⟨_, List.mem_of_getElem? hc⟩
      · intro x hx
        exact hlisted x (Strategy.mem_preorder_all.2 (.inr ⟨k, _, c, hfinite, hc, hx⟩))
    have hvisitAll := visitAll_ok hall { s.arrive path.length with state := a }
    rw [Strategy.outline_eq_mk, visitor, visit_twoPhase, henter]
    rw [visitor] at hvisitAll
    dsimp only [Strategy.all] at hvisitAll ⊢
    generalize visitAll (.twoPhase (enter hooks) (exit hooks)) (override.apply context) path n _
      none _ = out at hvisitAll ⊢
    obtain ⟨result, s'⟩ := out
    dsimp only at hvisitAll
    subst hvisitAll
    rfl

theorem run_ok_iff {a : Analysis α} {root : Node}
    : (run hooks a root.value).1 = .ok () ↔
        ∀ x ∈ visited root, (bindings x.node).failure = none := by
  constructor
  · intro hok
    exact (run_keeps keeps_listed (by simp) hok).2
  · intro hlisted
    rw [run, walk_eq_visit]
    exact visit_ok _ hlisted moduleScope _

theorem listed_of_run {a : Analysis α} {root : Value} (hok : (run hooks a root).1 = .ok ())
    : ∃ n : Node, n.value = root ∧ ∀ x ∈ visited n, (bindings x.node).failure = none := by
  obtain ⟨n, rfl⟩ : ∃ n : Node, n.value = root := by
    unfold run walk at hok
    split at hok
    next => contradiction
    next n hn => exact ⟨n, Node.ofValue?_eq_some.1 hn⟩
  exact ⟨n, rfl, run_ok_iff.1 hok⟩

end Analysis

end Arbor
