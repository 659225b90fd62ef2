import Arbor.Proofs.Scope.Reordering
import Arbor.Proofs.Scope.Shape

/-!
This module relates the occurrences of a tree to those of a reordered one. Occurrences correspond if
the ways to them lead through corresponding nodes (`Matches`). What is known about the surroundings
of an occurrence is known from the way to it, so corresponding occurrences have corresponding scopes
around them (`KeyMatches`).
-/

namespace Arbor

open Value

namespace Scope

/-- Occurrences of two trees that stand in the same place, apart from the order of elements. -/
inductive Matches (root root' : Node) : Occurrence → Occurrence → Prop
  | root (h : Reordered root.value root'.value) :
      Matches root root' ⟨[], [], root⟩ ⟨[], [], root'⟩
  | child {y y' : Occurrence} {e e' : Edge} {n n' : Node} (i i' : Nat)
      (above : Matches root root' y y') (left : y ∈ Analysis.visited root)
      (right : y' ∈ Analysis.visited root') (key : e.key = e'.key)
      (node : Reordered n.value n'.value) :
      Matches root root' ⟨i :: y.route, y.path.descend y.node e, n⟩
        ⟨i' :: y'.route, y'.path.descend y'.node e', n'⟩

inductive KeyMatches (root root' : Node) : Key → Key → Prop
  | module : KeyMatches root root' none none
  | opened {x x' : Occurrence} (h : Matches root root' x x') (left : x ∈ Analysis.visited root)
      (right : x' ∈ Analysis.visited root') :
      KeyMatches root root' (some x.route) (some x'.route)

variable {root root' : Node} {x x' : Occurrence}

namespace Matches

theorem symm (h : Matches root root' x x') : Matches root' root x' x := by
  induction h with
  | root h => exact .root h.symm
  | child i i' _ left right key node ih => exact .child i' i ih right left key.symm node.symm

theorem node (h : Matches root root' x x') : Reordered x.node.value x'.node.value := by
  cases h with
  | root h => exact h
  | child _ _ _ _ _ _ node => exact node

theorem kind (h : Matches root root' x x') : x.node.kind = x'.node.kind :=
  kind_reordered h.node

theorem opens (h : Matches root root' x x') : x.opens = x'.opens := by
  have hkind := h.kind
  rw [Occurrence.opens, Occurrence.opens, ← hkind]
  cases h with
  | root h => rfl
  | child _ _ above _ _ _ _ =>
    simp only [Scope.opens, Path.parent?, Path.descend, List.getLast?_concat, Option.map_some,
      isFunction, above.node.kind?]

theorem isNamePosition (h : Matches root root' x x')
    : Reference.isNamePosition x.path = Reference.isNamePosition x'.path := by
  cases h with
  | root h => rfl
  | child _ _ above _ _ key _ =>
    simp only [Reference.isNamePosition, Path.descend, List.getLast?_concat, above.node.kind?, key,
      (above.node.field "computed").isTruthy]

end Matches

theorem exists_match_below {n n' : Node}
    (h : Acc (Strategy.all : Strategy Value.NotIterable).IsChild n)
    (h' : Acc (Strategy.all : Strategy Value.NotIterable).IsChild n') {path path' : Path}
    {route route' : Route} (hmatch : Matches root root' ⟨route, path, n⟩ ⟨route', path', n'⟩)
    (hleft : ∀ y ∈ (Strategy.all.outline n h).preorder path route, y ∈ Analysis.visited root)
    (hright : ∀ y ∈ (Strategy.all.outline n' h').preorder path' route', y ∈ Analysis.visited root')
    (hx : x ∈ (Strategy.all.outline n h).preorder path route)
    : ∃ x' ∈ (Strategy.all.outline n' h').preorder path' route', Matches root root' x x' := by
  induction h generalizing n' path path' route route' with
  | intro n hacc ih =>
    have hown := hleft ⟨route, path, n⟩ (Strategy.mem_preorder_all.2 (.inl rfl))
    have hown' := hright ⟨route', path', n'⟩ (Strategy.mem_preorder_all.2 (.inl rfl))
    rcases Strategy.mem_preorder_all.1 hx with rfl | ⟨k, e, c, hc, hk, hx⟩
    · exact ⟨_, Strategy.mem_preorder_all.2 (.inl rfl), hmatch⟩
    · have hchild : (e, c) ∈ n.value.children := List.mem_of_getElem? hk
      obtain ⟨e', c', hchild', hkey, hreordered⟩ := hmatch.node.mem_children hchild
      obtain ⟨k', hk'⟩ := List.mem_iff_getElem?.1 hchild'
      have hbelow : ∀ {y}, y ∈ (Strategy.all.outline c' (h'.inv ⟨e', hchild'⟩)).preorder
          (path'.descend n' e') (k' :: route') →
          y ∈ (Strategy.all.outline n' h').preorder path' route' :=
        fun hy => Strategy.mem_preorder_all.2 (.inr ⟨k', e', c', _, hk', hy⟩)
      obtain ⟨x', hx', hmatch'⟩ := ih c ⟨e, hchild⟩ (h'.inv ⟨e', hchild'⟩)
        (.child k k' hmatch hown hown' hkey.symm hreordered)
        (fun y hy => hleft y (Strategy.mem_preorder_all.2 (.inr ⟨k, e, c, hc, hk, hy⟩)))
        (fun y hy => hright y (hbelow hy)) hx
      exact ⟨x', hbelow hx', hmatch'⟩

theorem exists_match (h : Reordered root.value root'.value) (hx : x ∈ Analysis.visited root)
    : ∃ x' ∈ Analysis.visited root', Matches root root' x x' :=
  exists_match_below _ _ (.root h) (fun _ hy => hy) (fun _ hy => hy) hx

theorem KeyMatches.symm {key key' : Key} (h : KeyMatches root root' key key')
    : KeyMatches root' root key' key := by
  cases h with
  | module => exact .module
  | opened h left right => exact .opened h.symm right left

theorem matches_enclosing (h : Matches root root' x x')
    : KeyMatches root root' (enclosing (Analysis.outline root).at? x.route)
        (enclosing (Analysis.outline root').at? x'.route) := by
  induction h with
  | root => exact .module
  | child i i' above left right _ _ ih =>
    rw [enclosing_cons, enclosing_cons, own, own, kindAt_visited left, kindAt_visited right,
      ← above.opens]
    split
    · exact .opened above left right
    · exact ih

theorem matches_own (h : Matches root root' x x') (left : x ∈ Analysis.visited root)
    (right : x' ∈ Analysis.visited root')
    : KeyMatches root root' (own (Analysis.outline root).at? x.route)
        (own (Analysis.outline root').at? x'.route) := by
  rw [own, own, kindAt_visited left, kindAt_visited right, ← h.opens]
  split
  · exact .opened h left right
  · exact matches_enclosing h

theorem matches_hoisted (h : Matches root root' x x')
    : KeyMatches root root' (hoisted (Analysis.outline root).at? x.route)
        (hoisted (Analysis.outline root').at? x'.route) := by
  induction h with
  | root => exact .module
  | child i i' above left right _ _ ih =>
    rw [hoisted, hoisted, Route.ancestors, Route.ancestors, List.find?_cons, List.find?_cons,
      ← hoisted, ← hoisted, kindAt_visited left, kindAt_visited right, ← above.opens]
    split
    · exact .opened above left right
    · exact ih

theorem matches_keyOf (h : Matches root root' x x') (left : x ∈ Analysis.visited root)
    (right : x' ∈ Analysis.visited root') (target : Target)
    : Option.Rel (KeyMatches root root') (keyOf (Analysis.outline root).at? x.route target)
        (keyOf (Analysis.outline root').at? x'.route target) := by
  cases target with
  | outer => exact .some (matches_enclosing h)
  | inner => exact .some (matches_own h left right)
  | hoisted => exact .some (matches_hoisted h)
  | module => exact .some .module
  | nowhere => exact .none

theorem matches_around (h : Matches root root' x x')
    : List.Forall₂ (KeyMatches root root') (around (Analysis.outline root).at? x.route)
        (around (Analysis.outline root').at? x'.route) := by
  induction h with
  | root => exact .cons .module .nil
  | child i i' above left right _ _ ih =>
    rw [around_cons, around_cons, kindAt_visited left, kindAt_visited right, ← above.opens]
    split
    · exact .cons (.opened above left right) ih
    · exact ih

theorem matches_above {key key' : Key} (h : KeyMatches root root' key key')
    : List.Forall₂ (KeyMatches root root') (above (Analysis.outline root).at? key)
        (above (Analysis.outline root').at? key') := by
  cases h with
  | module => exact .nil
  | opened h _ _ => exact matches_around h

theorem eq_of_id?_eq (hdistinct : root.value.recordIds.Nodup) (hx : x ∈ Analysis.visited root)
    (hx' : x' ∈ Analysis.visited root) (h : x.node.value.id? = x'.node.value.id?) : x = x' := by
  obtain ⟨id, hid⟩ : ∃ id, x.node.value.id? = some id := by
    obtain ⟨id, form, fields, heq⟩ := x.node.exists_record
    exact ⟨id, by rw [heq]; rfl⟩
  have hid' : x'.node.value.id? = some id := h.symm.trans hid
  have hsuffix := Strategy.suffix_of_mem_recordIds hdistinct hx hx' hid
    (Value.mem_recordIds_self hid')
  have hsuffix' := Strategy.suffix_of_mem_recordIds hdistinct hx' hx hid'
    (Value.mem_recordIds_self hid)
  have hroute : x.route = x'.route :=
    hsuffix'.eq_of_length (Nat.le_antisymm hsuffix'.length_le hsuffix.length_le)
  exact List.inj_on_of_nodup_map (Outline.nodup_preorder _ [] []) hx hx' hroute

theorem Matches.unique (hdistinct : root'.value.recordIds.Nodup) {x'' : Occurrence}
    (h : Matches root root' x x') (h' : Matches root root' x x'')
    (hx' : x' ∈ Analysis.visited root') (hx'' : x'' ∈ Analysis.visited root') : x' = x'' :=
  eq_of_id?_eq hdistinct hx' hx'' (h.node.id?.symm.trans h'.node.id?)

theorem KeyMatches.unique (hdistinct : root'.value.recordIds.Nodup) {key key' key'' : Key}
    (h : KeyMatches root root' key key') (h' : KeyMatches root root' key key'')
    : key' = key'' := by
  cases h with
  | module =>
    cases h'
    rfl
  | @opened x x' h left right =>
    generalize hkey : some x.route = other at h'
    cases h' with
    | module => contradiction
    | @opened y y' h' left' right' =>
      injection hkey with hroute
      obtain rfl : x = y :=
        List.inj_on_of_nodup_map (Outline.nodup_preorder _ [] []) left left' hroute
      rw [h.unique hdistinct h' right right']

theorem exists_keyMatch (h : Reordered root.value root'.value) {key : Key}
    (hkey : key ∈ keys (Analysis.visited root))
    : ∃ key' ∈ keys (Analysis.visited root'), KeyMatches root root' key key' := by
  rcases mem_keys.1 hkey with rfl | ⟨x, hx, hopens, rfl⟩
  · exact ⟨none, List.mem_cons_self .., .module⟩
  · obtain ⟨x', hx', hmatch⟩ := exists_match h hx
    rw [hmatch.opens] at hopens
    exact ⟨some x'.route, mem_keys.2 (.inr ⟨x', hx', hopens, rfl⟩), .opened hmatch hx hx'⟩

theorem declaredIn_reordered (h : Reordered root.value root'.value)
    (hdistinct : root'.value.recordIds.Nodup)
    (hlisted : ∀ x ∈ Analysis.visited root, (bindings x.node).failure = none) {key key' : Key}
    (hkey : KeyMatches root root' key key') {name : String}
    (hname : name ∈ (declaredIn root key).map (·.1))
    : name ∈ (declaredIn root' key').map (·.1) := by
  rw [mem_declaredIn] at hname ⊢
  obtain ⟨x, hx, identifier, hdirected, hname⟩ := hname
  obtain ⟨⟨target, other⟩, hdeclared, hdirect⟩ := List.mem_filterMap.1 hdirected
  obtain ⟨found, htarget, heq⟩ := Option.map_eq_some_iff.1 hdirect
  injection heq with hfound hidentifier
  subst hfound hidentifier
  obtain ⟨x', hx', hmatch⟩ := exists_match h hx
  -- the occurrence in the other tree binds the identifier in the same place
  obtain ⟨hlisted', hentries⟩ := carriedBy_bindings hmatch.node (hlisted x hx)
  rw [← bindings_eq_declared (hlisted x hx), List.mem_filter] at hdeclared
  obtain ⟨⟨_, other'⟩, hother', rfl, hreordered⟩ := hentries _ hdeclared.1
  have hdeclared' : (target, other') ∈ declared x'.node := by
    rw [← bindings_eq_declared hlisted', List.mem_filter]
    exact ⟨hother', hdeclared.2⟩
  have htargets := matches_keyOf hmatch hx hx' target
  rw [htarget] at htargets
  generalize hfound' : keyOf (Analysis.outline root').at? x'.route target = found' at htargets
  cases htargets with
  | some hfound =>
    rw [hfound.unique hdistinct hkey] at hfound'
    refine ⟨x', hx', other', List.mem_filterMap.2 ⟨_, hdeclared', ?_⟩, ?_⟩
    · rw [direct, hfound']
      rfl
    · exact (hreordered.field "name").eq_str hname

end Scope

end Arbor
