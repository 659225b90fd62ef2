import Arbor.Proofs.Scope.OrderIndependence

/-!
This module says which identifiers are taken for references. Bindings are marked while the walk goes
on that asks for them, but where no record stands twice, what a node binds is below it; so an
identifier is marked before it is entered, or never. Main statement: whether an identifier is a
reference can be told from its place in the tree (`classification`).
-/

namespace Arbor

namespace Scope

namespace Bindings

theorem target_ofName (target : Target) (name : Value)
    : ∀ entry ∈ (ofName target name).entries, entry.1 = target := by
  unfold ofName
  split
  · intro entry hentry
    rw [List.mem_singleton.1 hentry]
  · intro entry hentry
    contradiction

theorem target_ofPattern (target : Target) (pattern : Value)
    : ∀ entry ∈ (ofPattern target pattern).entries, entry.1 = target := by
  unfold ofPattern
  split
  · intro entry hentry
    obtain ⟨id, _, rfl⟩ := List.mem_map.1 hentry
    rfl
  · intro entry hentry
    contradiction

theorem target_ofPatterns (target : Target) (pick : Value → Value) (list : Value)
    : ∀ entry ∈ (ofPatterns target pick list).entries, entry.1 = target := by
  unfold ofPatterns
  split
  next items hitems =>
    clear hitems
    induction items with
    | nil =>
      intro entry hentry
      contradiction
    | cons item rest ih => exact forall_append (target_ofPattern target (pick item)) ih
  next =>
    intro entry hentry
    contradiction

end Bindings

def marked (n : Node) : List Value :=
  if n.kind = "ClassExpression" then (declaredName .nowhere (n.value.field "id")).map (·.2)
  else (declared n).map (·.2)

theorem ne_nowhere_bindings {n : Node} (h : n.kind ≠ "ClassExpression")
    : ∀ entry ∈ (bindings n).entries, entry.1 ≠ .nowhere := by
  have hname : ∀ {target : Target} {name : Value}, target ≠ .nowhere →
      ∀ entry ∈ (Bindings.ofName target name).entries, entry.1 ≠ .nowhere := by
    intro target name htarget entry hentry
    rwa [Bindings.target_ofName target name entry hentry]
  have hpatterns : ∀ {target : Target} {pick : Value → Value} {list : Value}, target ≠ .nowhere →
      ∀ entry ∈ (Bindings.ofPatterns target pick list).entries, entry.1 ≠ .nowhere := by
    intro target pick list htarget entry hentry
    rwa [Bindings.target_ofPatterns target pick list entry hentry]
  unfold bindings
  split
  · apply Bindings.forall_append
    · apply hname
      split <;> simp
    · exact hpatterns (by simp)
  · split
    · apply hpatterns
      split <;> simp
    · split
      · exact hname (by simp)
      · split
        · intro entry hentry
          rw [Bindings.target_ofPattern _ _ entry hentry]
          simp
        · split
          · exact hname (by simp)
          · intro entry hentry
            contradiction

theorem mem_marked {n : Node} (h : (bindings n).failure = none) {v : Value}
    : v ∈ marked n ↔ ∃ entry ∈ (bindings n).entries, entry.2 = v := by
  unfold marked
  split
  next hclass =>
    have heq : bindings n = .ofName .nowhere (n.value.field "id") := by
      simp [bindings, hclass, functionKinds]
    rw [heq, Bindings.ofName_eq, List.mem_map]
  next hclass =>
    have hall : (bindings n).entries.filter (·.1 ≠ .nowhere) = (bindings n).entries := by
      rw [List.filter_eq_self]
      intro entry hentry
      simpa using ne_nowhere_bindings hclass entry hentry
    rw [← bindings_eq_declared h, hall, List.mem_map]

end Scope

open Analysis Scope Walk

def Occurrence.HangsOn (x y : Occurrence) (e : Edge) : Prop :=
  ∃ k, y.node.value.children[k]? = some (e, x.node) ∧ x.route = k :: y.route

theorem Strategy.hangsOn_preorder {ε : Type} {n : Node} {h : Acc (all : Strategy ε).IsChild n}
    {path : Path} {route : Route} {x : Occurrence}
    (hx : x ∈ (all.outline n h).preorder path route)
    : x = ⟨route, path, n⟩
      ∨
      ∃ y ∈ (all.outline n h).preorder path route, ∃ e, x.HangsOn y e
        ∧ x.path = y.path.descend y.node e := by
  induction h generalizing path route with
  | intro n _ ih =>
    rcases mem_preorder_all.1 hx with rfl | ⟨k, e, c, hc, hk, hx⟩
    · exact .inl rfl
    · right
      rcases ih c ⟨e, List.mem_of_getElem? hk⟩ hx with rfl | ⟨y, hy, e', hhangs, hpath⟩
      · exact ⟨⟨route, path, n⟩, mem_preorder_all.2 (.inl rfl), e, ⟨k, hk, rfl⟩, rfl⟩
      · exact ⟨y, mem_preorder_all.2 (.inr ⟨k, e, c, hc, hk, hy⟩), e', hhangs, hpath⟩

namespace Analysis

def asking : Hooks (List (Value × Bool)) where
  initial := []
  enter site a := a.notes ++ [(site.node.value, a.isBound site.node.value)]
  exit _ a := a.notes

def isAmong (bound : List Nat) (v : Value) : Bool :=
  (v.id?.map bound.contains).getD false

def answers (bound : List Nat) : List Occurrence → List (Value × Bool)
  | [] => []
  | x :: rest =>
    (x.node.value, isAmong (boundBy x.node ++ bound) x.node.value) ::
      answers (boundBy x.node ++ bound) rest

theorem answers_append (bound : List Nat) (xs ys : List Occurrence)
    : answers bound (xs ++ ys) = answers bound xs ++ answers (boundAfter bound xs) ys := by
  induction xs generalizing bound with
  | nil => rfl
  | cons x rest ih =>
    rw [List.cons_append, answers, ih, answers, List.cons_append]
    rfl

theorem keeps_answers {place : Route → Option Occurrence} {root : Value}
    : Keeps place root asking fun xs a =>
        a.bound = boundAfter [] xs ∧ a.notes = answers [] xs := by
  refine ⟨?_, fun h => h⟩
  rintro xs x outer inner override a a' ⟨hbound, hnotes⟩ hreflects hplace hnew houter henter
  have hbound' : a'.bound = boundAfter [] (xs ++ [x]) :=
    keeps_bound.enter hbound hreflects hplace hnew houter henter
  obtain ⟨_, seen, hseen, hsame, hnotes'⟩ := notes_enter henter
  have hasked : a'.notes = seen.notes ++ [(x.node.value, seen.isBound x.node.value)] := hnotes'
  refine ⟨hbound', ?_⟩
  rw [hasked, answers_append, hseen, hnotes, isBound, hsame, hbound', boundAfter_concat]
  rfl

end Analysis

namespace Reference

variable {root : Node} {x : Occurrence}

def IsMereName (root : Node) (x : Occurrence) : Prop :=
  ∃ y ∈ visited root, ∃ e, x.HangsOn y e
    ∧ (y.node.kind, e.key) ∈ namePositions
    ∧ (y.node.value.field "computed").isTruthy = false

theorem isNamePosition_descend (path : Path) (n : Node) (e : Edge)
    : isNamePosition (path.descend n e) = true ↔
        (n.kind, e.key) ∈ namePositions ∧ (n.value.field "computed").isTruthy = false := by
  unfold isNamePosition
  rw [Path.descend, List.getLast?_concat]
  simp [n.kind_eq]

theorem isNamePosition_iff (hx : x ∈ visited root)
    : isNamePosition x.path = true ↔ IsMereName root x := by
  rcases Strategy.hangsOn_preorder hx with rfl | ⟨y, hy, e, hhangs, hpath⟩
  · refine iff_of_false (by simp [isNamePosition]) ?_
    rintro ⟨y, _, e, ⟨k, _, hroute⟩, _⟩
    contradiction
  · rw [hpath, isNamePosition_descend]
    constructor
    · exact fun h => ⟨y, hy, e, hhangs, h⟩
    · rintro ⟨z, hz, e', ⟨j, hj, hroute⟩, h⟩
      obtain ⟨k, hk, hroute'⟩ := hhangs
      rw [hroute', List.cons.injEq] at hroute
      obtain rfl : y = z := List.inj_on_of_nodup_map (Outline.nodup_preorder _ [] []) hy hz hroute.2
      rw [← hroute.1, hk, Option.some.injEq, Prod.mk.injEq] at hj
      rwa [hj.1]

/-- An identifier that is a reference, told by its place in the tree. -/
structure IsReference (root : Node) (x : Occurrence) : Prop where
  identifier : x.node.kind = "Identifier"
  named : ∃ name, x.node.value.field "name" = .str name
  unmarked : ∀ y ∈ visited root, ∀ v ∈ marked y.node, v.id? ≠ x.node.value.id?
  used : ¬ IsMereName root x

theorem isUse_iff (bound : List Nat)
    : isUse bound x = true ↔
        x.node.kind = "Identifier" ∧ isAmong bound x.node.value = false
        ∧ isNamePosition x.path = false ∧ ∃ name, x.node.value.field "name" = .str name := by
  unfold isUse isAmong
  cases x.node.value.field "name" <;> simp [and_assoc]

theorem isAmong_iff (bound : List Nat) (n : Node)
    : isAmong bound n.value = true ↔ ∃ id ∈ bound, some id = n.value.id? := by
  unfold isAmong
  cases n.value.id? with
  | none => simp
  | some id => simp

theorem mem_marked_visited (hlisted : ∀ x ∈ visited root, (bindings x.node).failure = none)
    {id : Nat}
    : id ∈ boundAfter [] (visited root) ↔
        ∃ y ∈ visited root, ∃ v ∈ marked y.node, v.id? = some id := by
  rw [mem_boundAfter]
  simp only [List.not_mem_nil, false_or, mem_boundBy]
  refine exists_congr fun y => and_congr_right fun hy => ?_
  simp only [mem_marked (hlisted y hy)]
  constructor
  · rintro ⟨b, hb, hid⟩
    exact ⟨b.2, ⟨b, hb, rfl⟩, hid⟩
  · rintro ⟨_, ⟨b, hb, rfl⟩, hid⟩
    exact ⟨b, hb, hid⟩

theorem isReference_iff (hlisted : ∀ x ∈ visited root, (bindings x.node).failure = none)
    (hx : x ∈ visited root)
    : isUse (boundAfter [] (visited root)) x = true ↔ IsReference root x := by
  have hmarked : isAmong (boundAfter [] (visited root)) x.node.value = false ↔
      ∀ y ∈ visited root, ∀ v ∈ marked y.node, v.id? ≠ x.node.value.id? := by
    rw [← Bool.not_eq_true, isAmong_iff]
    constructor
    · intro h y hy v hv hid
      obtain ⟨id, form, fields, heq⟩ := x.node.exists_record
      have hself : x.node.value.id? = some id := by
        rw [heq]
        rfl
      have hbound := (mem_marked_visited hlisted).2 ⟨y, hy, v, hv, hid.trans hself⟩
      exact h ⟨id, hbound, hself.symm⟩
    · rintro h ⟨id, hid, hself⟩
      obtain ⟨y, hy, v, hv, hid⟩ := (mem_marked_visited hlisted).1 hid
      exact h y hy v hv (hid.trans hself)
  rw [isUse_iff, hmarked, ← Bool.not_eq_true, isNamePosition_iff hx]
  constructor
  · rintro ⟨identifier, unmarked, used, named⟩
    exact ⟨identifier, named, unmarked, used⟩
  · rintro ⟨identifier, named, unmarked, used⟩
    exact ⟨identifier, unmarked, used, named⟩

def recordsOf (root : Node) (x : Occurrence) : List Reference :=
  (collected root).filter (·.node.id? = x.node.value.id?)

/-- A scope is the one that the nearest occurrence above opens, or that of the whole tree. -/
inductive StandsIn (root : Node) (table : ScopeTable) (x : Occurrence) (id : ScopeId) : Prop where
  | opened {y : Occurrence} {kind : Kind} {scope : Scope} (mem : y ∈ visited root)
      (above : y.route ∈ x.route.ancestors) (opens : y.opens = some kind)
      (nearest : ∀ z ∈ visited root, z.route ∈ x.route.ancestors →
        y.route ∈ z.route.ancestors → z.opens = none)
      (scope_eq : table.scope? id = some scope) (kind_eq : scope.kind = kind)
      (node_eq : scope.node = y.node.value)
  | module (outside : ∀ z ∈ visited root, z.route ∈ x.route.ancestors → z.opens = none)
      (id_eq : id = moduleScope)

structure Records (root : Node) (x : Occurrence) (r : Reference) : Prop where
  node : r.node = x.node.value
  path : r.path = x.path
  name : x.node.value.field "name" = .str r.name
  scope : StandsIn root (scopes root) x r.scope

theorem filter_eq_singleton {α β : Type} [DecidableEq β] {f : α → β} {l : List α} {a : α}
    (hnodup : (l.map f).Nodup) (ha : a ∈ l) : l.filter (f · = f a) = [a] := by
  obtain ⟨before, after, rfl⟩ := List.append_of_mem ha
  rw [List.map_append, List.map_cons, List.nodup_middle, List.nodup_cons,
    ← List.map_append] at hnodup
  have hother : ∀ b ∈ before ++ after, ¬ decide (f b = f a) = true := by
    intro b hb heq
    rw [decide_eq_true_eq] at heq
    exact hnodup.1 (List.mem_map.2 ⟨b, hb, heq⟩)
  rw [List.filter_append, List.filter_cons_of_pos (by simp),
    List.filter_eq_nil_iff.2 fun b hb => hother b (List.mem_append_left _ hb),
    List.filter_eq_nil_iff.2 fun b hb => hother b (List.mem_append_right _ hb)]
  rfl

theorem recordsOf_referring (hdistinct : root.value.recordIds.Nodup)
    (hok : (collection root).1 = .ok ()) (hx : x ∈ referring [] (visited root))
    : recordsOf root x = [atOccurrence root x] := by
  rw [recordsOf, collected_eq hok]
  exact filter_eq_singleton (nodup_allIn hdistinct) (List.mem_map_of_mem hx)

theorem recordsOf_other (hdistinct : root.value.recordIds.Nodup)
    (hok : (collection root).1 = .ok ()) (hx : x ∈ visited root)
    (hother : x ∉ referring [] (visited root)) : recordsOf root x = [] := by
  rw [recordsOf, collected_eq hok, List.filter_eq_nil_iff]
  intro r hr heq
  obtain ⟨y, hy, rfl⟩ := List.mem_map.1 hr
  have hsame : y = x := eq_of_id?_eq hdistinct ((sublist_referring _ _).subset hy) hx
    (of_decide_eq_true heq)
  rw [hsame] at hy
  contradiction

theorem ancestors_split {route r : Route} {before after : List Route}
    (h : route.ancestors = before ++ r :: after) : after = r.ancestors := by
  induction route generalizing before with
  | nil => simp [Route.ancestors] at h
  | cons i route ih =>
    rw [Route.ancestors] at h
    cases before with
    | nil =>
      injection h with hr hafter
      rw [← hr, hafter]
    | cons first before =>
      injection h with _ h
      exact ih h

theorem standsIn_enclosing {table : ScopeTable}
    (h : Reflects (outline root).at? root.value (visited root) table) (x : Occurrence)
    : StandsIn root table x (placeOf root (enclosing (outline root).at? x.route)) := by
  cases hkey : enclosing (outline root).at? x.route with
  | none =>
    refine .module ?_ ?_
    · intro z hz habove
      have hclosed := List.find?_eq_none.1 hkey z.route habove
      rwa [kindAt_visited hz, Option.not_isSome_iff_eq_none] at hclosed
    · rw [placeOf, keys, List.idxOf_cons_self]
      rfl
  | some r =>
    obtain ⟨hopens, before, after, hancestors, hbefore⟩ := List.find?_eq_some_iff_append.1 hkey
    obtain ⟨y, hy, kind, rfl, hkind⟩ := exists_opening hopens
    obtain ⟨_, scope, hscope, hkind', hnode, _⟩ := scope?_opened h hy hkind
    refine .opened hy ?_ hkind ?_ hscope hkind' hnode
    · rw [hancestors]
      exact List.mem_append_right _ (List.mem_cons_self ..)
    · intro z hz habove hinner
      -- between the two there is no scope, and behind the outer one there is nothing in between
      have hmem : z.route ∈ before := by
        rw [hancestors, List.mem_append, List.mem_cons, ancestors_split hancestors] at habove
        have hlong := (Route.mem_ancestors.1 hinner).1.length_le
        rcases habove with hbetween | hsame | hbehind
        · exact hbetween
        · rw [hsame] at hinner
          exact absurd rfl (Route.mem_ancestors.1 hinner).2
        · have hshort := (Route.mem_ancestors.1 hbehind).1
          exact absurd (hshort.eq_of_length_le hlong) (Route.mem_ancestors.1 hbehind).2
      have hclosed := hbefore z.route hmem
      rw [kindAt_visited hz] at hclosed
      simpa using hclosed

theorem own_identifier (hx : x ∈ visited root) (hkind : x.node.kind = "Identifier")
    : own (outline root).at? x.route = enclosing (outline root).at? x.route := by
  rw [own, kindAt_visited hx, Occurrence.opens, hkind, opens_identifier]
  rfl

theorem records_atOccurrence
    (h : Reflects (outline root).at? root.value (visited root) (scopes root))
    (hx : x ∈ visited root) (hreference : IsReference root x)
    : Records root x (atOccurrence root x) := by
  refine ⟨rfl, rfl, ?_, ?_⟩
  · obtain ⟨name, hname⟩ := hreference.named
    rw [atOccurrence, ofOccurrence, hname]
  · rw [atOccurrence, ofOccurrence, own_identifier hx hreference.identifier]
    exact standsIn_enclosing h x

theorem answers_eq (hdistinct : root.value.recordIds.Nodup) {before rest : List Occurrence}
    (h : visited root = before ++ rest)
    : answers (boundAfter [] before) rest = rest.map fun x =>
        (x.node.value, isAmong (boundAfter [] (visited root)) x.node.value) := by
  induction rest generalizing before with
  | nil => rfl
  | cons x rest ih =>
    have hself : isAmong (boundBy x.node ++ boundAfter [] before) x.node.value =
        isAmong (boundAfter [] (visited root)) x.node.value := by
      rw [Bool.eq_iff_iff, isAmong_iff, isAmong_iff]
      refine exists_congr fun id => and_congr_left fun hid => ?_
      exact mem_bound_before hdistinct h hid.symm
    have hrest := ih (h.trans (List.append_cons before x rest))
    rw [answers, hself, ← boundAfter_concat, hrest, List.map_cons]

theorem run_asking (hdistinct : root.value.recordIds.Nodup)
    (hlisted : ∀ x ∈ visited root, (bindings x.node).failure = none)
    : ∃ s, run asking (.fresh asking) root.value = (.ok (), s)
      ∧ s.state.notes =
        ((visited root).map fun x => (x.node.value, s.state.isBound x.node.value))
      ∧ ∀ v, s.state.isBound v = (collection root).2.state.isBound v := by
  have hasked : (run asking (.fresh asking) root.value).1 = .ok () := run_ok_iff.2 hlisted
  have hok : (collection root).1 = .ok () := run_ok_iff.2 hlisted
  obtain ⟨_, hbound, hnotes⟩ := run_keeps keeps_answers ⟨rfl, rfl⟩ hasked
  obtain ⟨_, hbound'⟩ := run_keeps keeps_bound rfl hok
  refine ⟨_, Prod.ext hasked rfl, ?_, ?_⟩
  · rw [hnotes]
    simp only [isBound, hbound]
    exact answers_eq hdistinct (List.nil_append (visited root)).symm
  · intro v
    rw [isBound, isBound, collection, hbound, hbound']

structure Classification (root : Node) : Prop where
  settled : ∃ s, run asking (.fresh asking) root.value = (.ok (), s)
    ∧ s.state.notes = ((visited root).map fun x => (x.node.value, s.state.isBound x.node.value))
    ∧ ∀ v, s.state.isBound v = (collection root).2.state.isBound v
  entered : occurrencesIn .enter (events (visitor hooks) .all root
    (Strategy.all_finiteFrom root.value) moduleScope
    { state := (fresh hooks).restart hooks root.value }) = visited root
  reference : ∀ x ∈ visited root, IsReference root x →
    ∃ r, recordsOf root x = [r] ∧ Records root x r
  other : ∀ x ∈ visited root, ¬ IsReference root x → recordsOf root x = []
  unbound : ∀ r ∈ collected root,
    (∃ x ∈ visited root, IsReference root x ∧ r ∈ recordsOf root x)
    ∧ ∀ y ∈ visited root, ∀ v ∈ marked y.node, v.id? ≠ r.node.id?

/--
An identifier is a reference by its place in the tree alone. Where no record stands twice and one of
the analyses returns, an identifier that is entered is bound then if it is at the end. It is
recorded as a reference, once and where it stands, if it has a name, no node of the tree binds it
and it is no mere name; otherwise it is not recorded. So what a node binds is never a reference.
-/
theorem classification (root : Node) (hdistinct : root.value.recordIds.Nodup)
    (hreturns : (∃ table, (scopesOf root.value).1 = .ok table)
      ∨ ∃ free, (freeReferences root.value).1 = .ok free)
    : (collection root).1 = .ok () ∧ Classification root := by
  have hlisted : ∀ x ∈ visited root, (bindings x.node).failure = none := by
    rcases hreturns with ⟨table, hscopes⟩ | ⟨free, hfree⟩
    · exact run_ok_iff.1 (scopesOf_run.1 ⟨_, Prod.ext hscopes rfl⟩).1
    · exact run_ok_iff.1 (run_of_freeReferences hfree)
  have hok : (collection root).1 = .ok () := run_ok_iff.2 hlisted
  have hreferring : ∀ {x}, x ∈ visited root →
      (x ∈ referring [] (visited root) ↔ IsReference root x) := by
    intro x hx
    rw [mem_referring_visited hdistinct, ← isReference_iff hlisted hx]
    exact and_iff_right hx
  refine ⟨hok, run_asking hdistinct hlisted, ?_, ?_, ?_, ?_⟩
  · rw [collection, run, walk_eq_visit] at hok
    exact (orderly_history hok).enters
  · intro x hx hreference
    exact ⟨_, recordsOf_referring hdistinct hok ((hreferring hx).2 hreference),
      records_atOccurrence (reflects_run hok) hx hreference⟩
  · intro x hx hother
    exact recordsOf_other hdistinct hok hx fun h => hother ((hreferring hx).1 h)
  · intro r hr
    rw [collected_eq hok] at hr
    obtain ⟨x, hx, rfl⟩ := List.mem_map.1 hr
    have hvisited := (sublist_referring _ _).subset hx
    have hreference := (hreferring hvisited).1 hx
    refine ⟨⟨x, hvisited, hreference, ?_⟩, hreference.unmarked⟩
    rw [recordsOf_referring hdistinct hok hx]
    exact List.mem_singleton_self _

theorem classification_sample
    : sampleScript.value.recordIds.Nodup
      ∧ (∃ table, (scopesOf sampleScript.value).1 = .ok table)
      ∧ Classification sampleScript := by
  have hdistinct : sampleScript.value.recordIds.Nodup := by decide
  obtain ⟨_, hfinds⟩ := finds_listed listed_sampleScript
  have hreturns : ∃ table, (scopesOf sampleScript.value).1 = .ok table := ⟨_, hfinds.scopes⟩
  exact ⟨hdistinct, hreturns, (classification sampleScript hdistinct (.inl hreturns)).2⟩

end Reference

end Arbor
