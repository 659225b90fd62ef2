import Arbor.Proofs.Scope.Resolution
import Arbor.Proofs.Walk.Transport

/-!
This module says what an analysis knows besides its scopes: which identifiers are bound, and which
references were noted. Both come from the occurrences that were entered, whether the run ended well
or not. An occurrence is a reference if it is an identifier in use that no occurrence entered so far
has bound (`referring`).
-/

namespace Arbor

open Walk

namespace Analysis

variable {α : Type} {hooks : Hooks α}

def boundBy (n : Node) : List Nat :=
  ((Scope.bindings n).entries.filterMap (·.2.id?)).reverse

theorem mem_boundBy {n : Node} {id : Nat}
    : id ∈ boundBy n ↔ ∃ b ∈ (Scope.bindings n).entries, b.2.id? = some id := by
  rw [boundBy, List.mem_reverse, List.mem_filterMap]

def boundAfter (bound : List Nat) (xs : List Occurrence) : List Nat :=
  xs.foldl (fun bound x => boundBy x.node ++ bound) bound

theorem mem_boundAfter {bound : List Nat} {xs : List Occurrence} {id : Nat}
    : id ∈ boundAfter bound xs ↔ id ∈ bound ∨ ∃ x ∈ xs, id ∈ boundBy x.node := by
  induction xs generalizing bound with
  | nil => simp [boundAfter]
  | cons x rest ih =>
    have hcons : boundAfter bound (x :: rest) = boundAfter (boundBy x.node ++ bound) rest := rfl
    rw [hcons, ih]
    simp only [List.mem_append, List.mem_cons, exists_eq_or_imp]
    constructor
    · rintro ((h | h) | h)
      · exact .inr (.inl h)
      · exact .inl h
      · exact .inr (.inr h)
    · rintro (h | h | h)
      · exact .inl (.inr h)
      · exact .inl (.inl h)
      · exact .inr h

theorem boundAfter_concat (bound : List Nat) (xs : List Occurrence) (x : Occurrence)
    : boundAfter bound (xs ++ [x]) = boundBy x.node ++ boundAfter bound xs := by
  rw [boundAfter, List.foldl_append]
  rfl

theorem bound_foldl_bind (outer inner : ScopeId) (entries : List (Scope.Target × Value))
    (a : Analysis α)
    : (entries.foldl (bind outer inner) a).bound =
        (entries.filterMap (·.2.id?)).reverse ++ a.bound := by
  induction entries generalizing a with
  | nil => rfl
  | cons entry rest ih =>
    rw [List.foldl_cons, ih, List.filterMap_cons, bind]
    cases entry.2.id? <;> simp

theorem bound_openAt (site : Site ScopeId) (a : Analysis α)
    : (openAt site a).2.bound = a.bound := by
  unfold openAt
  split <;> rfl

theorem bound_bindAll (n : Node) (outer inner : ScopeId) (a : Analysis α)
    : (bindAll n outer inner a).2.bound = boundBy n ++ a.bound := by
  unfold bindAll
  dsimp only
  split <;> exact bound_foldl_bind outer inner _ a

theorem bound_enter (site : Site ScopeId) (a : Analysis α)
    : (enter hooks site a).2.bound = boundBy site.node ++ a.bound := by
  unfold enter
  have hopen := bound_openAt site a
  generalize openAt site a = out at hopen ⊢
  obtain ⟨opened, a₁⟩ := out
  have hbind := bound_bindAll site.node site.context (opened.getD site.context) a₁
  dsimp only at hopen ⊢
  rw [hopen] at hbind
  rw [← hbind]
  generalize bindAll site.node site.context (opened.getD site.context) a₁ = out
  obtain ⟨result, a₂⟩ := out
  cases result <;> rfl

theorem keeps_bound {place : Route → Option Occurrence} {root : Value}
    : Scope.Keeps place root hooks fun xs a => a.bound = boundAfter [] xs := by
  refine ⟨?_, fun h => h⟩
  intro xs x outer inner override a a' hbound _ _ _ _ henter
  have hentered : (enter hooks ⟨x.node, outer, x.path⟩ a).2 = a' := by rw [henter]
  rw [← hentered, bound_enter, hbound, boundAfter_concat]

theorem bound_enterAll (events : List (Event ScopeId Value.NotIterable)) (a : Analysis α)
    : (enterAll (enter hooks) events a).bound =
        boundAfter a.bound (occurrencesIn .enter events) := by
  rw [enterAll, occurrencesIn, ← enters]
  generalize enters events = entered
  induction entered generalizing a with
  | nil => rfl
  | cons e rest ih =>
    rw [List.foldl_cons, ih, bound_enter]
    rfl

end Analysis

namespace Reference

open Analysis

theorem ofSite?_kind {α : Type} {site : Site ScopeId} (h : site.node.kind ≠ "Identifier")
    (a : Analysis α) : ofSite? site a = none := by
  rw [ofSite?]
  simp [h]

theorem opens_identifier (parent : Option Value) : Scope.opens "Identifier" parent = none := by
  simp [Scope.opens, Scope.functionKinds, Scope.blockKinds]

theorem bindings_identifier {n : Node} (h : n.kind = "Identifier")
    : Scope.bindings n = Scope.Bindings.none := by
  rw [Scope.bindings, h]
  rfl

theorem enter_identifier {site : Site ScopeId} (h : site.node.kind = "Identifier")
    (a : Analysis (List Reference))
    : (enter hooks site a).2 = { a with notes := a.notes ++ (ofSite? site a).toList } := by
  have hopen : openAt site a = (none, a) := by
    rw [openAt, h, opens_identifier]
  have hbind : bindAll site.node site.context site.context a = (.ok (), a) := by
    rw [bindAll, bindings_identifier h]
    rfl
  rw [enter, hopen]
  dsimp only [Option.getD_none]
  rw [hbind]
  rfl

theorem notes_enter_other {site : Site ScopeId} (h : site.node.kind ≠ "Identifier")
    (a : Analysis (List Reference)) : (enter hooks site a).2.notes = a.notes := by
  rw [enter]
  have hopen := notes_openAt site a
  generalize openAt site a = out at hopen ⊢
  obtain ⟨opened, a₁⟩ := out
  have hbind := notes_bindAll site.node site.context (opened.getD site.context) a₁
  dsimp only at hopen ⊢
  rw [hopen] at hbind
  rw [← hbind]
  generalize bindAll site.node site.context (opened.getD site.context) a₁ = out
  obtain ⟨result, a₂⟩ := out
  cases result with
  | error e => rfl
  | ok u =>
    have hother :
        (Site.mk site.node (opened.getD site.context) site.path).node.kind ≠ "Identifier" := h
    dsimp only [hooks]
    rw [ofSite?_kind hother, Option.toList_none, List.append_nil]

theorem notes_enter (site : Site ScopeId) (a : Analysis (List Reference))
    : (enter hooks site a).2.notes =
        a.notes ++ (ofSite? site (enter hooks site a).2).toList := by
  by_cases hkind : site.node.kind = "Identifier"
  · rw [enter_identifier hkind]
    rfl
  · rw [notes_enter_other hkind, ofSite?_kind hkind, Option.toList_none, List.append_nil]

def isUse (bound : List Nat) (x : Occurrence) : Bool :=
  x.node.kind = "Identifier" && !(x.node.value.id?.map bound.contains).getD false
    && !isNamePosition x.path
    && (match x.node.value.field "name" with | .str _ => true | _ => false)

/-- The occurrences that are uses when they are entered, where some identifiers are bound before. -/
def referring (bound : List Nat) : List Occurrence → List Occurrence
  | [] => []
  | x :: rest =>
    (if isUse (boundBy x.node ++ bound) x then [x] else []) ++
      referring (boundBy x.node ++ bound) rest

def ofOccurrence (scope : Route → ScopeId) (x : Occurrence) : Reference where
  name := match x.node.value.field "name" with | .str name => name | _ => ""
  node := x.node.value
  scope := scope x.route
  path := x.path

theorem ofSite?_eq {α : Type} {scope : Route → ScopeId} {x : Occurrence} {site : Site ScopeId}
    (hsite : site = ⟨x.node, scope x.route, x.path⟩) (a : Analysis α)
    : (ofSite? site a).toList =
        (if isUse a.bound x then [x] else []).map (ofOccurrence scope) := by
  subst hsite
  unfold ofSite? isUse ofOccurrence isBound
  dsimp only
  generalize (decide (x.node.kind = "Identifier") &&
    !(x.node.value.id?.map a.bound.contains).getD false && !isNamePosition x.path) = isOpen
  cases isOpen with
  | false => rfl
  | true =>
    cases hname : x.node.value.field "name" with
    | str name => simp [hname]
    | _ => rfl

theorem referring_append (bound : List Nat) (xs ys : List Occurrence)
    : referring bound (xs ++ ys) = referring bound xs ++ referring (boundAfter bound xs) ys := by
  induction xs generalizing bound with
  | nil => rfl
  | cons x rest ih =>
    rw [List.cons_append, referring, ih, referring, List.append_assoc]
    rfl

theorem mem_referring {bound : List Nat} {xs : List Occurrence} {x : Occurrence}
    : x ∈ referring bound xs ↔
        ∃ before after, xs = before ++ x :: after
          ∧ isUse (boundBy x.node ++ boundAfter bound before) x = true := by
  induction xs generalizing bound with
  | nil => simp [referring]
  | cons y rest ih =>
    have hfirst : x ∈ (if isUse (boundBy y.node ++ bound) y then [y] else []) ↔
        x = y ∧ isUse (boundBy y.node ++ bound) y = true := by
      split <;> simp_all
    rw [referring, List.mem_append, hfirst, ih]
    constructor
    · rintro (⟨rfl, huse⟩ | ⟨before, after, rfl, huse⟩)
      · exact ⟨[], rest, rfl, huse⟩
      · exact ⟨y :: before, after, rfl, huse⟩
    · rintro ⟨before, after, heq, huse⟩
      cases before with
      | nil =>
        injection heq with hy _
        subst hy
        exact .inl ⟨rfl, huse⟩
      | cons z before =>
        injection heq with hy hrest
        subst hy
        exact .inr ⟨before, after, hrest, huse⟩

theorem isUse_congr {bound bound' : List Nat} {x : Occurrence}
    (h : ∀ id, x.node.value.id? = some id → (id ∈ bound ↔ id ∈ bound'))
    : isUse bound x = isUse bound' x := by
  have hbound : (x.node.value.id?.map bound.contains).getD false =
      (x.node.value.id?.map bound'.contains).getD false := by
    cases hid : x.node.value.id? with
    | none => rfl
    | some id =>
      rw [Bool.eq_iff_iff]
      simp [h id hid]
  rw [isUse, isUse, hbound]

def Noted (place : Route → Option Occurrence) (xs : List Occurrence)
    (a : Analysis (List Reference)) : Prop :=
  a.bound = boundAfter [] xs
    ∧ List.Forall₂ (StandsAt place (Scope.keys xs)) (referring [] xs) a.notes

theorem keeps_noted {place : Route → Option Occurrence} {root : Value}
    : Scope.Keeps place root hooks (Noted place) := by
  refine ⟨?_, fun h => h⟩
  rintro xs x outer inner override a a' ⟨hbound, hnotes⟩ _ hplace _ houter henter
  have hentered : (enter hooks ⟨x.node, outer, x.path⟩ a).2 = a' := by rw [henter]
  have hbound' : a'.bound = boundBy x.node ++ a.bound := by
    rw [← hentered]
    exact bound_enter ⟨x.node, outer, x.path⟩ a
  have hnotes' := notes_enter ⟨x.node, outer, x.path⟩ a
  rw [hentered] at hnotes'
  -- scopes that were there keep their places
  have hkept : List.Forall₂ (StandsAt place (Scope.keys (xs ++ [x]))) (referring [] xs) a.notes :=
    hnotes.imp fun _ _ h => ⟨h.kind, h.node, h.path, h.name, Scope.keys_append h.scope _⟩
  have huse := @ofSite?_eq _ (fun _ => outer) x _ rfl a'
  rw [hbound', hbound] at huse
  refine ⟨by rw [hbound', boundAfter_concat, hbound], ?_⟩
  rw [referring_append, hnotes', huse]
  apply List.rel_append hkept
  rw [referring, referring, List.append_nil]
  cases hcase : isUse (boundBy x.node ++ boundAfter [] xs) x with
  | false => exact .nil
  | true =>
    rw [hcase] at huse
    have hsite := Option.toList_eq_singleton_iff.1 huse
    have hkind : x.node.kind = "Identifier" := by
      by_contra hkind
      rw [ofSite?_kind hkind] at hsite
      contradiction
    -- an identifier stands in the scope that encloses it
    have hown : Scope.own place x.route = Scope.enclosing place x.route := by
      rw [Scope.own, Scope.kindAt, hplace, Option.bind_some, Occurrence.opens, hkind,
        opens_identifier]
      rfl
    refine .cons (standsAt_ofSite? hsite ?_) .nil
    rw [hown]
    exact Scope.keys_append houter _

theorem notes_enterAll {scope : Route → ScopeId}
    (events : List (Event ScopeId Value.NotIterable)) (a : Analysis (List Reference))
    (hscope : ∀ e ∈ events, e.site.context = scope e.route)
    : (enterAll (enter hooks) events a).notes =
        a.notes ++ (referring a.bound (occurrencesIn .enter events)).map (ofOccurrence scope) := by
  rw [enterAll, occurrencesIn, ← enters]
  have hentered : ∀ e ∈ enters events, e.site.context = scope e.route :=
    fun e he => hscope e (List.mem_filter.1 he).1
  generalize enters events = entered at hentered
  induction entered generalizing a with
  | nil => simp [referring]
  | cons e rest ih =>
    have hsite : e.site = ⟨e.occurrence.node, scope e.occurrence.route, e.occurrence.path⟩ := by
      rw [Event.occurrence, ← hentered e (List.mem_cons_self ..)]
    have hbound : (enter hooks e.site a).2.bound = boundBy e.occurrence.node ++ a.bound :=
      bound_enter e.site a
    rw [List.foldl_cons, ih _ (fun e he => hentered e (List.mem_cons_of_mem _ he)), notes_enter,
      ofSite?_eq hsite, hbound, List.map_cons, referring, List.map_append, List.append_assoc]

end Reference

end Arbor
