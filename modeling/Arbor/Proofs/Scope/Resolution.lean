import Arbor.Proofs.Scope.Declaration
import Arbor.Scope.Reference

/-!
This module is about references. A reference is noted in the middle of a run, with the scope it
stands in, and resolved when the run is over; so it sees every declaration in the scopes around it,
also one that comes later. Main statement: which references are free, and what the others refer to
(`freeReferences_resolve`).
-/

namespace Arbor

open Walk

namespace Scope

def Binds (root : Node) (name : String) (id : ScopeId) : Prop :=
  ∃ key, (keys (Analysis.visited root))[id]? = some key
    ∧ ∃ x ∈ Analysis.visited root, ∃ identifier,
        (key, identifier) ∈ directed (Analysis.outline root).at? x
        ∧ identifier.field "name" = .str name

theorem mem_declaredIn {root : Node} {name : String} {key : Key}
    : name ∈ (declaredIn root key).map (·.1)
      ↔
      ∃ x ∈ Analysis.visited root, ∃ identifier,
        (key, identifier) ∈ directed (Analysis.outline root).at? x
        ∧ identifier.field "name" = .str name := by
  rw [declaredIn, mem_named]
  constructor
  · rintro ⟨identifier, hmem, hname⟩
    obtain ⟨x, hx, hmem⟩ := List.mem_flatMap.1 hmem
    exact ⟨x, hx, identifier, hmem, hname⟩
  · rintro ⟨x, hx, identifier, hmem, hname⟩
    exact ⟨identifier, List.mem_flatMap.2 ⟨x, hx, hmem⟩, hname⟩

instance (root : Node) (name : String) (id : ScopeId) : Decidable (Binds root name id) :=
  decidable_of_iff
    (((keys (Analysis.visited root))[id]?).any fun key =>
      decide (name ∈ (declaredIn root key).map (·.1))) <| by
    simp only [Option.any_eq_true, decide_eq_true_eq, mem_declaredIn, Binds]

theorem declares_iff_binds {root : Node} {t : ScopeTable}
    (h : Reflects (Analysis.outline root).at? root.value (Analysis.visited root) t) (name : String)
    (id : ScopeId) : t.declares name id = true ↔ Binds root name id := by
  cases hid : (keys (Analysis.visited root))[id]? with
  | none => simp [ScopeTable.declares, h.scope?_eq_none hid, Binds, hid]
  | some key =>
    rw [h.declares hid, ← mem_named, ← declaredIn, mem_declaredIn]
    simp [Binds, hid]

end Scope

namespace Analysis

open Scope

variable {α : Type} {hooks : Hooks α}

theorem notes_foldl_bind (outer inner : ScopeId) (entries : List (Target × Value)) (a : Analysis α)
    : (entries.foldl (bind outer inner) a).notes = a.notes := by
  induction entries generalizing a with
  | nil => rfl
  | cons entry rest ih =>
    rw [List.foldl_cons, ih]
    rfl

theorem notes_bindAll (n : Node) (outer inner : ScopeId) (a : Analysis α)
    : (bindAll n outer inner a).2.notes = a.notes := by
  unfold bindAll
  dsimp only
  split <;> exact notes_foldl_bind outer inner _ a

theorem notes_openAt (site : Site ScopeId) (a : Analysis α)
    : (openAt site a).2.notes = a.notes := by
  unfold openAt
  split <;> rfl

theorem notes_enter {site : Site ScopeId} {a a' : Analysis α} {override : Override ScopeId}
    {inner : ScopeId} (h : enter hooks site a = (.ok (override, inner), a'))
    : inner = override.apply site.context
      ∧ ∃ seen : Analysis α, seen.notes = a.notes ∧ seen.bound = a'.bound
        ∧ a'.notes = hooks.enter { site with context := inner } seen := by
  unfold enter at h
  have hopen := notes_openAt site a
  generalize openAt site a = out at h hopen
  obtain ⟨opened, a₁⟩ := out
  dsimp only at h hopen
  have hbind := notes_bindAll site.node site.context (opened.getD site.context) a₁
  generalize bindAll site.node site.context (opened.getD site.context) a₁ = out at h hbind
  obtain ⟨result, a₂⟩ := out
  cases result with
  | error e =>
    injection h with herror _
    contradiction
  | ok u =>
    simp only [Prod.mk.injEq, Except.ok.injEq] at h
    obtain ⟨⟨hoverride, hinner⟩, ha⟩ := h
    refine ⟨?_, a₂, hbind.trans hopen, by rw [← ha], ?_⟩
    · rw [← hoverride, ← hinner]
      cases opened <;> rfl
    · rw [← ha, hinner]

end Analysis

namespace Reference

open Scope

variable {place : Route → Option Occurrence} {root : Value}

structure StandsAt (place : Route → Option Occurrence) (ks : List Key) (x : Occurrence)
    (r : Reference) : Prop where
  kind : x.node.kind = "Identifier"
  node : r.node = x.node.value
  path : r.path = x.path
  name : x.node.value.field "name" = .str r.name
  scope : ks[r.scope]? = some (own place x.route)

theorem standsAt_ofSite? {α : Type} {ks : List Key} {x : Occurrence} {inner : ScopeId}
    {a : Analysis α} {r : Reference} (h : ofSite? ⟨x.node, inner, x.path⟩ a = some r)
    (hinner : ks[inner]? = some (own place x.route)) : StandsAt place ks x r := by
  unfold ofSite? at h
  split at h
  next hcondition =>
    split at h
    next name hname =>
      injection h with h
      subst h
      simp only [Bool.and_eq_true, decide_eq_true_eq] at hcondition
      exact ⟨hcondition.1.1, rfl, rfl, hname, hinner⟩
    next => contradiction
  next => contradiction

def Gathered (place : Route → Option Occurrence) (xs : List Occurrence)
    (a : Analysis (List Reference)) : Prop :=
  ∃ ys, ys.Sublist xs ∧ List.Forall₂ (StandsAt place (keys xs)) ys a.notes

theorem keeps_gathered : Keeps place root hooks (Gathered place) := by
  refine ⟨?_, fun h => h⟩
  rintro xs x outer inner override a a' ⟨ys, hsub, hnotes⟩ hreflects hplace hnew houter henter
  obtain ⟨_, hcontext⟩ := hreflects.enter hplace hnew houter henter
  obtain ⟨hinner, seen, hseen, _, hnotes'⟩ := Analysis.notes_enter henter
  rw [← hinner] at hcontext
  -- scopes that were there keep their places
  have hkept : List.Forall₂ (StandsAt place (keys (xs ++ [x]))) ys a.notes :=
    hnotes.imp fun _ _ h => ⟨h.kind, h.node, h.path, h.name, keys_append h.scope _⟩
  have happended : a'.notes = a.notes ++ (ofSite? ⟨x.node, inner, x.path⟩ seen).toList := by
    rw [hnotes', ← hseen]
    rfl
  rw [Gathered, happended]
  cases hsite : ofSite? ⟨x.node, inner, x.path⟩ seen with
  | none =>
    rw [Option.toList_none, List.append_nil]
    exact ⟨ys, hsub.trans (List.sublist_append_left xs [x]), hkept⟩
  | some r =>
    rw [Option.toList_some]
    refine ⟨ys ++ [x], hsub.append (List.Sublist.refl [x]), ?_⟩
    exact List.rel_append hkept (.cons (standsAt_ofSite? hsite hcontext) .nil)

def collection (root : Node) :
    Except (Fault Value.NotIterable) Unit × Session (Analysis (List Reference)) :=
  Analysis.run hooks (.fresh hooks) root.value

def collected (root : Node) : List Reference :=
  (collection root).2.state.notes

def scopes (root : Node) : ScopeTable :=
  (collection root).2.state.table

theorem freeReferences_collection {root : Node} {free : List Reference}
    : (∃ log, freeReferences root.value = (.ok free, log))
      ↔
      (collection root).1 = .ok () ∧ unresolved (scopes root) (collected root) = free := by
  unfold freeReferences scopes collected collection
  generalize Analysis.run hooks (.fresh hooks) root.value = out
  obtain ⟨result, s⟩ := out
  cases result with
  | error fault => simp
  | ok u => simp

/-- How some references of a tree are resolved in a table, where some of them are free. -/
structure Resolution (root : Node) (table : ScopeTable) (references free : List Reference) :
    Prop where
  stands : ∃ xs, xs.Sublist (Analysis.visited root)
    ∧ List.Forall₂ (StandsAt (Analysis.outline root).at? (keys (Analysis.visited root))) xs
      references
  scope : ∀ id, (table.scope? id).map (fun s => (s.kind, s.node)) =
    (keys (Analysis.visited root))[id]?.map fun key =>
      ((key.bind (kindAt (Analysis.outline root).at?)).getD .module,
        ((key.bind (Analysis.outline root).at?).map (·.node.value)).getD root.value)
  chain : ∀ id < table.size, table.chain id = id :: ((table.parent? id).map table.chain).getD []
  free_eq : free = references.filter fun r : Reference =>
    ∀ id ∈ table.chain r.scope, ¬ Binds root r.name id
  bound : ∀ r ∈ references, r ∉ free → ∃ inside id outside,
    table.chain r.scope = inside ++ id :: outside
    ∧ (∀ other ∈ inside, ¬ Binds root r.name other)
    ∧ Binds root r.name id
    ∧ r.resolve table = some id

theorem resolve_eq_find? {root : Node} {table : ScopeTable}
    (h : Reflects (Analysis.outline root).at? root.value (Analysis.visited root) table)
    (r : Reference)
    : r.resolve table = (table.chain r.scope).find? fun id => Binds root r.name id := by
  rw [resolve, ScopeTable.resolve_eq]
  congr 1
  funext id
  rw [Bool.eq_iff_iff, declares_iff_binds h, decide_eq_true_eq]

/--
References are resolved with all declarations of the run in view. A reference is free if no
occurrence, be it visited before it or after it, binds its name in a scope of the chain in which it
stands; else it refers to the innermost scope of that chain in which one does.
-/
theorem freeReferences_resolve (root : Node) (free : List Reference) (log : Log)
    (h : freeReferences root.value = (.ok free, log))
    : occurrencesIn .enter (events (Analysis.visitor hooks) .all root
          (Strategy.all_finiteFrom root.value) Analysis.moduleScope
          { state := (Analysis.fresh hooks).restart hooks root.value }) =
        Analysis.visited root
      ∧ Resolution root (scopes root) (collected root) free := by
  obtain ⟨hok, hfree⟩ := freeReferences_collection.1 ⟨log, h⟩
  have hinitial : Gathered (Analysis.outline root).at? []
      ((Analysis.fresh hooks).restart hooks root.value) :=
    ⟨[], List.Sublist.refl [], .nil⟩
  obtain ⟨hreflects, hgathered⟩ := Analysis.run_keeps keeps_gathered hinitial hok
  have hresolve := resolve_eq_find? hreflects
  refine ⟨?_, hgathered, ?_, fun id _ => ScopeTable.chain_eq _ id, ?_, ?_⟩
  · rw [collection, Analysis.run, walk_eq_visit] at hok
    exact (orderly_history hok).enters
  · intro id
    cases hid : (keys (Analysis.visited root))[id]? with
    | none =>
      rw [scopes, collection, hreflects.scope?_eq_none hid]
      rfl
    | some key =>
      obtain ⟨scope, hscope, hholds⟩ := hreflects.scope hid
      rw [scopes, collection, hscope, Option.map_some, hholds.kind, hholds.node]
      rfl
  · rw [← hfree, unresolved]
    apply List.filter_congr
    intro r _
    rw [scopes, collection, hresolve r, Bool.eq_iff_iff, Option.isNone_iff_eq_none,
      List.find?_eq_none]
    simp only [decide_eq_true_eq]
  · intro r hr hbound
    cases hfind : r.resolve (scopes root) with
    | none =>
      refine absurd ?_ hbound
      rw [← hfree, unresolved, List.mem_filter, hfind]
      exact ⟨hr, rfl⟩
    | some id =>
      rw [scopes, collection, hresolve r, List.find?_eq_some_iff_append] at hfind
      obtain ⟨hbinds, inside, outside, hchain, hinside⟩ := hfind
      refine ⟨inside, id, outside, hchain, ?_, of_decide_eq_true hbinds, rfl⟩
      intro other hother
      simpa using hinside other hother

def sampleUse (id : Nat) (name : String) : Node :=
  ⟨.record id .map [("type", .str "Identifier"), ("name", .str name)], "Identifier", rfl⟩

/-- The block `{ a; b; var a, a }`. -/
def sampleScript : Node :=
  ⟨.record 0 .map [("type", .str "BlockStatement"),
    ("body", .list [(sampleUse 8 "a").value, (sampleUse 9 "b").value, sampleVar.value])],
    "BlockStatement", rfl⟩

def sampleScriptOutline : Outline Value.NotIterable :=
  .mk sampleScript
    [(⟨"body", some 0⟩, .mk (sampleUse 8 "a") [] none),
      (⟨"body", some 1⟩, .mk (sampleUse 9 "b") [] none),
      (⟨"body", some 2⟩, .mk sampleVar
        [(⟨"declarations", some 0⟩, .mk (sampleDeclarator 2)
            [(⟨"id", none⟩, .mk (sampleName 3) [] none)] none),
          (⟨"declarations", some 1⟩, .mk (sampleDeclarator 4)
            [(⟨"id", none⟩, .mk (sampleName 5) [] none)] none)] none)]
    none

theorem outline_sampleScript : Analysis.outline sampleScript = sampleScriptOutline := by
  cbv

theorem freeReferences_resolve_sample
    : ∃ free log, freeReferences sampleScript.value = (.ok free, log)
      ∧ Resolution sampleScript (scopes sampleScript) (collected sampleScript) free
      ∧ (collected sampleScript).map (fun r => (r.name, r.resolve (scopes sampleScript))) =
        [("a", some 0), ("b", none)] := by
  have hok : (collection sampleScript).1 = .ok () := by
    apply Analysis.run_eq_ok
    rw [Analysis.run_eq_visit, outline_sampleScript]
    decide +kernel
  obtain ⟨log, hlog⟩ := freeReferences_collection.2 ⟨hok, rfl⟩
  refine ⟨_, log, hlog, (freeReferences_resolve sampleScript _ log hlog).2, ?_⟩
  rw [collected, scopes, collection, Analysis.run_eq_visit, outline_sampleScript]
  decide +kernel

end Reference

end Arbor
