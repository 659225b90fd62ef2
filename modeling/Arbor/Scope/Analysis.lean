import Arbor.Scope.Binding
import Arbor.Walk

/-!
Scope analysis: a visitor whose contexts are scopes. A node that opens a scope hands it over as
the context of its children, so every node is visited in the scope it stands in. What else is to
be noted at a node is left to hooks.
-/

namespace Arbor

instance : Described Value.NotIterable where
  name _ := "TypeError"
  text := Value.NotIterable.text

structure Analysis (α : Type) where
  table : ScopeTable
  /-- The identities of the identifiers that are bound. -/
  bound : List Nat
  notes : α

namespace Analysis

variable {α : Type}

/--
What is noted at the start and at each node. The context of a site is the scope that the node
stands in, or the one that it opens.
-/
structure Hooks (α : Type) where
  initial : α
  enter : Site ScopeId → Analysis α → α
  exit : Site ScopeId → Analysis α → α

def Hooks.silent : Hooks Unit where
  initial := ()
  enter _ _ := ()
  exit _ _ := ()

def fresh (hooks : Hooks α) : Analysis α :=
  ⟨.empty, [], hooks.initial⟩

def reset (hooks : Hooks α) (a : Analysis α) : Analysis α :=
  { a with bound := [], notes := hooks.initial }

def isBound (a : Analysis α) (v : Value) : Bool :=
  (v.id?.map a.bound.contains).getD false

def targetScope (a : Analysis α) (outer inner : ScopeId) : Scope.Target → Option ScopeId
  | .outer => some outer
  | .inner => some inner
  | .hoisted => some (a.table.hoistScope outer)
  | .module => some (a.table.outermost outer)
  | .nowhere => none

def declareIn (table : ScopeTable) (scope : Option ScopeId) (identifier : Value) : ScopeTable :=
  match scope, identifier.field "name" with
  | some id, .str name => table.declare id name identifier
  | _, _ => table

def bind (outer inner : ScopeId) (a : Analysis α) (entry : Scope.Target × Value) : Analysis α :=
  match entry with
  | (target, identifier) =>
    { a with
      bound := identifier.id?.toList ++ a.bound
      table := declareIn a.table (a.targetScope outer inner target) identifier }

def bindAll (n : Node) (outer inner : ScopeId) (a : Analysis α) :
    Except Value.NotIterable Unit × Analysis α :=
  let found := Scope.bindings n
  let a := found.entries.foldl (bind outer inner) a
  match found.failure with
  | some e => (.error e, a)
  | none => (.ok (), a)

def openAt (site : Site ScopeId) (a : Analysis α) : Option ScopeId × Analysis α :=
  match Scope.opens site.node.kind site.path.parent? with
  | some kind =>
    match a.table.openScope kind site.node.value (some site.context) with
    | (table, id) => (some id, { a with table := table })
  | none => (none, a)

def enter (hooks : Hooks α) (site : Site ScopeId) (a : Analysis α) :
    Except Value.NotIterable (Override ScopeId × ScopeId) × Analysis α :=
  match openAt site a with
  | (opened, a) =>
    let inner := opened.getD site.context
    match bindAll site.node site.context inner a with
    | (.error e, a) => (.error e, a)
    | (.ok (), a) =>
      let a := { a with notes := hooks.enter { site with context := inner } a }
      (.ok ((opened.map Override.replace).getD .keep, inner), a)

def exit (hooks : Hooks α) (site : Site ScopeId) (inner : ScopeId) (a : Analysis α) :
    Except Value.NotIterable Unit × Analysis α :=
  (.ok (), { a with notes := hooks.exit { site with context := inner } a })

def visitor (hooks : Hooks α) :
    Visitor (Analysis α) (Visitor.Frame ScopeId ScopeId) ScopeId Value.NotIterable :=
  .twoPhase (enter hooks) (exit hooks)

/-- The scope of the whole tree is the first one of every run. -/
def moduleScope : ScopeId := 0

def restart (hooks : Hooks α) (a : Analysis α) (root : Value) : Analysis α :=
  { a.reset hooks with table := (ScopeTable.empty.openScope .module root none).1 }

def run (hooks : Hooks α) (a : Analysis α) (root : Value) :
    Except (Fault Value.NotIterable) Unit × Session (Analysis α) :=
  walk (visitor hooks) .all root (Strategy.all_finiteFrom root) moduleScope
    { state := a.restart hooks root }

end Analysis

def scopesOf (root : Value) : Except (Fault Value.NotIterable) ScopeTable × Log :=
  match Analysis.run .silent (.fresh .silent) root with
  | (.error fault, s) => (.error fault, s.log)
  | (.ok (), s) =>
    let table := s.state.table
    (.ok table, s.log.push (.scopesCollected (table.preorder Analysis.moduleScope).length))

end Arbor
