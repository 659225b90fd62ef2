import Arbor.Scope.Analysis

/-!
References: the identifiers that are used and not bound. They are collected during the scope
analysis and resolved after it, so that a declaration that comes later is seen.
-/

namespace Arbor

structure Reference where
  name : String
  node : Value
  scope : ScopeId
  path : Path

namespace Reference

def resolve (table : ScopeTable) (r : Reference) : Option ScopeId :=
  table.resolve r.scope r.name

/-- Kind of parent and field under which an identifier is a mere name. -/
def namePositions : List (String × String) :=
  [("MemberExpression", "property"), ("Property", "key"), ("MethodDefinition", "key"),
    ("PropertyDefinition", "key"), ("LabeledStatement", "label"), ("BreakStatement", "label"),
    ("ContinueStatement", "label"), ("ImportSpecifier", "imported"),
    ("ExportSpecifier", "exported"), ("ExportAllDeclaration", "exported"),
    ("MetaProperty", "meta"), ("MetaProperty", "property")]

def isNamePosition (path : Path) : Bool :=
  match path.getLast? with
  | some step =>
    ((step.node.kind?.map fun kind => namePositions.contains (kind, step.key)).getD false) &&
      !(step.node.field "computed").isTruthy
  | none => false

def ofSite? {α : Type} (site : Site ScopeId) (a : Analysis α) : Option Reference :=
  if site.node.kind = "Identifier" && !a.isBound site.node.value && !isNamePosition site.path then
    match site.node.value.field "name" with
    | .str name => some ⟨name, site.node.value, site.context, site.path⟩
    | _ => none
  else none

def hooks : Analysis.Hooks (List Reference) where
  initial := []
  enter site a := a.notes ++ (ofSite? site a).toList
  exit _ a := a.notes

def unresolved (table : ScopeTable) (references : List Reference) : List Reference :=
  references.filter fun r => (r.resolve table).isNone

end Reference

def freeReferences (root : Value) :
    Except (Fault Value.NotIterable) (List Reference) × Log :=
  match Analysis.run Reference.hooks (.fresh Reference.hooks) root with
  | (.error fault, s) => (.error fault, s.log)
  | (.ok (), s) =>
    let all := s.state.notes
    let free := Reference.unresolved s.state.table all
    (.ok free, s.log.push (.referencesResolved (all.length - free.length) all.length))

end Arbor
