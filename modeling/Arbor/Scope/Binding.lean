import Arbor.Scope.Pattern
import Arbor.Scope.Table
import Arbor.Value.Text

/-!
What a node does to the scopes around it: whether it opens a scope, and which identifiers it binds
in which scope.
-/

namespace Arbor.Scope

def functionKinds : List String :=
  ["FunctionDeclaration", "FunctionExpression", "ArrowFunctionExpression"]

def blockKinds : List String :=
  ["BlockStatement", "ForStatement", "ForInStatement", "ForOfStatement", "SwitchStatement",
    "CatchClause", "StaticBlock"]

def importKinds : List String :=
  ["ImportSpecifier", "ImportDefaultSpecifier", "ImportNamespaceSpecifier"]

def isFunction (v : Value) : Bool :=
  (v.kind?.map functionKinds.contains).getD false

/-- The scope that a node of a kind opens under a parent. The body of a function opens none. -/
def opens (kind : String) (parent : Option Value) : Option Kind :=
  if functionKinds.contains kind then some .function
  else if blockKinds.contains kind then
    if kind = "BlockStatement" && (parent.map isFunction).getD false then none else some .block
  else none

inductive KindFault where
  | noKind (fault : Value.FieldFault)
  | noKey (part : Value)

def KindFault.name : KindFault → String
  | .noKind fault => fault.name
  | .noKey _ => "TypeError"

def KindFault.text : KindFault → String
  | .noKind fault => fault.text
  | .noKey part => s!"unhashable type: '{part.fullTypeName}'"

def opensValue (v : Value) (parent : Option Value) : Except KindFault (Option Kind) :=
  match v.kindValue with
  | .error fault => .error (.noKind fault)
  | .ok (.str kind) => .ok (opens kind parent)
  | .ok kind =>
    match kind.changeablePart? with
    | some part => .error (.noKey part)
    | none => .ok none

inductive Target where
  | outer
  /-- The scope that the node opens, else the one that encloses it. -/
  | inner
  | hoisted
  | module
  /-- No scope: the identifier is bound, but nobody can refer to it. -/
  | nowhere
deriving DecidableEq, Repr

structure Bindings where
  entries : List (Target × Value)
  failure : Option Value.NotIterable

namespace Bindings

def none : Bindings := ⟨[], .none⟩

def append (a b : Bindings) : Bindings :=
  match a.failure with
  | some e => ⟨a.entries, some e⟩
  | .none => ⟨a.entries ++ b.entries, b.failure⟩

def ofName (target : Target) (name : Value) : Bindings :=
  if name.isNode then ⟨[(target, name)], .none⟩ else none

def ofPattern (target : Target) (pattern : Value) : Bindings :=
  match Pattern.identifiers pattern with
  | .ok ids => ⟨ids.map fun id => (target, id), .none⟩
  | .error e => ⟨[], some e⟩

def ofPatterns (target : Target) (pick : Value → Value) (list : Value) : Bindings :=
  match list.elementsOrNone with
  | .ok items => (items.map fun item => ofPattern target (pick item)).foldr append none
  | .error e => ⟨[], some e⟩

end Bindings

def bindings (n : Node) : Bindings :=
  if functionKinds.contains n.kind then
    let own := if n.kind = "FunctionDeclaration" then Target.outer else Target.inner
    (Bindings.ofName own (n.value.field "id")).append
      (Bindings.ofPatterns .inner id (n.value.field "params"))
  else if n.kind = "VariableDeclaration" then
    let target := match n.value.field "kind" with
      | .str "var" => Target.hoisted
      | _ => Target.outer
    Bindings.ofPatterns target (·.field "id") (n.value.field "declarations")
  else if n.kind = "ClassDeclaration" then Bindings.ofName .outer (n.value.field "id")
  else if n.kind = "ClassExpression" then Bindings.ofName .nowhere (n.value.field "id")
  else if n.kind = "CatchClause" then Bindings.ofPattern .inner (n.value.field "param")
  else if importKinds.contains n.kind then Bindings.ofName .module (n.value.field "local")
  else Bindings.none

end Arbor.Scope
