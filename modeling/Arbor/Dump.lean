import Arbor.SExpr.Layout
import Arbor.Walk

/-!
Dumps: a tree as an S-expression. The expression is put together by a walk whose contexts are sets
of slots. A node that is entered gets slots of its own and hands them over as the context of its
children. When a node is left, its form is made from its fields and its slots, and goes into the
slots that it was given as its context.
-/

namespace Arbor

namespace Dump

structure Options where
  locations : Bool := false
  file : Option String := none

def hiddenFields : List String :=
  ["type", "loc", "range", "start", "end"]

mutual

/-- The form of a value that is not visited. Records that are no nodes are lists of keywords. -/
def scalarForm : Value → SExpr
  | .null => .symbol "nil"
  | .bool b => .symbol (if b then "true" else "false")
  | .int n => .int n
  | .float x => .float x
  | .str s => .str s
  | .list items | .tuple items => .brackets (scalarForms items)
  | .record id form fields =>
    if form.isMapping then .list (memberForms fields)
    else .str (Value.record id form fields).text
  | v => .str v.text

def scalarForms : List Value → List SExpr
  | [] => []
  | v :: rest => scalarForm v :: scalarForms rest

def memberForms : List (String × Value) → List SExpr
  | [] => []
  | (name, v) :: rest => .keyword name :: scalarForm v :: memberForms rest

end

abbrev Slots := List (Edge × SExpr)

def unvisited (kind : String) : SExpr :=
  .list [.symbol kind, .symbol "..."]

def placedForm (slots : Slots) (edge : Edge) (v : Value) : SExpr :=
  match v.kind? with
  | some kind => (slots.lookup edge).getD (unvisited kind)
  | none => scalarForm v

def fieldForm (slots : Slots) (key : String) (v : Value) : SExpr :=
  if !v.isNode && v.isSequence then
    .brackets (v.items.zipIdx.map fun (item, i) => placedForm slots ⟨key, some i⟩ item)
  else placedForm slots ⟨key, none⟩ v

def locationForm (options : Options) (v : Value) : List SExpr :=
  if options.locations then
    match Location.ofValue? v options.file with
    | some l => [.keyword "loc", .str l.text]
    | none => []
  else []

def nodeForm (options : Options) (n : Node) (slots : Slots) : SExpr :=
  let shown := n.value.fields.filter fun (key, _) => !hiddenFields.contains key
  .list (.symbol n.kind ::
    (shown.flatMap fun (key, v) => [.keyword key, fieldForm slots key v]) ++
    locationForm options n.value)

def rootEdge : Edge := ⟨"root", none⟩

/-- All slots that were made so far. A set of slots is named by its place. -/
abbrev Stores := Array Slots

abbrev SlotsId := Nat

variable {ε : Type}

def enter (_ : Site SlotsId) (stores : Stores) :
    Except ε (Override SlotsId × SlotsId) × Stores :=
  (.ok (.replace stores.size, stores.size), stores.push [])

def exit (options : Options) (site : Site SlotsId) (own : SlotsId) (stores : Stores) :
    Except ε Unit × Stores :=
  let edge := site.path.lastEdge?.getD rootEdge
  let form := nodeForm options site.node (stores[own]?.getD [])
  (.ok (), stores.modify site.context ((edge, form) :: ·))

def visitor (options : Options) : Visitor Stores (Visitor.Frame SlotsId SlotsId) SlotsId ε :=
  .twoPhase enter (exit options)

/-- The slots with which a dump starts; the form of the root goes there. -/
def rootSlots : SlotsId := 0

def rootForm (stores : Stores) : SExpr :=
  (stores[rootSlots]?.bind (·.lookup rootEdge)).getD (.list [])

end Dump

variable {ε : Type} [Described ε]

def dump (options : Dump.Options) (strategy : Strategy ε) (root : Value)
    (finite : strategy.FiniteFrom root) : Except (Fault ε) SExpr × Log :=
  match walk (Dump.visitor options) strategy root finite Dump.rootSlots { state := #[[]] } with
  | (.error fault, s) => (.error fault, s.log)
  | (.ok (), s) => (.ok (Dump.rootForm s.state), s.log)

/-- The text of a dump: laid out on a page, or as another printer writes it on a single line. -/
def Dump.text (compact : SExpr → String) (pretty : Bool) (e : SExpr) : String :=
  if pretty then e.pretty {} 0 else compact e

end Arbor
