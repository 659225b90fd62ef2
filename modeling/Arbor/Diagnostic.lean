import Arbor.Location
import Arbor.Path

/-!
Diagnostics: what the library itself has to report, with a code, a message and, where they are
known, a location and a path. They are shown plain or in colour.
-/

namespace Arbor

namespace Ansi

inductive Style where
  | bold
  | red
  | blue
deriving DecidableEq, Repr

def Style.code : Style → List Char
  | .bold => "\x1b[1m".toList
  | .red => "\x1b[31m".toList
  | .blue => "\x1b[34m".toList

def reset : List Char := "\x1b[0m".toList

def paint (colored : Bool) (styles : List Style) (text : List Char) : List Char :=
  if colored && !styles.isEmpty then styles.flatMap Style.code ++ text ++ reset else text

end Ansi

inductive Code where
  | general
  | invalidRoot
  | protocolViolation
deriving DecidableEq, Repr

def Code.text : Code → String
  | .general => "W0000"
  | .invalidRoot => "W0001"
  | .protocolViolation => "W0002"

structure Diagnostic where
  code : Code
  message : String
  location : Option Location
  path : Option Path

namespace Diagnostic

def invalidRoot (root : Value) : Diagnostic where
  code := .invalidRoot
  message :=
    s!"traversal root must be an ESTree node with a string `type` field, got {root.typeName}"
  location := none
  path := none

def violation (message : String) (node : Value) (path : Path) : Diagnostic where
  code := .protocolViolation
  message := message
  location := Location.ofValue? node none
  path := some path

def lines (d : Diagnostic) (colored : Bool) (pathText : Option String) : List (List Char) :=
  let head :=
    Ansi.paint colored [.bold, .red] s!"error[{d.code.text}]".toList ++
      Ansi.paint colored [.bold] s!": {d.message}".toList
  let arrow (label text : String) :=
    Ansi.paint colored [.bold, .blue] label.toList ++ text.toList
  head :: ((d.location.map fun l => arrow " --> " l.text).toList ++
    (pathText.map fun p => arrow " at " p).toList)

def pathText (d : Diagnostic) : Except Path.Fault (Option String) :=
  match d.path with
  | none => .ok none
  | some p => p.render.map some

def render (d : Diagnostic) (colored : Bool) : Except Path.Fault String :=
  d.pathText.map fun pathText =>
    String.ofList (['\n'].intercalate (d.lines colored pathText))

/-- The text without colour; where the path cannot be shown, the reason for that. -/
def text (d : Diagnostic) : String :=
  match d.render false with
  | .ok text => text
  | .error fault => fault.text

end Diagnostic

structure Environment where
  noColor : Option String
  color : Option String

def Environment.offWords : List String := ["0", "false", "no", "never"]

/--
Colour is on unless it is forbidden by a non-empty setting or turned off by a word. No character
outside ASCII has a lower case form among the letters of these words.
-/
def Environment.wantsColor (env : Environment) : Bool :=
  (env.noColor.getD "").isEmpty && !offWords.contains ((env.color.getD "").toLower)

end Arbor
