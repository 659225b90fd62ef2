import Arbor.Text.Digit
import Arbor.Text.Literal

/-!
The arguments of the command. There is one file and a handful of switches, which may stand before
or behind it. A long switch may be cut short as long as it stays unique, short switches may share
one dash, and behind a lone `--` everything is taken as it stands.
-/

namespace Arbor.Command

inductive Switch where
  | help
  | dump
  | locations
  | compact
  | scopes
  | verbose
deriving DecidableEq, Repr

def spellings : List (String × Switch) :=
  [("-h", .help), ("--help", .help), ("--dump", .dump), ("--locations", .locations),
    ("--compact", .compact), ("--scopes", .scopes), ("-v", .verbose), ("--verbose", .verbose)]

def Switch.title (s : Switch) : String :=
  String.intercalate "/" ((spellings.filter fun (_, t) => t == s).map (·.1))

def Switch.purpose : Switch → String
  | .help => "show this text"
  | .dump => "print the tree as an S-expression"
  | .locations => "show source locations in the dump"
  | .compact => "print the dump on a single line"
  | .scopes => "print lexical scopes and unresolved references"
  | .verbose => "write a debug log"

def helpText : String :=
  "report on a tree that is given as a JSON file\n" ++
    String.join (spellings.map fun (spelling, switch) => s!"  {spelling}: {switch.purpose}\n")

inductive UsageError where
  | ambiguous (argument : String) (candidates : List String)
  | unexpectedValue (switch : Switch) (value : String)
  | missingFile
  | unrecognized (arguments : List String)
deriving DecidableEq, Repr

def UsageError.text : UsageError → String
  | .ambiguous argument candidates =>
    s!"ambiguous option: {argument} could match " ++ String.intercalate ", " candidates
  | .unexpectedValue switch value =>
    s!"argument {switch.title}: ignored explicit argument {Text.literal value}"
  | .missingFile => "the following arguments are required: file"
  | .unrecognized arguments => "unrecognized arguments: " ++ String.intercalate " " arguments

inductive Argument where
  | positional (text : String)
  | separator
  | switch (spelling : String) (switch : Switch) (value : Option String)
  | unknown (text : String)

def splitValue (text : List Char) : List Char × Option (List Char) :=
  match text.span (· ≠ '=') with
  | (name, _ :: value) => (name, some value)
  | (name, []) => (name, none)

/-- Whether a text is a negative number; a line break at its end is not looked at. -/
def isNegativeNumber (text : List Char) : Bool :=
  match text with
  | '-' :: rest =>
    let rest := if rest.getLast? = some '\n' then rest.dropLast else rest
    match rest.span Text.isDecimalDigit with
    | (whole, []) => !whole.isEmpty
    | (_, '.' :: fraction) => !fraction.isEmpty && fraction.all Text.isDecimalDigit
    | _ => false
  | _ => false

def candidates (text : List Char) : List (String × Switch × Option String) :=
  match text with
  | '-' :: '-' :: _ =>
    let (name, value) := splitValue text
    spellings.filterMap fun (spelling, switch) =>
      if name.isPrefixOf spelling.toList then some (spelling, switch, value.map String.ofList)
      else none
  | '-' :: letter :: value =>
    spellings.filterMap fun (spelling, switch) =>
      if spelling.toList = ['-', letter] then some (spelling, switch, some (String.ofList value))
      else if text.isPrefixOf spelling.toList then some (spelling, switch, none)
      else none
  | _ => []

def classify (argument : String) : Except UsageError Argument :=
  let text := argument.toList
  let (name, value) := splitValue text
  match text with
  | '-' :: _ :: _ =>
    match spellings.lookup argument, spellings.lookup (String.ofList name) with
    | some switch, _ => .ok (.switch argument switch none)
    | none, some switch =>
      .ok (.switch (String.ofList name) switch (value.map String.ofList))
    | none, none =>
      match candidates text with
      | [(spelling, switch, value)] => .ok (.switch spelling switch value)
      | [] =>
        if isNegativeNumber text || text.contains ' ' then .ok (.positional argument)
        else .ok (.unknown argument)
      | many => .error (.ambiguous argument (many.map (·.1)))
  | _ => .ok (.positional argument)

def classifyAll : List String → Except UsageError (List Argument)
  | [] => .ok []
  | "--" :: rest => .ok (.separator :: rest.map .positional)
  | argument :: rest => do
    let first ← classify argument
    return first :: (← classifyAll rest)

def cluster (switch : Switch) : List Char → Except UsageError (List Switch)
  | [] => .ok [switch]
  | letter :: rest =>
    match spellings.lookup (String.ofList ['-', letter]) with
    | some next => (cluster next rest).map (switch :: ·)
    | none => .error (.unexpectedValue switch (String.ofList (letter :: rest)))

def turnedOn (spelling : String) (switch : Switch) (value : Option String) :
    Except UsageError (List Switch) :=
  match value with
  | none => .ok [switch]
  | some value =>
    if value = "" || "--".toList.isPrefixOf spelling.toList then
      .error (.unexpectedValue switch value)
    else cluster switch value.toList

structure Reading where
  file : Option String := none
  switches : List Switch := []
  extras : List String := []

inductive Request where
  | help
  | report (file : String) (switches : List Switch)

def Reading.finish (r : Reading) : Except UsageError Request :=
  match r.file, r.extras with
  | none, _ => .error .missingFile
  | some _, extras@(_ :: _) => .error (.unrecognized extras)
  | some file, [] => .ok (.report file r.switches)

def Reading.extra (r : Reading) (text : String) : Reading :=
  { r with extras := r.extras ++ [text] }

/--
Read the arguments in order. The first free argument is the file; it takes the separator before or
behind it along.
-/
def read (r : Reading) : List Argument → Except UsageError Request
  | [] => r.finish
  | .positional text :: .separator :: rest =>
    match r.file with
    | none => read { r with file := some text } rest
    | some _ => read ((r.extra text).extra "--") rest
  | .positional text :: rest =>
    match r.file with
    | none => read { r with file := some text } rest
    | some _ => read (r.extra text) rest
  | .separator :: .positional text :: rest =>
    match r.file with
    | none => read { r with file := some text } rest
    | some _ => read ((r.extra "--").extra text) rest
  | .separator :: rest => read (r.extra "--") rest
  | .unknown text :: rest => read (r.extra text) rest
  | .switch spelling switch value :: rest =>
    match turnedOn spelling switch value with
    | .error e => .error e
    | .ok on =>
      if on.contains .help then .ok .help
      else read { r with switches := r.switches ++ on } rest

def parse (arguments : List String) : Except UsageError Request :=
  match classifyAll arguments with
  | .error e => .error e
  | .ok classified => read {} classified

end Arbor.Command
