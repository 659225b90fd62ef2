import Arbor.Command.Arguments
import Arbor.Command.Files
import Arbor.Dump
import Arbor.Json.Parser
import Arbor.Scope.Reference
import Arbor.Census
import Arbor.Text.Utf8
import Arbor.Value.OfJson

/-!
The command: read a tree from a JSON file and report on it. What it writes and how it ends is a
function of its arguments, the working directory, the environment and what stands at each path. The
printer of dumps on a single line is left open.
-/

namespace Arbor.Command

inductive Ending where
  | returned (code : Nat)
  | refused
  | helped
  | crashed (error text : String)
deriving DecidableEq, Repr

structure Outcome where
  stdout : String
  stderr : String
  ending : Ending
  log : Log
deriving DecidableEq, Repr

def title : String := "estree-walk"

def complaint (text : String) : String :=
  s!"{title}: error: {text}\n"

def complain (text : String) : Outcome :=
  ⟨"", complaint text, .returned 1, #[]⟩

structure Report where
  text : String
  fault : Option (Fault Value.NotIterable)
  log : Log

def Report.ofResult (result : Except (Fault Value.NotIterable) String) (log : Log) : Report :=
  match result with
  | .ok text => ⟨text, none, log⟩
  | .error fault => ⟨"", some fault, log⟩

def dumpReport (compact : SExpr → String) (switches : List Switch) (file : String)
    (tree : Value) : Report :=
  let options : Dump.Options := ⟨switches.contains .locations, some file⟩
  match dump options .all tree (Strategy.all_finiteFrom tree) with
  | (result, log) =>
    .ofResult (result.map fun e => Dump.text compact (!switches.contains .compact) e ++ "\n") log

def scopeLine (table : ScopeTable) (id : ScopeId) : String :=
  match table.scope? id with
  | none => ""
  | some scope =>
    let kind := scope.node.kind?.getD ""
    let names := String.intercalate ", " scope.names
    let shown := if names = "" then "-" else names
    String.join (List.replicate (table.depth id) "  ") ++ s!"{scope.kind.text} {kind}: {shown}\n"

def insertText (text : String) : List String → List String
  | [] => [text]
  | other :: rest =>
    if text = other then other :: rest
    else if text < other then text :: other :: rest
    else other :: insertText text rest

def unresolvedLine (references : List Reference) : String :=
  match references with
  | [] => ""
  | _ =>
    let names := references.foldl (fun names r => insertText r.name names) []
    "unresolved: " ++ String.intercalate ", " names ++ "\n"

def scopesText (table : ScopeTable) : String :=
  String.join ((table.preorder Analysis.moduleScope).map (scopeLine table))

/-- The scopes are written before the references are looked for. -/
def scopesReport (tree : Value) : Report :=
  match scopesOf tree with
  | (.error fault, log) => ⟨"", some fault, log⟩
  | (.ok table, log) =>
    match freeReferences tree with
    | (.error fault, more) => ⟨scopesText table, some fault, log ++ more⟩
    | (.ok references, more) => ⟨scopesText table ++ unresolvedLine references, none, log ++ more⟩

def censusReport (tree : Value) : Report :=
  match census .all tree (Strategy.all_finiteFrom tree) with
  | (result, log) => .ofResult (result.map fun s => s.report ++ "\n") log

def report (compact : SExpr → String) (switches : List Switch) (file : String) (tree : Value) :
    Report :=
  if switches.contains .dump then dumpReport compact switches file tree
  else if switches.contains .scopes then scopesReport tree
  else censusReport tree

def logText (switches : List Switch) (log : Log) : String :=
  if switches.contains .verbose then
    String.join (log.toList.map fun e => s!"DEBUG estree_walk.{e.source}: {e.text}\n")
  else ""

/--
Report on a tree. A fault with a diagnostic is shown behind what was written; any other one ends the
command.
-/
def runTree (compact : SExpr → String) (env : Environment) (switches : List Switch) (file : String)
    (tree : Value) : Outcome :=
  let r := report compact switches file tree
  let logged := logText switches r.log
  match r.fault with
  | none => ⟨r.text, logged, .returned 0, r.log⟩
  | some fault =>
    match fault.diagnostic? with
    | none => ⟨r.text, logged, .crashed fault.name fault.text, r.log⟩
    | some d =>
      match d.render env.wantsColor with
      | .ok text => ⟨r.text, logged ++ text ++ "\n", .returned 1, r.log⟩
      | .error fault => ⟨r.text, logged, .crashed fault.name fault.text, r.log⟩

def runContent (compact : SExpr → String) (env : Environment) (switches : List Switch)
    (file : String) (bytes : List UInt8) : Outcome :=
  match Utf8.decode bytes with
  | .error fault => complain s!"could not read file: {fault.text}"
  | .ok text =>
    let source := Utf8.unifyNewlines text
    match Json.parse source with
    | .error fault => complain s!"invalid JSON: {fault.text source}"
    | .ok doc => runTree compact env switches file (Value.ofJson doc)

def tooLongText (path : AbsolutePath) : String :=
  s!"[Errno 36] File name too long: {Text.literal path.text}"

def runFile (compact : SExpr → String) (env : Environment) (switches : List Switch)
    (path : AbsolutePath) (state : FileState) : Outcome :=
  match state with
  | .missing | .directory => complain s!"file not found: {path.text}"
  | .unreadable reason => complain s!"could not read file: {reason}"
  | .nameTooLong => ⟨"", "", .crashed "OSError" (tooLongText path), #[]⟩
  | .file bytes => runContent compact env switches path.name bytes

def target? (directory : AbsolutePath) (arguments : List String) : Option AbsolutePath :=
  match parse arguments with
  | .ok (.report file _) =>
    if AbsolutePath.isAdmissible file then some (directory.resolve file) else none
  | _ => none

def run (compact : SExpr → String) (directory : AbsolutePath) (files : AbsolutePath → FileState)
    (env : Environment) (arguments : List String) : Outcome :=
  match parse arguments with
  | .error e => ⟨"", complaint e.text, .refused, #[]⟩
  | .ok .help => ⟨"", "", .helped, #[]⟩
  | .ok (.report file switches) =>
    if AbsolutePath.isAdmissible file then
      let path := directory.resolve file
      runFile compact env switches path (files path)
    else ⟨"", "", .crashed "ValueError" "embedded null byte", #[]⟩

end Arbor.Command
