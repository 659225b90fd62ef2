import Arbor.Command.Files

/-!
File trees: files and directories by name, and what is found when a path is followed through them.
The limits are those of common file systems: 255 bytes for a name and 4095 for a path.

Main statement: a file is found where it was put (`follow_putFile`).
-/

namespace Arbor.Command

inductive FileTree where
  | file (bytes : List UInt8)
  | directory (entries : List (String × FileTree))

def nameLimit : Nat := 255

def pathLimit : Nat := 4095

namespace FileTree

def empty : FileTree :=
  .directory []

def entries : FileTree → List (String × FileTree)
  | .directory entries => entries
  | .file _ => []

def setEntry (name : String) (new : FileTree) :
    List (String × FileTree) → List (String × FileTree)
  | [] => [(name, new)]
  | (other, t) :: rest =>
    if other = name then (name, new) :: rest else (other, t) :: setEntry name new rest

theorem lookup_setEntry (name : String) (new : FileTree) (entries : List (String × FileTree)) :
    (setEntry name new entries).lookup name = some new := by
  induction entries with
  | nil => simp [setEntry]
  | cons entry rest ih =>
    obtain ⟨other, t⟩ := entry
    by_cases h : other = name
    · simp [setEntry, h]
    · have hne : (name == other) = false := by
        rw [beq_eq_false_iff_ne]
        exact fun heq => h heq.symm
      simp [setEntry, h, List.lookup_cons, hne, ih]

def putFile (bytes : List UInt8) : List String → FileTree → FileTree
  | [], _ => .file bytes
  | name :: rest, t =>
    let below := (t.entries.lookup name).getD empty
    .directory (setEntry name (putFile bytes rest below) t.entries)

def putDirectory : List String → FileTree → FileTree
  | [], t => .directory t.entries
  | name :: rest, t =>
    let below := (t.entries.lookup name).getD empty
    .directory (setEntry name (putDirectory rest below) t.entries)

/--
Follow some names from the root. Nothing is looked up below a file or a missing entry, so that a
long name is noticed only in a directory that exists.
-/
def follow : List String → FileTree → FileState
  | [], .file bytes => .file bytes
  | [], .directory _ => .directory
  | _ :: _, .file _ => .missing
  | name :: rest, .directory entries =>
    if nameLimit < name.utf8ByteSize then .nameTooLong
    else
      match entries.lookup name with
      | some t => follow rest t
      | none => .missing

theorem follow_putFile (bytes : List UInt8) (names : List String) (t : FileTree)
    (short : ∀ name ∈ names, name.utf8ByteSize ≤ nameLimit) :
    follow names (putFile bytes names t) = .file bytes := by
  induction names generalizing t with
  | nil => simp [putFile, follow]
  | cons name rest ih =>
    have here : ¬ nameLimit < name.utf8ByteSize :=
      Nat.not_lt.2 (short name (List.mem_cons_self ..))
    have below : ∀ other ∈ rest, other.utf8ByteSize ≤ nameLimit :=
      fun other h => short other (List.mem_cons_of_mem _ h)
    simp [putFile, follow, here, lookup_setEntry, ih _ below]

def stateAt (t : FileTree) (path : AbsolutePath) : FileState :=
  if pathLimit < path.text.utf8ByteSize then .nameTooLong else follow path.names.reverse t

end FileTree

end Arbor.Command
