import Arbor.Command.Run
import Arbor.Proofs.Scope.Shape

/-!
This module says what a report on scopes looks like, without the functions that write it. It has one
line for each scope, from the scope of the whole tree inwards, and one more line if some names are
unresolved. Main statement: the report that is written looks like this (`isScopesText`).
-/

namespace Arbor

namespace Command

inductive IsLabel : Scope.Kind → String → Prop
  | module : IsLabel .module "module"
  | function : IsLabel .function "function"
  | block : IsLabel .block "block"

/-- Names are shown with commas between them, or as a dash if that would show nothing. -/
inductive IsShown : List String → String → Prop
  | nothing : IsShown [] "-"
  | nameless : IsShown [""] "-"
  | names {names : List String} (nonempty : names ≠ []) (named : names ≠ [""]) :
      IsShown names (String.intercalate ", " names)

/-- The line of a scope, indented by two blanks for each scope around it. -/
inductive IsScopeLine (table : ScopeTable) (id : ScopeId) : String → Prop
  | mk {scope : Scope} {label kind shown : String} (found : table.scope? id = some scope)
      (labelled : IsLabel scope.kind label) (node : scope.node.kind? = some kind)
      (names : IsShown scope.names shown) :
      IsScopeLine table id (String.ofList (List.replicate (2 * table.depth id) ' ') ++
        (label ++ " " ++ kind ++ ": " ++ shown ++ "\n"))

/-- The names of references, each once and in their order; there is no line if there are none. -/
inductive IsUnresolvedLine (references : List Reference) : String → Prop
  | nothing (resolved : references = []) : IsUnresolvedLine references ""
  | line {names : List String} (unresolved : references ≠ [])
      (sorted : names.Pairwise (· < ·))
      (mem : ∀ name, name ∈ names ↔ ∃ r ∈ references, r.name = name) :
      IsUnresolvedLine references ("unresolved: " ++ String.intercalate ", " names ++ "\n")

inductive IsScopesText (table : ScopeTable) (references : List Reference) : String → Prop
  | mk {lines : List String} {last : String}
      (scopes : List.Forall₂ (IsScopeLine table) (table.preorder Analysis.moduleScope) lines)
      (unresolved : IsUnresolvedLine references last) :
      IsScopesText table references (String.join lines ++ last)

section Names

theorem intercalate_eq_empty {names : List String}
    : String.intercalate ", " names = "" ↔ names = [] ∨ names = [""] := by
  rw [← String.toList_inj, String.toList_intercalate]
  match names with
  | [] => simp
  | [name] => simp
  | name :: next :: rest => simp [List.intercalate]

theorem isShown (names : List String)
    : IsShown names (if String.intercalate ", " names = "" then "-"
        else String.intercalate ", " names) := by
  split
  next hempty =>
    rcases intercalate_eq_empty.1 hempty with rfl | rfl
    · exact .nothing
    · exact .nameless
  next hne =>
    rw [intercalate_eq_empty, not_or] at hne
    exact .names hne.1 hne.2

theorem join_replicate (n : Nat)
    : String.join (List.replicate n "  ") = String.ofList (List.replicate (2 * n) ' ') := by
  rw [← String.toList_inj, String.toList_join, String.toList_ofList]
  induction n with
  | zero => rfl
  | succ n ih =>
    rw [List.replicate_succ, List.flatMap_cons, ih, Nat.mul_succ, Nat.add_comm, List.replicate_add]
    rfl

theorem mem_insertText {name text : String} {names : List String}
    : name ∈ insertText text names ↔ name = text ∨ name ∈ names := by
  induction names with
  | nil => simp [insertText]
  | cons other rest ih =>
    rw [insertText]
    split
    next heq => simp [heq]
    next =>
      split
      next => simp
      next => simp [ih, or_left_comm]

theorem pairwise_insertText (text : String) {names : List String} (h : names.Pairwise (· < ·))
    : (insertText text names).Pairwise (· < ·) := by
  induction names with
  | nil => simp [insertText]
  | cons other rest ih =>
    obtain ⟨hother, hrest⟩ := List.pairwise_cons.1 h
    rw [insertText]
    split
    next => exact h
    next hne =>
      split
      next hlt =>
        refine List.pairwise_cons.2 ⟨?_, h⟩
        intro name hname
        rcases List.mem_cons.1 hname with rfl | hname
        · exact hlt
        · exact String.lt_trans hlt (hother name hname)
      next hge =>
        have hlt : other < text := by
          by_contra hle
          exact hne (String.le_antisymm (String.not_lt.1 hle) (String.not_lt.1 hge))
        refine List.pairwise_cons.2 ⟨?_, ih hrest⟩
        intro name hname
        rcases mem_insertText.1 hname with rfl | hname
        · exact hlt
        · exact hother name hname

theorem foldl_insertText (references : List Reference) {names : List String}
    (h : names.Pairwise (· < ·))
    : (references.foldl (fun names r => insertText r.name names) names).Pairwise (· < ·)
      ∧ ∀ name, name ∈ references.foldl (fun names r => insertText r.name names) names ↔
          (∃ r ∈ references, r.name = name) ∨ name ∈ names := by
  induction references generalizing names with
  | nil => simpa using h
  | cons r rest ih =>
    obtain ⟨hsorted, hmem⟩ := ih (pairwise_insertText r.name h)
    refine ⟨hsorted, ?_⟩
    intro name
    rw [List.foldl_cons, hmem, mem_insertText, List.exists_mem_cons_iff, or_left_comm, or_assoc,
      eq_comm]

theorem isUnresolvedLine (references : List Reference)
    : IsUnresolvedLine references (unresolvedLine references) := by
  unfold unresolvedLine
  split
  next => exact .nothing rfl
  next hne =>
    obtain ⟨hsorted, hmem⟩ := foldl_insertText references List.Pairwise.nil
    refine .line hne hsorted ?_
    intro name
    rw [hmem]
    simp

end Names

section Scopes

open Scope

variable {root : Node} {table : ScopeTable}
  (h : Reflects (Analysis.outline root).at? root.value (Analysis.visited root) table)

include h

theorem exists_labelled {id : Nat} (hid : id < table.size)
    : ∃ scope label kind, table.scope? id = some scope ∧ scope.kind.text = label
        ∧ IsLabel scope.kind label ∧ scope.node.kind? = some kind := by
  obtain ⟨key, hkey⟩ := exists_key h hid
  obtain ⟨scope, hscope, hholds⟩ := h.scope hkey
  rcases mem_keys.1 (List.mem_of_getElem? hkey) with rfl | ⟨x, hx, hopens, rfl⟩
  · refine ⟨scope, "module", root.kind, hscope, ?_, ?_, ?_⟩
    · rw [hholds.kind]
      rfl
    · rw [hholds.kind]
      exact .module
    · rw [hholds.node]
      exact root.kind_eq
  · obtain ⟨kind, hkind⟩ := Option.isSome_iff_exists.1 hopens
    have hat : (some x.route).bind (Analysis.outline root).at? = some x := Outline.at?_route hx
    have hscopeKind : scope.kind = kind := by
      rw [hholds.kind, Option.bind_some, kindAt_visited hx, hkind]
      rfl
    have hnode : scope.node.kind? = some x.node.kind := by
      rw [hholds.node, hat]
      exact x.node.kind_eq
    rw [← hscopeKind] at hkind
    rcases opens_cases hkind with hfunction | hblock
    · exact ⟨scope, "function", _, hscope, hfunction ▸ rfl, hfunction ▸ .function, hnode⟩
    · exact ⟨scope, "block", _, hscope, hblock ▸ rfl, hblock ▸ .block, hnode⟩

theorem isScopeLine {id : Nat} (hid : id < table.size)
    : IsScopeLine table id (scopeLine table id) := by
  obtain ⟨scope, label, kind, hscope, htext, hlabel, hkind⟩ := exists_labelled h hid
  unfold scopeLine
  rw [hscope]
  dsimp only
  rw [join_replicate, htext, hkind, Option.getD_some]
  exact .mk hscope hlabel hkind (isShown scope.names)

theorem isScopesText (references : List Reference)
    : IsScopesText table references (scopesText table ++ unresolvedLine references) := by
  refine .mk ?_ (isUnresolvedLine references)
  rw [List.forall₂_map_right_iff, List.forall₂_same]
  intro id hid
  apply isScopeLine h
  rwa [preorder_module h, List.mem_range] at hid

end Scopes

end Command

end Arbor
