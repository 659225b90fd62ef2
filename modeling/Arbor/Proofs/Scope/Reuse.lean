import Arbor.Proofs.Scope.Gathering
import Arbor.Proofs.Scope.SharedTable
import Arbor.Proofs.Walk.Context

/-!
This module is about an analysis that is used again and again. A run starts from nothing but the
scopes that are there already, and these stay as they are; what is bound and what is noted is that
of the last run, whether it ended well or not. Main statement: after every history of runs, resets
and questions the analysis is as good as new (`history_leaves_nothing`).
-/

namespace Arbor

open Walk

namespace Analysis

inductive Action where
  | run (root : Value)
  | reset
  | ask (v : Value)

variable {α : Type}

/-- The analysis after an action. The scopes of all runs stay in its table. -/
def perform (hooks : Hooks α) (a : Analysis α) : Action → Analysis α
  | .run root => (runBehind hooks a root).2.state
  | .reset => a.reset hooks
  | .ask _ => a

def after (hooks : Hooks α) : List Action → Analysis α
  | [] => fresh hooks
  | action :: earlier => perform hooks (after hooks earlier) action

def lastRun : List Action → Option (List Action × Value)
  | [] => none
  | .run root :: earlier => some (earlier, root)
  | .reset :: _ => none
  | .ask _ :: earlier => lastRun earlier

def eventsOf (hooks : Hooks α) (root : Value) : List (Event ScopeId Value.NotIterable) :=
  Request.events ⟨root, Strategy.all_finiteFrom root, moduleScope⟩ (visitor hooks)
    { state := (fresh hooks).restart hooks root }

def enteredOf (hooks : Hooks α) (root : Value) : List Occurrence :=
  occurrencesIn .enter (eventsOf hooks root)

variable {hooks : Hooks α}

theorem state_run (quiet : ∀ site a, hooks.exit site a = a.notes) (root : Value)
    : (run hooks (fresh hooks) root).2.state =
        enterAll (enter hooks) (eventsOf hooks root) ((fresh hooks).restart hooks root) := by
  have hexit : ∀ site inner a, exit hooks site inner a = (.ok (), a) := by
    intro site inner a
    rw [exit, quiet]
  cases hroot : Node.ofValue? root with
  | none =>
    have hwalk := Request.walk_refused (r := ⟨root, Strategy.all_finiteFrom root, moduleScope⟩)
      hroot (visitor hooks) { state := (fresh hooks).restart hooks root }
    rw [eventsOf, Request.events_refused hroot]
    exact congrArg (·.2.state) hwalk
  | some n =>
    obtain rfl : n.value = root := Node.ofValue?_eq_some.1 hroot
    rw [eventsOf, Request.events_node, run, walk_eq_visit]
    exact state_visit hexit moduleScope [] [] _ _

theorem bound_run (quiet : ∀ site a, hooks.exit site a = a.notes) (root : Value)
    : (run hooks (fresh hooks) root).2.state.bound = boundAfter [] (enteredOf hooks root) := by
  rw [state_run quiet, bound_enterAll]
  rfl

theorem isBound_iff {a : Analysis α} {v : Value}
    : a.isBound v = true ↔ ∃ id, v.id? = some id ∧ id ∈ a.bound := by
  rw [isBound]
  cases v.id? with
  | none => simp
  | some id => simp

section History

variable {move : Nat → α → α} (movable : hooks.Movable move)

include movable

theorem after_run (root : Value) (history : List Action)
    : after hooks (.run root :: history) =
        (run hooks (fresh hooks) root).2.state.behind (after hooks history).table move := by
  rw [after, perform, runBehind_eq movable]
  rfl

theorem bound_after (quiet : ∀ site a, hooks.exit site a = a.notes) (history : List Action)
    : (after hooks history).bound =
        ((lastRun history).map fun last => boundAfter [] (enteredOf hooks last.2)).getD [] := by
  induction history with
  | nil => rfl
  | cons action earlier ih =>
    cases action with
    | run root =>
      rw [after_run movable]
      exact bound_run quiet root
    | reset => rfl
    | ask v => exact ih

theorem notes_after (history : List Action)
    : (after hooks history).notes =
        ((lastRun history).map fun last =>
          move (after hooks last.1).table.size
            (run hooks (fresh hooks) last.2).2.state.notes).getD hooks.initial := by
  induction history with
  | nil => rfl
  | cons action earlier ih =>
    cases action with
    | run root =>
      rw [after_run movable]
      rfl
    | reset => rfl
    | ask v => exact ih

theorem table_perform (action : Action) (history : List Action)
    : ∃ t, (after hooks (action :: history)).table = (after hooks history).table.behind t := by
  cases action with
  | run root =>
    rw [after_run movable]
    exact ⟨_, rfl⟩
  | reset => exact ⟨.empty, (ScopeTable.behind_empty _).symm⟩
  | ask v => exact ⟨.empty, (ScopeTable.behind_empty _).symm⟩

theorem retains_after (later history : List Action)
    : (after hooks history).table.Retains (after hooks (later ++ history)).table := by
  induction later with
  | nil => exact ⟨Nat.le_refl _, fun _ _ => rfl, fun _ _ => rfl, fun _ _ => rfl⟩
  | cons action later ih =>
    obtain ⟨t, ht⟩ := table_perform movable action (later ++ history)
    rw [List.cons_append, ht]
    exact ih.trans (ScopeTable.retains_behind _ t)

end History

/--
The analysis after a history of actions is as good as a new one, apart from the scopes in its table:
a run goes as that of a new analysis, and its scopes come to stand behind those that are there.
-/
structure Clean (hooks : Hooks α) (move : Nat → α → α) (history : List Action) : Prop where
  alone : ∀ root,
    Analysis.run hooks (after hooks history) root = Analysis.run hooks (fresh hooks) root
  run : ∀ root, runBehind hooks (after hooks history) root =
    ((Analysis.run hooks (fresh hooks) root).1,
      (Analysis.run hooks (fresh hooks) root).2.map (behind (after hooks history).table move))
  tree : ∀ root,
    (after hooks (.run root :: history)).table.preorder (after hooks history).table.size =
      ((Analysis.run hooks (fresh hooks) root).2.state.table.preorder moduleScope).map
        (· + (after hooks history).table.size)
  scope : ∀ root id,
    (after hooks (.run root :: history)).table.scope? (id + (after hooks history).table.size) =
      ((Analysis.run hooks (fresh hooks) root).2.state.table.scope? id).map
        (Scope.move (after hooks history).table.size)
  resolve : ∀ root id name,
    (after hooks (.run root :: history)).table.resolve (id + (after hooks history).table.size) name =
      ((Analysis.run hooks (fresh hooks) root).2.state.table.resolve id name).map
        (· + (after hooks history).table.size)
  bound : ∀ v, (after hooks history).isBound v = true ↔
    ∃ past root, lastRun history = some (past, root)
      ∧ ∃ x ∈ enteredOf hooks root, ∃ b ∈ (Scope.bindings x.node).entries,
        ∃ id, b.2.id? = some id ∧ v.id? = some id
  notes : (after hooks history).notes =
    match lastRun history with
    | none => hooks.initial
    | some (past, root) => move (after hooks past).table.size
        (Analysis.run hooks (fresh hooks) root).2.state.notes
  kept : ∀ later, (after hooks history).table.Retains (after hooks (later ++ history)).table

theorem clean_after {move : Nat → α → α} (movable : hooks.Movable move)
    (quiet : ∀ site a, hooks.exit site a = a.notes) (history : List Action)
    : Clean hooks move history := by
  refine ⟨fun _ => rfl, fun root => runBehind_eq movable _ root, ?_, ?_, ?_, ?_, ?_,
    fun later => retains_after movable later history⟩
  · intro root
    rw [after_run movable]
    have hpreorder := ScopeTable.preorder_behind (after hooks history).table
      (Analysis.run hooks (fresh hooks) root).2.state.table moduleScope
    rwa [moduleScope, Nat.zero_add] at hpreorder
  · intro root id
    rw [after_run movable]
    exact ScopeTable.scope?_behind ..
  · intro root id name
    rw [after_run movable]
    exact ScopeTable.resolve_behind ..
  · intro v
    rw [isBound_iff, bound_after movable quiet]
    cases lastRun history with
    | none => simp
    | some last =>
      simp only [Option.map_some, Option.getD_some, mem_boundAfter, List.not_mem_nil, false_or,
        mem_boundBy]
      constructor
      · rintro ⟨id, hv, x, hx, b, hb, hid⟩
        exact ⟨last.1, last.2, rfl, x, hx, b, hb, id, hid, hv⟩
      · rintro ⟨past, root, heq, x, hx, b, hb, id, hid, hv⟩
        injection heq with heq
        subst heq
        exact ⟨id, hv, x, hx, b, hb, hid⟩
  · rw [notes_after movable]
    cases lastRun history <;> rfl

end Analysis

namespace Reference

open Analysis

def scopeBehind (root : Value) (n : Nat) (r : Route) : ScopeId :=
  contextAt (eventsOf hooks root) moduleScope r + n

theorem notes_run (root : Value)
    : (Analysis.run hooks (fresh hooks) root).2.state.notes =
        (referring [] (enteredOf hooks root)).map (ofOccurrence (scopeBehind root 0)) := by
  rw [state_run (fun _ _ => rfl)]
  have hscope : ∀ e ∈ eventsOf hooks root, e.site.context = scopeBehind root 0 e.route := by
    intro e he
    cases hroot : Node.ofValue? root with
    | none =>
      rw [eventsOf, Request.events_refused hroot] at he
      contradiction
    | some n =>
      obtain rfl : n.value = root := Node.ofValue?_eq_some.1 hroot
      rw [eventsOf, Request.events_node] at he
      rw [scopeBehind, eventsOf, Request.events_node]
      exact context_events he
  exact notes_enterAll _ _ hscope

end Reference

end Arbor
