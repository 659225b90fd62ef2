import Arbor.Proofs.Command.Outcome
import Arbor.Proofs.Scope.Listing
import Arbor.Proofs.Scope.Reordering

/-!
This module says on which trees the scope analysis returns, and with it the command that reports on
scopes. Values that are run through for declarations and patterns are taken as absent only if they
have elements or count as false. Any other value there ends the analysis by an error, and the
command does not handle this error (`scopes_return_iff`).
-/

namespace Arbor

open Scope Walk

namespace Analysis

def IsReadable (root : Node) : Prop :=
  ∀ x ∈ visited root, ∀ list, RunsThrough x.node list → list.isListable = true

theorem run_ok_iff_readable {α : Type} (hooks : Hooks α) (a : Analysis α) (root : Node)
    : (run hooks a root.value).1 = .ok () ↔ IsReadable root := by
  rw [run_ok_iff]
  exact forall₂_congr fun x _ => bindings_listed_iff x.node

end Analysis

open Analysis

theorem scopesOf_ok_iff (root : Node)
    : (∃ table log, scopesOf root.value = (.ok table, log)) ↔ IsReadable root := by
  rw [← run_ok_iff_readable .silent (.fresh .silent), scopesOf]
  generalize run .silent (.fresh .silent) root.value = out
  obtain ⟨result, s⟩ := out
  cases result with
  | error fault => simp
  | ok u => simp

theorem freeReferences_ok_iff (root : Node)
    : (∃ references log, freeReferences root.value = (.ok references, log)) ↔
        IsReadable root := by
  rw [← run_ok_iff_readable Reference.hooks (.fresh Reference.hooks), freeReferences]
  generalize run Reference.hooks (.fresh Reference.hooks) root.value = out
  obtain ⟨result, s⟩ := out
  cases result with
  | error fault => simp
  | ok u => simp

namespace Command

variable {compact : SExpr → String}

theorem report_scopes {switches : List Switch} (h : tellsScopes switches = true) (file : String)
    (tree : Value) : report compact switches file tree = scopesReport tree := by
  simp only [tellsScopes, Bool.and_eq_true, Bool.not_eq_true'] at h
  rw [report, h.1, h.2, if_neg (by simp), if_pos rfl]

theorem scopesReport_fault (root : Node)
    : (scopesReport root.value).fault = none ↔ IsReadable root := by
  constructor
  · intro h
    rw [← scopesOf_ok_iff]
    unfold scopesReport at h
    split at h
    next => contradiction
    next table log htable => exact ⟨table, log, htable⟩
  · intro h
    obtain ⟨table, log, htable⟩ := (scopesOf_ok_iff root).2 h
    obtain ⟨references, more, hreferences⟩ := (freeReferences_ok_iff root).2 h
    rw [scopesReport, htable, hreferences]

theorem runTree_scopes {env : Environment} {switches : List Switch} {file : String} (root : Node)
    (htells : tellsScopes switches = true)
    : ((runTree compact env switches file root.value).ending = .returned 0 ↔ IsReadable root)
      ∧ (¬ IsReadable root →
          ∃ text,
            (runTree compact env switches file root.value).ending = .crashed "TypeError" text) := by
  have hroot : root.value.isNode = true := by
    rw [Value.isNode, root.kind_eq]
    rfl
  have hends : (report compact switches file root.value).Ends _ _ := ends_report switches file hroot
  rw [← scopesReport_fault, ← report_scopes htells file]
  unfold runTree
  dsimp only
  rcases hends with ⟨fault, hfault, e, _, rfl⟩ | ⟨hfault, _⟩
  · rw [hfault]
    exact ⟨by simp [Fault.diagnostic?], fun _ => ⟨_, rfl⟩⟩
  · rw [hfault]
    simp

/--
On which trees the scope analysis returns. Both analyses return if and only if all that they run
through can be run through, and a report on scopes ends in the same cases with 0. In all other cases
an error that says what cannot be run through ends the command.
-/
theorem scopes_return_iff (root : Node)
    : ((∃ table log, scopesOf root.value = (.ok table, log)) ↔ IsReadable root)
      ∧ ((∃ references log, freeReferences root.value = (.ok references, log)) ↔ IsReadable root)
      ∧ ∀ compact directory files env arguments file switches,
          parse arguments = .ok (.report file switches) →
          AbsolutePath.isAdmissible file = true →
          (files (directory.resolve file)).Holds root.value →
          tellsScopes switches = true →
          ((run compact directory files env arguments).ending = .returned 0 ↔ IsReadable root)
          ∧ (¬ IsReadable root →
              ∃ text,
                (run compact directory files env arguments).ending =
                  .crashed "TypeError" text) := by
  refine ⟨scopesOf_ok_iff root, freeReferences_ok_iff root, ?_⟩
  intro compact directory files env arguments file switches parsed admissible holds htells
  rw [run_report parsed admissible, runFile_holds switches holds]
  exact runTree_scopes root htells

def sampleDeclaration (list : Value) : Node :=
  ⟨.record 0 .map [("type", .str "VariableDeclaration"), ("declarations", list)],
    "VariableDeclaration", rfl⟩

def sampleBytes : List UInt8 :=
  [0x7b, 0x22, 0x74, 0x79, 0x70, 0x65, 0x22, 0x3a, 0x22, 0x56, 0x61, 0x72, 0x69, 0x61, 0x62, 0x6c,
    0x65, 0x44, 0x65, 0x63, 0x6c, 0x61, 0x72, 0x61, 0x74, 0x69, 0x6f, 0x6e, 0x22, 0x2c, 0x22, 0x64,
    0x65, 0x63, 0x6c, 0x61, 0x72, 0x61, 0x74, 0x69, 0x6f, 0x6e, 0x73, 0x22, 0x3a]

def sampleText : FileState :=
  .file (sampleBytes ++ [0x22, 0x78, 0x22, 0x7d])

def sampleNumber : FileState :=
  .file (sampleBytes ++ [0x37, 0x7d])

theorem sampleText_holds : sampleText.Holds (sampleDeclaration (.str "x")).value := by
  have decoded : Utf8.decode (sampleBytes ++ [0x22, 0x78, 0x22, 0x7d]) =
      .ok "\x7b\"type\":\"VariableDeclaration\",\"declarations\":\"x\"\x7d".toList := by
    decide +kernel
  have parsed : Json.parse (Utf8.unifyNewlines
      "\x7b\"type\":\"VariableDeclaration\",\"declarations\":\"x\"\x7d".toList) =
      .ok (.object [("type", .str "VariableDeclaration"), ("declarations", .str "x")]) := rfl
  exact .mk decoded parsed

theorem sampleNumber_holds : sampleNumber.Holds (sampleDeclaration (.int 7)).value := by
  have decoded : Utf8.decode (sampleBytes ++ [0x37, 0x7d]) =
      .ok "\x7b\"type\":\"VariableDeclaration\",\"declarations\":7\x7d".toList := by
    decide +kernel
  have parsed : Json.parse (Utf8.unifyNewlines
      "\x7b\"type\":\"VariableDeclaration\",\"declarations\":7\x7d".toList) =
      .ok (.object [("type", .str "VariableDeclaration"), ("declarations", .int 7)]) := rfl
  exact .mk decoded parsed

theorem visited_sampleText
    : visited (sampleDeclaration (.str "x")) = [⟨[], [], sampleDeclaration (.str "x")⟩] := by
  cbv

theorem visited_sampleNumber
    : visited (sampleDeclaration (.int 7)) = [⟨[], [], sampleDeclaration (.int 7)⟩] := by
  cbv

theorem scopes_return_sample
    : IsReadable (sampleDeclaration (.str "x"))
      ∧ (run SExpr.oneLine .root (fun _ => sampleText) ⟨none, none⟩ ["tree", "--scopes"]).ending =
        .returned 0 := by
  have hreadable : IsReadable (sampleDeclaration (.str "x")) := by
    intro x hx
    rw [visited_sampleText, List.mem_singleton] at hx
    rw [hx]
    exact (bindings_listed_iff _).1 rfl
  refine ⟨hreadable, ?_⟩
  obtain ⟨_, _, hrun⟩ := scopes_return_iff (sampleDeclaration (.str "x"))
  exact (hrun SExpr.oneLine .root (fun _ => sampleText) ⟨none, none⟩ ["tree", "--scopes"] "tree"
    [.scopes] rfl (by decide) sampleText_holds rfl).1.2 hreadable

theorem scopes_crash_sample
    : (sampleDeclaration (.int 7)).value = .ofJson
        (.object [("type", .str "VariableDeclaration"), ("declarations", .int 7)])
      ∧ (¬ ∃ table log, scopesOf (sampleDeclaration (.int 7)).value = (.ok table, log))
      ∧ (¬ ∃ references log,
          freeReferences (sampleDeclaration (.int 7)).value = (.ok references, log))
      ∧ ∃ text, (run SExpr.oneLine .root (fun _ => sampleNumber) ⟨none, none⟩
          ["tree", "--scopes"]).ending = .crashed "TypeError" text := by
  have hunreadable : ¬ IsReadable (sampleDeclaration (.int 7)) := by
    intro h
    have hlist := h ⟨[], [], sampleDeclaration (.int 7)⟩ (by simp [visited_sampleNumber]) (.int 7)
      (.own rfl)
    contradiction
  refine ⟨rfl, ?_, ?_, ?_⟩
  · rwa [scopesOf_ok_iff]
  · rwa [freeReferences_ok_iff]
  · have parsed : parse ["tree", "--scopes"] = .ok (.report "tree" [.scopes]) := rfl
    rw [run_report parsed (by decide), runFile_holds _ sampleNumber_holds]
    exact (runTree_scopes _ rfl).2 hunreadable

end Command

end Arbor
