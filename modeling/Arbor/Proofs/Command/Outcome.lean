import Arbor.Command.Run
import Arbor.Proofs.Census.Exactness
import Arbor.Proofs.Census.Report
import Arbor.Proofs.Command.ScopeReport
import Arbor.Proofs.Walk.Fault
import Arbor.SExpr.Compact

/-!
This module is about how the command ends. The walks behind its reports refuse a root that is not a
node before anything is written, and over nodes they have no fault that is told by a diagnostic. So
a diagnostic is never written behind a part of a report. Main statement: the command returns 1 if
there is no tree to report on, with nothing but the diagnostic for that, and if it returns
otherwise, it returns 0 with the whole report (`run_outcome`).
-/

namespace Arbor

open Walk

namespace Command

section Tree

variable {σ φ κ ε α : Type} [Described ε] {errors : ε → Prop} {tree : Value}

structure Sound (tree : Value) (errors : ε → Prop) (out : Except (Fault ε) α × Log) : Prop where
  refused : tree.isNode = false → out = (.error (.invalidRoot tree), #[])
  fault : tree.isNode = true → ∀ fault, out.1 = .error fault → fault.IsRaised errors

theorem Sound.of_walk {v : Visitor σ φ κ ε} (compliant : v.Compliant errors) (context : κ)
    (state : σ) {out : Except (Fault ε) α × Log}
    (herror : ∀ fault s,
      walk v .all tree (Strategy.all_finiteFrom tree) context { state } = (.error fault, s) →
      out = (.error fault, s.log))
    (hok : ∀ s, walk v .all tree (Strategy.all_finiteFrom tree) context { state } = (.ok (), s) →
      ∃ a log, out = (.ok a, log))
    : Sound tree errors out := by
  constructor
  · intro hroot
    exact herror _ _ (walk_of_not_node v .all (Strategy.all_finiteFrom tree) context _ hroot)
  · intro hroot fault hfault
    cases hwalk : walk v .all tree (Strategy.all_finiteFrom tree) context { state } with
    | mk result s =>
      cases result with
      | error fault' =>
        rw [herror fault' s hwalk] at hfault
        cases hfault
        exact fault_walk compliant (Strategy.listing_all errors) hroot (congrArg Prod.fst hwalk)
      | ok u =>
        obtain ⟨a, log, hout⟩ := hok s hwalk
        rw [hout] at hfault
        contradiction

theorem sound_dump (options : Dump.Options) (tree : Value)
    : Sound tree (fun _ => False)
        (dump options (.all : Strategy ε) tree (Strategy.all_finiteFrom tree)) := by
  have hvisitor : (Dump.visitor options : Visitor _ _ _ ε).Compliant fun _ => False :=
    Visitor.compliant_twoPhase (fun _ _ _ h => nomatch h) (fun _ _ _ _ h => nomatch h)
  refine .of_walk hvisitor Dump.rootSlots #[[]] ?_ ?_
  · intro fault s h
    rw [dump, h]
  · intro s h
    rw [dump, h]
    exact ⟨_, _, rfl⟩

theorem sound_census (tree : Value)
    : Sound tree (fun _ => False)
        (census (.all : Strategy ε) tree (Strategy.all_finiteFrom tree)) := by
  refine .of_walk Census.compliant_visitor () {} ?_ ?_
  · intro fault s h
    rw [census, h]
  · intro s h
    rw [census, h]
    exact ⟨_, _, rfl⟩

theorem compliant_analysis (hooks : Analysis.Hooks α)
    : (Analysis.visitor hooks).Compliant fun _ => True :=
  Visitor.compliant_twoPhase (fun _ _ _ _ => trivial) (fun _ _ _ _ _ => trivial)

theorem sound_scopesOf (tree : Value) : Sound tree (fun _ => True) (scopesOf tree) := by
  refine .of_walk (compliant_analysis .silent) Analysis.moduleScope
    (Analysis.restart .silent (.fresh .silent) tree) ?_ ?_
  · intro fault s h
    rw [scopesOf, Analysis.run, h]
  · intro s h
    rw [scopesOf, Analysis.run, h]
    exact ⟨_, _, rfl⟩

theorem sound_freeReferences (tree : Value)
    : Sound tree (fun _ => True) (freeReferences tree) := by
  refine .of_walk (compliant_analysis Reference.hooks) Analysis.moduleScope
    (Analysis.restart Reference.hooks (.fresh Reference.hooks) tree) ?_ ?_
  · intro fault s h
    rw [freeReferences, Analysis.run, h]
  · intro s h
    rw [freeReferences, Analysis.run, h]
    exact ⟨_, _, rfl⟩

end Tree

section Report

variable {compact : SExpr → String} {tree : Value}

theorem report_refused (switches : List Switch) (file : String) (h : tree.isNode = false)
    : report compact switches file tree = ⟨"", some (.invalidRoot tree), #[]⟩ := by
  unfold report
  split
  · rw [dumpReport, (sound_dump _ tree).refused h]
    rfl
  · split
    · rw [scopesReport, (sound_scopesOf tree).refused h]
    · rw [censusReport, (sound_census tree).refused h]
      rfl

/-- The whole of a report, told by the results of the analyses behind it. -/
inductive Complete (compact : SExpr → String) (switches : List Switch) (file : String)
    (tree : Value) : String → Prop
  | dump (asked : switches.contains .dump = true) (other : switches.contains .compact = false)
      (e : SExpr) (log : Log)
      (result : (dump ⟨switches.contains .locations, some file⟩ .all tree
        (Strategy.all_finiteFrom tree) : Except (Fault Value.NotIterable) SExpr × Log) =
          (.ok e, log)) :
      Complete compact switches file tree (e.pretty {} 0 ++ "\n")
  | compactDump (asked : switches.contains .dump = true)
      (asked' : switches.contains .compact = true) (e : SExpr) (log : Log)
      (result : (dump ⟨switches.contains .locations, some file⟩ .all tree
        (Strategy.all_finiteFrom tree) : Except (Fault Value.NotIterable) SExpr × Log) =
          (.ok e, log)) :
      Complete compact switches file tree (compact e ++ "\n")
  | scopes (other : switches.contains .dump = false) (asked : switches.contains .scopes = true)
      (table : ScopeTable) (references : List Reference) (log more : Log)
      (result : scopesOf tree = (.ok table, log))
      (unresolved : freeReferences tree = (.ok references, more)) {text : String}
      (written : IsScopesText table references text) :
      Complete compact switches file tree text
  | census (other : switches.contains .dump = false) (other' : switches.contains .scopes = false)
      (c : Census) (log : Log)
      (result : (census .all tree (Strategy.all_finiteFrom tree) :
        Except (Fault Value.NotIterable) Census × Log) = (.ok c, log)) {text : String}
      (written : c.IsReport text) :
      Complete compact switches file tree (text ++ "\n")

inductive IsLogText (switches : List Switch) (log : Log) : String → Prop
  | quiet (other : switches.contains .verbose = false) : IsLogText switches log ""
  | verbose (asked : switches.contains .verbose = true) :
      IsLogText switches log
        (String.join (log.toList.map fun e => s!"DEBUG estree_walk.{e.source}: {e.text}\n"))

theorem isLogText (switches : List Switch) (log : Log)
    : IsLogText switches log (logText switches log) := by
  unfold logText
  split
  next hverbose => exact .verbose hverbose
  next hquiet => exact .quiet (Bool.eq_false_iff.2 hquiet)

def tellsScopes (switches : List Switch) : Bool :=
  !switches.contains .dump && switches.contains .scopes

def Report.Ends (r : Report) (mayFail : Prop) (whole : String → Prop) : Prop :=
  (∃ fault, r.fault = some fault ∧ fault.IsRaised fun _ => mayFail)
    ∨ (r.fault = none ∧ whole r.text)

theorem ends_ofResult {α : Type} {out : Except (Fault Value.NotIterable) α × Log} {mayFail : Prop}
    (sound : Sound tree (fun _ => False) out) (hroot : tree.isNode = true) (write : α → String)
    {whole : String → Prop} (hwhole : ∀ a log, out = (.ok a, log) → whole (write a))
    : (Report.ofResult (out.1.map write) out.2).Ends mayFail whole := by
  obtain ⟨result, log⟩ := out
  cases result with
  | error fault =>
    obtain ⟨_, hfalse, _⟩ := sound.fault hroot fault rfl
    contradiction
  | ok a => exact .inr ⟨rfl, hwhole a log rfl⟩

theorem ends_scopesReport (hroot : tree.isNode = true) {whole : String → Prop}
    (hwhole : ∀ table references log more, scopesOf tree = (.ok table, log) →
      freeReferences tree = (.ok references, more) →
      whole (scopesText table ++ unresolvedLine references))
    : (scopesReport tree).Ends True whole := by
  have hscopes := sound_scopesOf tree
  have hreferences := sound_freeReferences tree
  unfold scopesReport
  generalize scopesOf tree = out at hscopes hwhole ⊢
  generalize freeReferences tree = out' at hreferences hwhole ⊢
  obtain ⟨result, log⟩ := out
  obtain ⟨result', more⟩ := out'
  cases result with
  | error fault => exact .inl ⟨fault, rfl, hscopes.fault hroot fault rfl⟩
  | ok table =>
    -- the scopes are written by now, but the other analysis has no diagnostic either
    cases result' with
    | error fault => exact .inl ⟨fault, rfl, hreferences.fault hroot fault rfl⟩
    | ok references => exact .inr ⟨rfl, hwhole table references log more rfl rfl⟩

theorem exists_node (hroot : tree.isNode = true) : ∃ root : Node, root.value = tree := by
  obtain ⟨kind, hkind⟩ := Option.isSome_iff_exists.1 hroot
  exact ⟨⟨tree, kind, hkind⟩, rfl⟩

theorem scopes_complete (hroot : tree.isNode = true) {table : ScopeTable} {log : Log}
    (h : scopesOf tree = (.ok table, log)) (references : List Reference)
    : IsScopesText table references (scopesText table ++ unresolvedLine references) := by
  obtain ⟨root, rfl⟩ := exists_node hroot
  obtain ⟨hok, htable⟩ := Analysis.scopesOf_run.1 ⟨log, h⟩
  have hreflects := Analysis.reflects_run hok
  rw [htable] at hreflects
  exact isScopesText hreflects references

theorem census_complete (hroot : tree.isNode = true) {c : Census} {log : Log}
    (h : (census .all tree (Strategy.all_finiteFrom tree) :
      Except (Fault Value.NotIterable) Census × Log) = (.ok c, log))
    : c.IsReport c.report := by
  obtain ⟨root, rfl⟩ := exists_node hroot
  obtain ⟨c', hcensus, hcounts⟩ := census_counts (Strategy.all : Strategy Value.NotIterable) root
    (Strategy.all_finiteFrom root.value) (Strategy.whole_outline (fun _ => rfl) root _)
  rw [h] at hcensus
  injection hcensus with hcensus
  rw [hcensus]
  exact Census.isReport hcounts.nodup_kinds

theorem ends_report (switches : List Switch) (file : String) (hroot : tree.isNode = true)
    : (report compact switches file tree).Ends (tellsScopes switches = true)
        (Complete compact switches file tree) := by
  unfold report
  split
  next hdump =>
    apply ends_ofResult (sound_dump _ tree) hroot
    intro e log hresult
    unfold Dump.text
    cases hcompact : switches.contains .compact with
    | false => exact .dump hdump hcompact e log hresult
    | true => exact .compactDump hdump hcompact e log hresult
  next hdump =>
    rw [Bool.not_eq_true] at hdump
    split
    next hscopes =>
      have htells : (tellsScopes switches = true) = True := by
        simp only [tellsScopes, hdump, hscopes, Bool.not_false, Bool.and_self]
      rw [htells]
      apply ends_scopesReport hroot
      intro table references log more hresult hunresolved
      exact .scopes hdump hscopes table references log more hresult hunresolved
        (scopes_complete hroot hresult references)
    next hscopes =>
      rw [Bool.not_eq_true] at hscopes
      apply ends_ofResult (sound_census tree) hroot
      intro c log hresult
      exact .census hdump hscopes c log hresult (census_complete hroot hresult)

theorem logText_empty (switches : List Switch) : logText switches #[] = "" := by
  simp [logText]

theorem render_invalidRoot (tree : Value) (colored : Bool)
    : ∃ text, (Diagnostic.invalidRoot tree).render colored = .ok text :=
  ⟨_, rfl⟩

theorem runTree_refused {env : Environment} (switches : List Switch) (file : String) {text : String}
    (hroot : tree.isNode = false)
    (htext : (Diagnostic.invalidRoot tree).render env.wantsColor = .ok text)
    : runTree compact env switches file tree = ⟨"", text ++ "\n", .returned 1, #[]⟩ := by
  simp [runTree, report_refused switches file hroot, Fault.diagnostic?, htext, logText_empty]

theorem runTree_node {env : Environment} {switches : List Switch} {file : String} {code : Nat}
    (hroot : tree.isNode = true)
    (h : (runTree compact env switches file tree).ending = .returned code)
    : code = 0
      ∧ Complete compact switches file tree (runTree compact env switches file tree).stdout
      ∧ IsLogText switches (runTree compact env switches file tree).log
          (runTree compact env switches file tree).stderr := by
  unfold runTree at h ⊢
  dsimp only at h ⊢
  rcases ends_report switches file hroot with ⟨fault, hfault, e, _, rfl⟩ | ⟨hfault, hwhole⟩
  · rw [hfault] at h
    contradiction
  · rw [hfault] at h ⊢
    cases h
    exact ⟨rfl, hwhole, isLogText switches _⟩

theorem runTree_returned {env : Environment} {switches : List Switch} {file : String}
    (hroot : tree.isNode = true) (hscopes : tellsScopes switches = false)
    : (runTree compact env switches file tree).ending = .returned 0 := by
  unfold runTree
  dsimp only
  rcases ends_report switches file hroot with ⟨_, _, _, htells, _⟩ | ⟨hfault, _⟩
  · rw [hscopes] at htells
    contradiction
  · rw [hfault]

end Report

inductive FileState.Holds : FileState → Value → Prop
  | mk {bytes : List UInt8} {text : List Char} {doc : Json} (decoded : Utf8.decode bytes = .ok text)
      (parsed : Json.parse (Utf8.unifyNewlines text) = .ok doc) :
      Holds (.file bytes) (Value.ofJson doc)

/-- The reasons for which there is nothing to report on at a path, with their diagnostics. -/
inductive Obstacle (env : Environment) (path : AbsolutePath) : FileState → String → Prop
  | missing :
      Obstacle env path .missing s!"estree-walk: error: file not found: {path.text}\n"
  | directory :
      Obstacle env path .directory s!"estree-walk: error: file not found: {path.text}\n"
  | unreadable (reason : String) :
      Obstacle env path (.unreadable reason)
        s!"estree-walk: error: could not read file: {reason}\n"
  | undecodable {bytes : List UInt8} {fault : Utf8.Fault}
      (decoded : Utf8.decode bytes = .error fault) :
      Obstacle env path (.file bytes) s!"estree-walk: error: could not read file: {fault.text}\n"
  | invalid {bytes : List UInt8} {text : List Char} {fault : Json.Fault}
      (decoded : Utf8.decode bytes = .ok text)
      (parsed : Json.parse (Utf8.unifyNewlines text) = .error fault) :
      Obstacle env path (.file bytes)
        s!"estree-walk: error: invalid JSON: {fault.text (Utf8.unifyNewlines text)}\n"
  | noNode {state : FileState} {tree : Value} {text : String} (holds : state.Holds tree)
      (root : tree.isNode = false)
      (rendered : (Diagnostic.invalidRoot tree).render env.wantsColor = .ok text) :
      Obstacle env path state (text ++ "\n")

section File

variable {compact : SExpr → String} {env : Environment} {path : AbsolutePath} {state : FileState}

theorem runFile_holds {tree : Value} (switches : List Switch) (h : state.Holds tree)
    : runFile compact env switches path state = runTree compact env switches path.name tree := by
  obtain ⟨decoded, parsed⟩ := h
  simp only [runFile, runContent, decoded, parsed]

theorem runFile_obstacle {diagnostic : String} (switches : List Switch)
    (h : Obstacle env path state diagnostic)
    : runFile compact env switches path state = ⟨"", diagnostic, .returned 1, #[]⟩ := by
  cases h with
  | missing | directory | unreadable _ => rfl
  | undecodable decoded =>
    simp only [runFile, runContent, decoded]
    rfl
  | invalid decoded parsed =>
    simp only [runFile, runContent, decoded, parsed]
    rfl
  | noNode holds root rendered =>
    rw [runFile_holds switches holds, runTree_refused switches _ root rendered]

theorem holds_of_returned {switches : List Switch} {code : Nat}
    (h : (runFile compact env switches path state).ending = .returned code)
    (clear : ¬ ∃ diagnostic, Obstacle env path state diagnostic)
    : ∃ tree, state.Holds tree ∧ tree.isNode = true := by
  cases state with
  | missing => exact absurd ⟨_, .missing⟩ clear
  | directory => exact absurd ⟨_, .directory⟩ clear
  | unreadable reason => exact absurd ⟨_, .unreadable reason⟩ clear
  | nameTooLong => contradiction
  | file bytes =>
    cases decoded : Utf8.decode bytes with
    | error fault => exact absurd ⟨_, .undecodable decoded⟩ clear
    | ok text =>
      cases parsed : Json.parse (Utf8.unifyNewlines text) with
      | error fault => exact absurd ⟨_, .invalid decoded parsed⟩ clear
      | ok doc =>
        cases hroot : (Value.ofJson doc).isNode with
        | true => exact ⟨_, .mk decoded parsed, hroot⟩
        | false =>
          obtain ⟨text, rendered⟩ := render_invalidRoot (Value.ofJson doc) env.wantsColor
          exact absurd ⟨_, .noNode (.mk decoded parsed) hroot rendered⟩ clear

structure Outcome.Conforms (outcome : Outcome) (compact : SExpr → String) (env : Environment)
    (switches : List Switch) (path : AbsolutePath) (state : FileState) (code : Nat) : Prop where
  failure : code = 1 ↔ ∃ diagnostic, Obstacle env path state diagnostic
  diagnosed : ∀ diagnostic, Obstacle env path state diagnostic →
    outcome.stdout = "" ∧ outcome.stderr = diagnostic
  success : (¬ ∃ diagnostic, Obstacle env path state diagnostic) →
    code = 0
    ∧ (∃ tree, state.Holds tree ∧ tree.isNode = true
        ∧ Complete compact switches path.name tree outcome.stdout)
    ∧ IsLogText switches outcome.log outcome.stderr

theorem conforms_runFile {switches : List Switch} {code : Nat}
    (h : (runFile compact env switches path state).ending = .returned code)
    : (runFile compact env switches path state).Conforms compact env switches path state code := by
  by_cases hobstacle : ∃ diagnostic, Obstacle env path state diagnostic
  · obtain ⟨diagnostic, hdiagnostic⟩ := hobstacle
    rw [runFile_obstacle switches hdiagnostic] at h
    cases h
    refine ⟨⟨fun _ => ⟨diagnostic, hdiagnostic⟩, fun _ => rfl⟩, ?_, fun clear => ?_⟩
    · intro other hother
      rw [runFile_obstacle switches hother]
      exact ⟨rfl, rfl⟩
    · exact absurd ⟨diagnostic, hdiagnostic⟩ clear
  · obtain ⟨tree, holds, hroot⟩ := holds_of_returned h hobstacle
    have hfile : runFile compact env switches path state = _ := runFile_holds switches holds
    rw [hfile] at h ⊢
    obtain ⟨rfl, hwhole, hlog⟩ := runTree_node hroot h
    refine ⟨⟨fun hcode => ?_, fun hdiagnostic => absurd hdiagnostic hobstacle⟩, ?_, ?_⟩
    · contradiction
    · exact fun diagnostic hdiagnostic => absurd ⟨diagnostic, hdiagnostic⟩ hobstacle
    · exact fun _ => ⟨rfl, ⟨tree, holds, hroot, hwhole⟩, hlog⟩

end File

section Run

variable {compact : SExpr → String} {directory : AbsolutePath} {files : AbsolutePath → FileState}
  {env : Environment} {arguments : List String}

theorem run_report {file : String} {switches : List Switch}
    (parsed : parse arguments = .ok (.report file switches))
    (admissible : AbsolutePath.isAdmissible file = true)
    : run compact directory files env arguments =
        runFile compact env switches (directory.resolve file) (files (directory.resolve file)) := by
  simp only [run, parsed, admissible, if_true]

theorem report_of_returned {code : Nat}
    (h : (run compact directory files env arguments).ending = .returned code)
    : ∃ file switches, parse arguments = .ok (.report file switches)
        ∧ AbsolutePath.isAdmissible file = true := by
  unfold run at h
  cases hparse : parse arguments with
  | error e =>
    rw [hparse] at h
    contradiction
  | ok request =>
    rw [hparse] at h
    cases request with
    | help => contradiction
    | report file switches =>
      cases hfile : AbsolutePath.isAdmissible file with
      | false =>
        simp only [hfile] at h
        contradiction
      | true => exact ⟨file, switches, rfl, hfile⟩

end Run

def sampleFile : FileState :=
  .file [0x7b, 0x22, 0x74, 0x79, 0x70, 0x65, 0x22, 0x3a, 0x22, 0x41, 0x22, 0x7d]

theorem sampleFile_holds : sampleFile.Holds (.record 0 .map [("type", .str "A")]) := by
  have decoded : Utf8.decode [0x7b, 0x22, 0x74, 0x79, 0x70, 0x65, 0x22, 0x3a, 0x22, 0x41, 0x22,
      0x7d] = .ok "\x7b\"type\":\"A\"\x7d".toList := by decide +kernel
  have parsed : Json.parse (Utf8.unifyNewlines "\x7b\"type\":\"A\"\x7d".toList) =
      .ok (.object [("type", .str "A")]) := rfl
  exact .mk decoded parsed

def sampleList : FileState :=
  .file [0x5b, 0x5d]

def sampleIdentifier : FileState :=
  .file [0x7b, 0x22, 0x74, 0x79, 0x70, 0x65, 0x22, 0x3a, 0x22, 0x49, 0x64, 0x65, 0x6e, 0x74, 0x69,
    0x66, 0x69, 0x65, 0x72, 0x22, 0x2c, 0x22, 0x6e, 0x61, 0x6d, 0x65, 0x22, 0x3a, 0x22, 0x61, 0x22,
    0x7d]

theorem sampleIdentifier_holds : sampleIdentifier.Holds (Scope.sampleName 0).value := by
  have decoded : Utf8.decode [0x7b, 0x22, 0x74, 0x79, 0x70, 0x65, 0x22, 0x3a, 0x22, 0x49, 0x64,
      0x65, 0x6e, 0x74, 0x69, 0x66, 0x69, 0x65, 0x72, 0x22, 0x2c, 0x22, 0x6e, 0x61, 0x6d, 0x65,
      0x22, 0x3a, 0x22, 0x61, 0x22, 0x7d] =
      .ok "\x7b\"type\":\"Identifier\",\"name\":\"a\"\x7d".toList := by decide +kernel
  have parsed : Json.parse (Utf8.unifyNewlines
      "\x7b\"type\":\"Identifier\",\"name\":\"a\"\x7d".toList) =
      .ok (.object [("type", .str "Identifier"), ("name", .str "a")]) := rfl
  exact .mk decoded parsed

theorem outline_sampleIdentifier
    : Analysis.outline (Scope.sampleName 0) = .mk (Scope.sampleName 0) [] none := by
  cbv

theorem scopesReport_sampleIdentifier
    : (scopesReport (Scope.sampleName 0).value).text = "module Identifier: -\nunresolved: a\n"
      ∧ (scopesReport (Scope.sampleName 0).value).fault.isNone = true := by
  rw [scopesReport, scopesOf, freeReferences, Analysis.run_eq_visit, Analysis.run_eq_visit,
    outline_sampleIdentifier]
  decide +kernel

end Command

end Arbor
