import Arbor.Proofs.Walk.History

/-!
This module ties the history of a walk to the walk itself. A visitor can be made to record, in its
own state, each call of its code with what it was told and how it came back. Main statement: a walk
with the recording visitor goes exactly as the walk with the visitor itself, and it leaves behind
those notes of the history that tell of code of the visitor (`walk_recording`).
-/

namespace Arbor

open Walk

namespace Walk

variable {σ φ κ ε α : Type}

def Note.isRun (note : Note κ ε) : Bool :=
  note.phase ≠ .listing && note.outcome.isRun

def recorded (events : List (Event κ ε)) : List (Note κ ε) :=
  (events.map (·.toNote)).filter Note.isRun

theorem recorded_append (events later : List (Event κ ε))
    : recorded (events ++ later) = recorded events ++ recorded later := by
  simp [recorded]

theorem recorded_cons (note : Note κ ε) (route : Route) (events : List (Event κ ε))
    : recorded (note.onRoute route :: events) = [note].filter Note.isRun ++ recorded events := by
  rw [← List.singleton_append, recorded_append]
  rfl

theorem recorded_onRoute (notes : List (Note κ ε)) (route : Route)
    : recorded (notes.map (·.onRoute route)) = notes.filter Note.isRun := by
  rw [recorded, List.map_map]
  congr 1
  exact List.map_id notes

def noting (f : σ → α × σ) (note : α → Note κ ε) (s : σ × List (Note κ ε)) :
    α × (σ × List (Note κ ε)) :=
  match f s.1 with
  | (a, state) => (a, (state, s.2 ++ [note a]))

end Walk

structure Routine.Marked (φ κ : Type) where
  site : Site κ
  next : Phase
  frame : φ

namespace Reaction

variable {φ ψ κ ε : Type}

def mapFrame (g : φ → ψ) : Reaction φ κ ε → Reaction ψ κ ε
  | .suspended override frame => .suspended override (g frame)
  | .finished => .finished
  | .raised e => .raised e

end Reaction

variable {σ φ κ ε : Type}

def Walk.Phase.behind : Phase → Phase
  | .enter => .exit
  | _ => .stop

def Routine.recording (code : Routine σ φ κ ε) :
    Routine (σ × List (Note κ ε)) (Routine.Marked φ κ) κ ε where
  resume m s :=
    match noting (code.resume m.frame) (fun r => ⟨m.next, m.site, .ofReaction r⟩) s with
    | (reaction, s) => (reaction.mapFrame (⟨m.site, m.next.behind, ·⟩), s)
  interrupt m s :=
    let phase := if m.next = .exit then Phase.close else .stop
    match noting (code.interrupt m.frame) (fun r => ⟨phase, m.site, .ofReaction r⟩) s with
    | (reaction, s) => (reaction.mapFrame (⟨m.site, m.next, ·⟩), s)

theorem Routine.recording_resume (code : Routine σ φ κ ε) (m : Routine.Marked φ κ)
    (s : σ × List (Note κ ε))
    : code.recording.resume m s =
        ((code.resume m.frame s.1).1.mapFrame (⟨m.site, m.next.behind, ·⟩),
          ((code.resume m.frame s.1).2,
            s.2 ++ [⟨m.next, m.site, .ofReaction (code.resume m.frame s.1).1⟩])) := by
  rfl

theorem Routine.recording_interrupt (code : Routine σ φ κ ε) (m : Routine.Marked φ κ)
    (s : σ × List (Note κ ε))
    : code.recording.interrupt m s =
        ((code.interrupt m.frame s.1).1.mapFrame (⟨m.site, m.next, ·⟩),
          ((code.interrupt m.frame s.1).2,
            s.2 ++ [⟨if m.next = .exit then .close else .stop, m.site,
              .ofReaction (code.interrupt m.frame s.1).1⟩])) := by
  rfl

/-- A visitor that does what a visitor does and notes each call of its code. -/
def Visitor.recording (v : Visitor σ φ κ ε) :
    Visitor (σ × List (Note κ ε)) (Routine.Marked φ κ) κ ε :=
  match v with
  | .callbacks enter exit =>
    .callbacks (fun site => noting (enter site) fun r => ⟨.enter, site, .ofEnter r⟩)
      (fun site => noting (exit site) fun r => ⟨.exit, site, .ofExit r⟩)
  | .procedure call code =>
    .procedure
      (fun site s =>
        match noting (call site) (fun r => ⟨.start, site, .ofCall r⟩) s with
        | (result, s) => (result.map fun frame? => frame?.map (⟨site, .enter, ·⟩), s))
      code.recording

namespace Session

def recording (s : Session σ) (notes : List (Note κ ε)) : Session (σ × List (Note κ ε)) :=
  ⟨(s.state, notes), s.visited, s.maxDepth, s.log⟩

end Session

namespace Visit

def nextPhase : Status → Phase
  | .pending => .enter
  | .suspended => .exit
  | .done => .stop

def Body.recording (site : Site κ) (status : Status) :
    Body σ φ κ ε → Body (σ × List (Note κ ε)) (Routine.Marked φ κ) κ ε
  | .callbacks enter exit =>
    .callbacks (fun site => noting (enter site) fun r => ⟨.enter, site, .ofEnter r⟩)
      (fun site => noting (exit site) fun r => ⟨.exit, site, .ofExit r⟩)
  | .routine code frame? => .routine code.recording (frame?.map (⟨site, nextPhase status, ·⟩))
  | .spent => .spent

def recording (visit : Visit σ φ κ ε) : Visit (σ × List (Note κ ε)) (Routine.Marked φ κ) κ ε :=
  ⟨visit.site, visit.status, visit.body.recording visit.site visit.status⟩

theorem start_recording (v : Visitor σ φ κ ε) (site : Site κ) (s : Session σ)
    (notes : List (Note κ ε))
    : start v.recording site (s.recording notes) =
        ((start v site s).1.map recording,
          (start v site s).2.recording (notes ++ [startNote v site s].filter Note.isRun)) := by
  cases v with
  | callbacks enter exit =>
    simp [start, startNote, Visitor.recording, recording, Body.recording, Note.isRun, Outcome.isRun,
      Except.map]
  | procedure call code =>
    simp only [start, startNote, Visitor.recording, Session.update_eq, Session.recording, noting]
    obtain ⟨result, state⟩ := call site s.state
    cases result with
    | error e => rfl
    | ok frame? =>
      cases frame? with
      | none => rfl
      | some frame => rfl

theorem enter_recording {visit : Visit σ φ κ ε} (fresh : visit.Fresh) (s : Session σ)
    (notes : List (Note κ ε))
    : visit.recording.enter (s.recording notes) =
        ((visit.enter s).1, (visit.enter s).2.1.recording,
          (visit.enter s).2.2.recording (notes ++ [visit.enterNote s].filter Note.isRun)) := by
  obtain ⟨site, status, body⟩ := visit
  cases fresh with
  | callbacks run exit hstatus hbody =>
    subst hstatus hbody
    simp only [enter, enterNote, recording, Body.recording, Session.update_eq, Session.recording,
      noting]
    obtain ⟨result, state⟩ := run site s.state
    cases result <;> rfl
  | routine code frame hstatus hbody =>
    subst hstatus hbody
    simp only [enter, enterNote, recording, Body.recording, Session.update_eq, Session.recording,
      Option.map, Routine.recording_resume]
    obtain ⟨reaction, state⟩ := code.resume frame s.state
    cases reaction with
    | finished =>
      simp only [Reaction.mapFrame, finishEarly_node]
      rfl
    | raised e => rfl
    | suspended override frame => rfl
  | spent hstatus hbody =>
    subst hstatus hbody
    simp [enter, enterNote, recording, Body.recording, withStatus, Note.isRun, Outcome.isRun]

theorem exit_recording {visit : Visit σ φ κ ε} {outcome : Outcome κ ε} {override : Override κ}
    (entered : visit.Entered outcome override) (s : Session σ) (notes : List (Note κ ε))
    : (visit.recording.exit (s.recording notes)).1 = (visit.exit s).1
      ∧ (visit.recording.exit (s.recording notes)).2.2 =
        (visit.exit s).2.2.recording (notes ++ (visit.exitNotes s).filter Note.isRun) := by
  obtain ⟨site, status, body⟩ := visit
  cases entered with
  | callbacks enter run override hstatus hbody =>
    subst hstatus hbody
    simp only [exit, exitNotes, recording, Body.recording, withStatus, Session.update_eq,
      Session.recording, noting, if_true]
    obtain ⟨result, state⟩ := run site s.state
    cases result <;> exact ⟨rfl, rfl⟩
  | routine code frame override hstatus hbody =>
    subst hstatus hbody
    simp only [exit, exitNotes, recording, Body.recording, withStatus, Session.update_eq,
      Session.recording, Option.map, Routine.recording_resume, if_true]
    obtain ⟨reaction, state⟩ := code.resume frame s.state
    cases reaction with
    | finished => exact ⟨rfl, rfl⟩
    | raised e => exact ⟨rfl, rfl⟩
    | suspended again frame' =>
      simp only [Reaction.mapFrame, interrupt_eq, Routine.recording_interrupt]
      obtain ⟨reaction, state'⟩ := code.interrupt frame' state
      cases reaction with
      | finished =>
        simp [secondSuspension_node, Note.isRun, Outcome.isRun, Outcome.ofReaction, nextPhase,
          Phase.behind]
      | raised e =>
        refine ⟨rfl, ?_⟩
        simp [Note.isRun, Outcome.isRun, Outcome.ofReaction, nextPhase, Phase.behind]
      | suspended _ _ =>
        refine ⟨rfl, ?_⟩
        simp [Note.isRun, Outcome.isRun, Outcome.ofReaction, nextPhase, Phase.behind]
  | early code hstatus hbody =>
    subst hstatus hbody
    simp [exit, exitNotes, recording]
  | spent hstatus hbody =>
    subst hstatus hbody
    simp [exit, exitNotes, recording]

theorem abandon_recording [Described ε] {visit : Visit σ φ κ ε} {outcome : Outcome κ ε}
    {override : Override κ} (entered : visit.Entered outcome override) (s : Session σ)
    (notes : List (Note κ ε))
    : visit.recording.abandon (s.recording notes) =
        (visit.abandon s).recording (notes ++ (visit.closeNotes s).filter Note.isRun) := by
  obtain ⟨site, status, body⟩ := visit
  cases entered with
  | routine code frame override hstatus hbody =>
    subst hstatus hbody
    simp only [abandon, close, closeNotes, recording, Body.recording, Session.recording, Option.map,
      interrupt_eq, Routine.recording_interrupt]
    obtain ⟨reaction, state⟩ := code.interrupt frame s.state
    cases reaction <;> rfl
  | callbacks enter run override hstatus hbody =>
    subst hstatus hbody
    simp [abandon, close, closeNotes, recording, Body.recording]
  | early code hstatus hbody =>
    subst hstatus hbody
    simp [abandon, close, closeNotes, recording, Body.recording]
  | spent hstatus hbody =>
    subst hstatus hbody
    simp [abandon, close, closeNotes, recording, Body.recording]

end Visit

namespace Walk

variable [Described ε]

theorem visitAll_recording (v : Visitor σ φ κ ε) (site : Site κ) (context : κ) (route : Route)
    (i : Nat) (children : List (Edge × Outline ε)) (failure : Option ε) (s : Session σ)
    (notes : List (Note κ ε))
    (ih : ∀ entry ∈ children, ∀ context path route (s : Session σ) notes,
      visit v.recording context path entry.2 (s.recording notes) =
        ((visit v context path entry.2 s).1,
          (visit v context path entry.2 s).2.recording
            (notes ++ recorded (history v context path route entry.2 s))))
    : visitAll v.recording context site.path site.node children failure (s.recording notes) =
        ((visitAll v context site.path site.node children failure s).1,
          (visitAll v context site.path site.node children failure s).2.recording
            (notes ++ recorded (historyAll v site context route i children failure s))) := by
  induction children generalizing i s notes with
  | nil =>
    cases failure <;> simp [visitAll, historyAll, recorded, Note.isRun]
  | cons entry rest ihrest =>
    obtain ⟨edge, child⟩ := entry
    have hchild := ih (edge, child) (List.mem_cons_self ..) context
      (site.path.descend site.node edge) (i :: route) s notes
    simp only [visitAll, historyAll]
    rw [hchild, recorded_append]
    generalize visit v context (site.path.descend site.node edge) child s = out
    obtain ⟨result, s'⟩ := out
    cases result with
    | error fault => simp [recorded]
    | ok u =>
      dsimp only
      rw [ihrest (i + 1) s' _ (fun entry h => ih entry (List.mem_cons_of_mem _ h))]
      rw [List.append_assoc]

theorem visit_recording (v : Visitor σ φ κ ε) (context : κ) (path : Path) (route : Route)
    (outline : Outline ε) (s : Session σ) (notes : List (Note κ ε))
    : visit v.recording context path outline (s.recording notes) =
        ((visit v context path outline s).1,
          (visit v context path outline s).2.recording
            (notes ++ recorded (history v context path route outline s))) := by
  induction outline using Outline.induct generalizing context path route s notes with
  | mk node children failure ih =>
    have harrive : (s.recording notes).arrive path.length =
        (s.arrive path.length).recording notes := rfl
    simp only [visit, history, harrive, Visit.start_recording]
    rcases Visit.start_cases v ⟨node, context, path⟩ (s.arrive path.length) with
      ⟨e, s', hstart, _, _⟩ | ⟨current, s', called, hstart, _, _, _, hfresh, _⟩
    · rw [hstart, recorded_cons]
      simp [Except.map, recorded]
    · rw [hstart, recorded_cons]
      simp only [Except.map, Visit.enter_recording hfresh]
      rcases Visit.enter_cases hfresh s' with
        ⟨e, visit', s₁, henter, _, _⟩ | ⟨override, current', s₁, outcome, henter, _, _, hentered, _⟩
      · rw [henter, recorded_cons, List.append_assoc]
        simp [recorded]
      · rw [henter]
        dsimp only
        rw [visitAll_recording v ⟨node, context, path⟩ _ route 0 children failure s₁ _ ih]
        rw [recorded_cons, recorded_append]
        cases visitAll v (override.apply context) path node children failure s₁ with
        | mk result s₂ =>
          cases result with
          | error fault =>
            dsimp only
            rw [Visit.abandon_recording hentered, recorded_onRoute]
            simp only [List.append_assoc]
          | ok u =>
            dsimp only
            rw [(Visit.exit_recording hentered s₂ _).1, (Visit.exit_recording hentered s₂ _).2]
            rw [recorded_onRoute]
            simp only [List.append_assoc]

theorem walk_recording (v : Visitor σ φ κ ε) (strategy : Strategy ε) (root : Node)
    (finite : strategy.FiniteFrom root.value) (context : κ) (s : Session σ)
    : walk v.recording strategy root.value finite context (s.recording []) =
        ((walk v strategy root.value finite context s).1,
          (walk v strategy root.value finite context s).2.recording
            (recorded (events v strategy root finite context s))) := by
  rw [walk_eq_visit, walk_eq_visit, events]
  have hstart : ((s.recording ([] : List (Note κ ε))).restart.record (.walkStarted root.kind)) =
      (s.restart.record (.walkStarted root.kind)).recording [] := rfl
  rw [hstart, visit_recording v context [] [] (strategy.unfolding root finite)]
  rw [List.nil_append]
  generalize visit v context [] (strategy.unfolding root finite)
    (s.restart.record (.walkStarted root.kind)) = out
  obtain ⟨result, s'⟩ := out
  cases result <;> rfl

end Walk

end Arbor
