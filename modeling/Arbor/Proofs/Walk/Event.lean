import Arbor.Walk

/-!
This module says what can be seen of the work on a visit. Every operation on a visit leaves notes:
which phase it was, at which site, and how the code of the visitor came back from it. The notes of
an operation decide its result, and the lemmas about `Visit.start`, `Visit.enter`, `Visit.exit` and
`Visit.abandon` say so; nothing behind this module looks into these operations again.
-/

namespace Arbor

namespace Walk

inductive Phase where
  | start
  | enter
  | listing
  | exit
  | stop
  | close
deriving DecidableEq, Repr

inductive Outcome (κ ε : Type) where
  | idle
  | ready
  | finished
  | returned (override : Override κ)
  | suspended (override : Override κ)
  | raised (error : ε)

namespace Outcome

variable {φ κ ε : Type}

def ofCall : Except ε (Option φ) → Outcome κ ε
  | .ok (some _) => .ready
  | .ok none => .finished
  | .error e => .raised e

def ofEnter : Except ε (Override κ) → Outcome κ ε
  | .ok override => .returned override
  | .error e => .raised e

def ofExit : Except ε Unit → Outcome κ ε
  | .ok () => .finished
  | .error e => .raised e

def ofReaction : Reaction φ κ ε → Outcome κ ε
  | .suspended override _ => .suspended override
  | .finished => .finished
  | .raised e => .raised e

def ofListing : Option ε → Outcome κ ε
  | none => .finished
  | some e => .raised e

def isRun : Outcome κ ε → Bool
  | .idle => false
  | _ => true

def isOpen : Outcome κ ε → Bool
  | .returned _ | .suspended _ => true
  | _ => false

def isSuspended : Outcome κ ε → Bool
  | .suspended _ => true
  | _ => false

def isRaised : Outcome κ ε → Bool
  | .raised _ => true
  | _ => false

def override? : Outcome κ ε → Option κ
  | .returned (.replace context) | .suspended (.replace context) => some context
  | _ => none

end Outcome

structure Note (κ ε : Type) where
  phase : Phase
  site : Site κ
  outcome : Outcome κ ε

namespace Note

variable {κ ε : Type}

/-- The fault that leaves the operation which ends with this note. Closing lets none through. -/
def fault? (note : Note κ ε) : Option (Fault ε) :=
  match note.phase, note.outcome with
  | .close, _ => none
  | .stop, .finished =>
    some (.suspendedTwice note.site.node.kind note.site.node.value note.site.path)
  | .stop, .suspended _ => some .interruptIgnored
  | _, .raised e => some (.raised e)
  | _, _ => none

def logged? [Described ε] (note : Note κ ε) : Option LogEntry :=
  match note.phase, note.outcome with
  | .enter, .finished => some (.neverSuspended note.site.node.kind)
  | .close, .raised e =>
    some (.closeFailed (Fault.raised e).name note.site.node.kind (Fault.raised e).text)
  | .close, .suspended _ =>
    some (.closeFailed (Fault.interruptIgnored : Fault ε).name note.site.node.kind
      (Fault.interruptIgnored : Fault ε).text)
  | _, _ => none

def result (notes : List (Note κ ε)) : Except (Fault ε) Unit :=
  match notes.findSome? fault? with
  | some fault => .error fault
  | none => .ok ()

theorem result_ok {notes : List (Note κ ε)} (h : ∀ note ∈ notes, note.fault? = none)
    : result notes = .ok () := by
  have hnone : notes.findSome? fault? = none := List.findSome?_eq_none_iff.2 h
  rw [result, hnone]

end Note

end Walk

open Walk

namespace Session

variable {σ α : Type}

theorem update_eq (s : Session σ) (f : σ → α × σ)
    : s.update f = ((f s.state).1, { s with state := (f s.state).2 }) := by
  rfl

end Session

namespace Visit

variable {σ φ κ ε : Type}

def startNote (v : Visitor σ φ κ ε) (site : Site κ) (s : Session σ) : Note κ ε :=
  match v with
  | .callbacks _ _ => ⟨.start, site, .idle⟩
  | .procedure call _ => ⟨.start, site, .ofCall (call site s.state).1⟩

def enterNote (visit : Visit σ φ κ ε) (s : Session σ) : Note κ ε :=
  match visit.body with
  | .callbacks run _ => ⟨.enter, visit.site, .ofEnter (run visit.site s.state).1⟩
  | .routine code (some frame) => ⟨.enter, visit.site, .ofReaction (code.resume frame s.state).1⟩
  | .routine _ none | .spent => ⟨.enter, visit.site, .idle⟩

def exitNotes (visit : Visit σ φ κ ε) (s : Session σ) : List (Note κ ε) :=
  match visit.status, visit.body with
  | .suspended, .callbacks _ run => [⟨.exit, visit.site, .ofExit (run visit.site s.state).1⟩]
  | .suspended, .routine code (some frame) =>
    match code.resume frame s.state with
    | (.suspended override frame, state) =>
      [⟨.exit, visit.site, .suspended override⟩,
        ⟨.stop, visit.site, .ofReaction (code.interrupt frame state).1⟩]
    | (reaction, _) => [⟨.exit, visit.site, .ofReaction reaction⟩]
  | _, _ => []

def closeNotes (visit : Visit σ φ κ ε) (s : Session σ) : List (Note κ ε) :=
  match visit.status, visit.body with
  | .suspended, .routine code (some frame) =>
    [⟨.close, visit.site, .ofReaction (code.interrupt frame s.state).1⟩]
  | _, _ => []

inductive Fresh (visit : Visit σ φ κ ε) : Prop where
  | callbacks (enter exit) (status : visit.status = .pending)
      (body : visit.body = .callbacks enter exit)
  | routine (code frame) (status : visit.status = .pending)
      (body : visit.body = .routine code (some frame))
  | spent (status : visit.status = .pending) (body : visit.body = .spent)

inductive Entered (visit : Visit σ φ κ ε) : Outcome κ ε → Override κ → Prop where
  | callbacks (enter exit override) (status : visit.status = .suspended)
      (body : visit.body = .callbacks enter exit) : Entered visit (.returned override) override
  | routine (code frame override) (status : visit.status = .suspended)
      (body : visit.body = .routine code (some frame)) :
      Entered visit (.suspended override) override
  | early (code) (status : visit.status = .done) (body : visit.body = .routine code none) :
      Entered visit .finished .keep
  | spent (status : visit.status = .done) (body : visit.body = .spent) : Entered visit .idle .keep

theorem Entered.apply {visit : Visit σ φ κ ε} {outcome : Outcome κ ε} {override : Override κ}
    (entered : visit.Entered outcome override) (context : κ)
    : override.apply context = outcome.override?.getD context := by
  cases entered with
  | callbacks enter exit override status body => cases override <;> rfl
  | routine code frame override status body => cases override <;> rfl
  | early code status body => rfl
  | spent status body => rfl

theorem start_cases (v : Visitor σ φ κ ε) (site : Site κ) (s : Session σ)
    : (∃ e s',
        start v site s = (.error (.raised e), s')
        ∧ startNote v site s = ⟨.start, site, .raised e⟩
        ∧ s'.log = s.log)
      ∨
      (∃ visit s' outcome,
        start v site s = (.ok visit, s')
        ∧ startNote v site s = ⟨.start, site, outcome⟩
        ∧ outcome.isRaised = false
        ∧ visit.site = site
        ∧ visit.Fresh
        ∧ s'.log = s.log) := by
  cases v with
  | callbacks enter exit =>
    right
    exact ⟨_, _, .idle, rfl, rfl, rfl, rfl, .callbacks enter exit rfl rfl, rfl⟩
  | procedure call code =>
    unfold start startNote
    dsimp only
    rw [Session.update_eq]
    cases hcall : (call site s.state).1 with
    | error e =>
      left
      exact ⟨e, _, rfl, rfl, rfl⟩
    | ok frame? =>
      right
      cases frame? with
      | none => exact ⟨_, _, .finished, rfl, rfl, rfl, rfl, .spent rfl rfl, rfl⟩
      | some frame => exact ⟨_, _, .ready, rfl, rfl, rfl, rfl, .routine code frame rfl rfl, rfl⟩

theorem enter_cases [Described ε] {visit : Visit σ φ κ ε} (fresh : visit.Fresh) (s : Session σ)
    : (∃ e visit' s',
        visit.enter s = (.error (.raised e), visit', s')
        ∧ visit.enterNote s = ⟨.enter, visit.site, .raised e⟩
        ∧ s'.log = s.log)
      ∨
      (∃ override visit' s' outcome,
        visit.enter s = (.ok override, visit', s')
        ∧ visit.enterNote s = ⟨.enter, visit.site, outcome⟩
        ∧ visit'.site = visit.site
        ∧ visit'.Entered outcome override
        ∧ s'.log.toList = s.log.toList ++ (visit.enterNote s).logged?.toList) := by
  cases fresh with
  | callbacks run exit status body =>
    unfold enter enterNote
    rw [body]
    dsimp only
    rw [Session.update_eq]
    cases hrun : (run visit.site s.state).1 with
    | error e =>
      left
      exact ⟨e, _, _, rfl, rfl, rfl⟩
    | ok override =>
      right
      refine ⟨override, _, _, .returned override, rfl, rfl, rfl, .callbacks run exit _ rfl body, ?_⟩
      simp [Outcome.ofEnter, Note.logged?]
  | routine code frame status body =>
    unfold enter enterNote
    rw [body]
    dsimp only
    rw [Session.update_eq]
    cases hrun : (code.resume frame s.state).1 with
    | raised e =>
      left
      exact ⟨e, _, _, rfl, rfl, rfl⟩
    | suspended override frame' =>
      right
      refine ⟨override, _, _, .suspended override, rfl, rfl, rfl, .routine code frame' _ rfl rfl,
        ?_⟩
      simp [Outcome.ofReaction, Note.logged?]
    | finished =>
      right
      dsimp only
      rw [finishEarly_node]
      refine ⟨.keep, _, _, .finished, rfl, rfl, rfl, .early code rfl rfl, ?_⟩
      simp [Outcome.ofReaction, Note.logged?, Session.record]
  | spent status body =>
    right
    unfold enter enterNote
    rw [body]
    refine ⟨.keep, _, _, .idle, rfl, rfl, rfl, .spent rfl body, ?_⟩
    simp [Note.logged?]

inductive Exiting (site : Site κ) : Bool → List (Note κ ε) → Prop where
  | ended : Exiting site false []
  | once (outcome : Outcome κ ε) : Exiting site true [⟨.exit, site, outcome⟩]
  | twice (override outcome) (fault) (h : Note.fault? ⟨.stop, site, outcome⟩ = some fault)
      : Exiting site true [⟨.exit, site, .suspended override⟩, ⟨.stop, site, outcome⟩]

theorem Exiting.entries [Described ε] {site : Site κ} {opened : Bool} {notes : List (Note κ ε)}
    (h : Exiting site opened notes) : notes.filterMap Note.logged? = [] := by
  cases h with
  | ended => rfl
  | once outcome => rfl
  | twice override outcome fault h => rfl

theorem interrupt_eq (code : Routine σ φ κ ε) (frame : φ) (s : Session σ)
    : interrupt code frame s =
        match code.interrupt frame s.state with
        | (.finished, state) => (.ok (), none, { s with state })
        | (.raised e, state) => (.error (.raised e), none, { s with state })
        | (.suspended _ frame, state) =>
          (.error .interruptIgnored, some frame, { s with state }) := by
  unfold interrupt
  rw [Session.update_eq]
  obtain ⟨reaction, state⟩ := code.interrupt frame s.state
  cases reaction <;> rfl

theorem exit_eq_result {visit : Visit σ φ κ ε} {outcome : Outcome κ ε} {override : Override κ}
    (entered : visit.Entered outcome override) (s : Session σ)
    : (visit.exit s).1 = Note.result (visit.exitNotes s)
      ∧ Exiting visit.site outcome.isOpen (visit.exitNotes s)
      ∧ (visit.exit s).2.2.log = s.log := by
  cases entered with
  | callbacks enter run override status body =>
    unfold exit exitNotes
    simp only [status, body, withStatus, if_true, Session.update_eq]
    cases hrun : (run visit.site s.state).1 with
    | error e => exact ⟨rfl, .once _, rfl⟩
    | ok u => exact ⟨rfl, .once _, rfl⟩
  | routine code frame override status body =>
    unfold exit exitNotes
    simp only [status, body, withStatus, if_true, Session.update_eq]
    obtain ⟨reaction, state⟩ := code.resume frame s.state
    cases reaction with
    | finished => exact ⟨rfl, .once _, rfl⟩
    | raised e => exact ⟨rfl, .once _, rfl⟩
    | suspended again frame' =>
      simp only [interrupt_eq]
      obtain ⟨reaction, state'⟩ := code.interrupt frame' state
      cases reaction with
      | finished =>
        dsimp only
        rw [secondSuspension_node]
        exact ⟨rfl, .twice _ _ _ rfl, rfl⟩
      | raised e => exact ⟨rfl, .twice _ _ _ rfl, rfl⟩
      | suspended _ _ => exact ⟨rfl, .twice _ _ _ rfl, rfl⟩
  | early code status body =>
    unfold exit exitNotes
    rw [status, body]
    exact ⟨rfl, .ended, rfl⟩
  | spent status body =>
    unfold exit exitNotes
    rw [status, body]
    exact ⟨rfl, .ended, rfl⟩

theorem not_suspended_of_exitNotes {visit : Visit σ φ κ ε} {s : Session σ} {note : Note κ ε}
    (h : visit.exitNotes s = [note]) : note.outcome.isSuspended = false := by
  unfold exitNotes at h
  split at h
  next enter run _ _ =>
    cases h
    cases (run visit.site s.state).1 <;> rfl
  next code frame _ _ =>
    generalize code.resume frame s.state = out at h
    obtain ⟨reaction, state⟩ := out
    cases reaction with
    | suspended override frame' => simp at h
    | finished | raised e =>
      cases h
      rfl
  next => contradiction

theorem Exiting.mem {site : Site κ} {opened : Bool} {notes : List (Note κ ε)} {note : Note κ ε}
    (h : Exiting site opened notes) (hnote : note ∈ notes)
    : note.site = site ∧ (note.phase = .exit ∨ note.phase = .stop) := by
  cases h with
  | ended => contradiction
  | once outcome =>
    rw [List.mem_singleton.1 hnote]
    exact ⟨rfl, .inl rfl⟩
  | twice override outcome fault h =>
    simp only [List.mem_cons, List.not_mem_nil, or_false] at hnote
    rcases hnote with rfl | rfl
    · exact ⟨rfl, .inl rfl⟩
    · exact ⟨rfl, .inr rfl⟩

theorem abandon_log [Described ε] {visit : Visit σ φ κ ε} {outcome : Outcome κ ε}
    {override : Override κ} (entered : visit.Entered outcome override) (s : Session σ)
    : (visit.abandon s).log.toList = s.log.toList ++ (visit.closeNotes s).filterMap Note.logged?
      ∧ (outcome.isSuspended = false → visit.closeNotes s = [])
      ∧ (outcome.isSuspended = true →
          ∃ result, visit.closeNotes s = [⟨.close, visit.site, result⟩]) := by
  cases entered with
  | routine code frame override status body =>
    unfold abandon close closeNotes
    simp only [status, body, interrupt_eq]
    refine ⟨?_, by simp [Outcome.isSuspended], fun _ => ⟨_, rfl⟩⟩
    obtain ⟨reaction, state⟩ := code.interrupt frame s.state
    cases reaction with
    | finished => simp [Outcome.ofReaction, Note.logged?]
    | raised e => simp [Outcome.ofReaction, Note.logged?, Session.record]
    | suspended _ _ => simp [Outcome.ofReaction, Note.logged?, Session.record]
  | callbacks enter run override status body =>
    unfold abandon close closeNotes
    simp [status, body, Outcome.isSuspended]
  | early code status body =>
    unfold abandon close closeNotes
    simp [status, body, Outcome.isSuspended]
  | spent status body =>
    unfold abandon close closeNotes
    simp [status, body, Outcome.isSuspended]

theorem mem_closeNotes [Described ε] {visit : Visit σ φ κ ε} {outcome : Outcome κ ε}
    {override : Override κ} (entered : visit.Entered outcome override) {s : Session σ}
    {note : Note κ ε} (hnote : note ∈ visit.closeNotes s)
    : note.site = visit.site ∧ note.phase = .close := by
  obtain ⟨_, hnone, hsome⟩ := abandon_log entered s
  cases hsuspended : outcome.isSuspended with
  | false =>
    rw [hnone hsuspended] at hnote
    contradiction
  | true =>
    obtain ⟨result, hresult⟩ := hsome hsuspended
    rw [hresult, List.mem_singleton] at hnote
    rw [hnote]
    exact ⟨rfl, rfl⟩

end Visit

end Arbor
