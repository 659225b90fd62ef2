import Arbor.Proofs.Walk.History

/-!
This module is about the life of one visit. Behind an `enter` that returned, `exit` and `close` may
be called any number of times. To see what code of the visitor these calls run, a visit is marked:
it does the same, and each run of its code leaves a mark in the state. Main statement: the first
call settles the visit for good if and only if it is `exit`, or it is `close` and returns
(`settles_iff`).
-/

namespace Arbor

namespace Visit

inductive Call where
  | exit
  | close
deriving DecidableEq, Repr

inductive Activity where
  | secondPhase
  | interruption
deriving DecidableEq, Repr

variable {σ φ κ ε ν α : Type}

def marking (activity : Activity) (f : σ → α × σ) (s : σ × List Activity) :
    α × (σ × List Activity) :=
  match f s.1 with
  | (a, state) => (a, (state, s.2 ++ [activity]))

end Visit

open Visit

variable {σ φ κ ε ν : Type}

/-- A routine behind its first phase: all that resuming it runs is its second phase. -/
def Routine.marked (code : Routine σ φ κ ε) : Routine (σ × List Activity) φ κ ε where
  resume frame := marking .secondPhase (code.resume frame)
  interrupt frame := marking .interruption (code.interrupt frame)

def Session.marked (s : Session σ) (marks : List Activity) : Session (σ × List Activity) :=
  ⟨(s.state, marks), s.visited, s.maxDepth, s.log⟩

namespace Visit

def Body.marked : Body σ φ κ ε ν → Body (σ × List Activity) φ κ ε ν
  | .callbacks enter exit =>
    .callbacks
      (fun site s =>
        match enter site s.1 with
        | (result, state) => (result, (state, s.2)))
      (fun site => marking .secondPhase (exit site))
  | .routine code frame? => .routine code.marked frame?
  | .spent => .spent

def marked (visit : Visit σ φ κ ε ν) : Visit (σ × List Activity) φ κ ε ν :=
  ⟨visit.site, visit.status, visit.body.marked⟩

inductive Effect : Status → Call → Except (Fault ε) Unit → Status → List Activity → Prop where
  | ended (call : Call) : Effect .done call (.ok ()) .done []
  | bare (call : Call) : Effect .suspended call (.ok ()) .done []
  | exited (result : Except (Fault ε) Unit) : Effect .suspended .exit result .done [.secondPhase]
  | stopped (fault : Fault ε) :
      Effect .suspended .exit (.error fault) .done [.secondPhase, .interruption]
  | closed : Effect .suspended .close (.ok ()) .done [.interruption]
  | refused (fault : Fault ε) :
      Effect .suspended .close (.error fault) .suspended [.interruption]

namespace Effect

variable {status status' : Status} {call : Call} {result : Except (Fault ε) Unit}
  {marks : List Activity}

theorem status_ne (h : Effect status call result status' marks) : status' ≠ .pending := by
  cases h <;> simp

theorem done_iff (h : Effect status call result status' marks)
    : status' = .done ↔ call = .exit ∨ result = .ok () := by
  cases h <;> simp

theorem once (h : Effect status call result status' marks) : marks.count .secondPhase ≤ 1 := by
  cases h <;> decide

theorem byExit (h : Effect status call result status' marks) (hmem : .secondPhase ∈ marks)
    : status = .suspended ∧ call = .exit := by
  cases h with
  | ended | bare => contradiction
  | exited | stopped => exact ⟨rfl, rfl⟩
  | closed | refused => simp at hmem

end Effect

theorem update_marked (s : Session σ) (marks : List Activity) (activity : Activity) (f : σ → α × σ)
    : (s.marked marks).update (marking activity f) =
        ((s.update f).1, (s.update f).2.marked (marks ++ [activity])) := by
  rfl

theorem interrupt_marked (code : Routine σ φ κ ε) (frame : φ) (s : Session σ)
    (marks : List Activity)
    : interrupt code.marked frame (s.marked marks) =
        ((interrupt code frame s).1, (interrupt code frame s).2.1,
          (interrupt code frame s).2.2.marked (marks ++ [.interruption])) := by
  unfold interrupt
  rw [Routine.marked, update_marked]
  generalize s.update (code.interrupt frame) = out
  obtain ⟨reaction, s'⟩ := out
  cases reaction with
  | finished => rfl
  | raised e => rfl
  | suspended override frame => rfl

theorem close_effect {visit : Visit σ φ κ ε ν} (h : visit.status = .suspended) (s : Session σ)
    (marks : List Activity)
    : ∃ added,
        Effect .suspended .close (visit.close s).1 (visit.close s).2.1.status added
        ∧ visit.marked.close (s.marked marks) =
          ((visit.close s).1, (visit.close s).2.1.marked,
            (visit.close s).2.2.marked (marks ++ added)) := by
  obtain ⟨site, status, body⟩ := visit
  subst h
  cases body with
  | spent => exact ⟨[], .bare _, by simp [close, marked, Body.marked, withStatus]⟩
  | callbacks enter run => exact ⟨[], .bare _, by simp [close, marked, Body.marked, withStatus]⟩
  | routine code frame? =>
    cases frame? with
    | none => exact ⟨[], .bare _, by simp [close, marked, Body.marked, withStatus]⟩
    | some frame =>
      refine ⟨[.interruption], ?_⟩
      simp only [close, marked, Body.marked, interrupt_marked]
      generalize interrupt code frame s = out
      obtain ⟨result, frame?, s'⟩ := out
      cases result with
      | ok u => exact ⟨.closed, rfl⟩
      | error fault => exact ⟨.refused _, rfl⟩

variable [Visitable ν]

def perform (visit : Visit σ φ κ ε ν) (call : Call) (s : Session σ) :
    Except (Fault ε) Unit × Visit σ φ κ ε ν × Session σ :=
  match call with
  | .exit => visit.exit s
  | .close => visit.close s

def performAll (visit : Visit σ φ κ ε ν) : List Call → Session σ →
    List (Except (Fault ε) Unit) × Visit σ φ κ ε ν × Session σ
  | [], s => ([], visit, s)
  | call :: rest, s =>
    match visit.perform call s with
    | (result, visit, s) =>
      match visit.performAll rest s with
      | (results, visit, s) => (result :: results, visit, s)

def activities (visit : Visit σ φ κ ε ν) (calls : List Call) (s : Session σ) : List Activity :=
  (visit.marked.performAll calls (s.marked [])).2.2.state.2

theorem status_enter {visit entered : Visit σ φ κ ε ν} {s s' : Session σ} {override : Override κ}
    (h : visit.enter s = (.ok override, entered, s')) : entered.status ≠ .pending := by
  have hearly : ∀ code t, visit.finishEarly code t = (.ok override, entered, s') →
      entered.status ≠ .pending := by
    intro code t h
    unfold finishEarly at h
    dsimp only at h
    split at h
    · cases h
      simp [withStatus, withBody]
    · cases h
  unfold enter at h
  split at h
  · cases h
    simp [withStatus]
  · split at h
    · cases h
      simp [withStatus]
    · cases h
  · exact hearly _ _ h
  · split at h
    · cases h
      simp [withStatus, withBody]
    · exact hearly _ _ h
    · cases h

theorem exit_effect {visit : Visit σ φ κ ε ν} (h : visit.status = .suspended) (s : Session σ)
    (marks : List Activity)
    : ∃ added,
        Effect .suspended .exit (visit.exit s).1 (visit.exit s).2.1.status added
        ∧ visit.marked.exit (s.marked marks) =
          ((visit.exit s).1, (visit.exit s).2.1.marked,
            (visit.exit s).2.2.marked (marks ++ added)) := by
  obtain ⟨site, status, body⟩ := visit
  subst h
  cases body with
  | spent => exact ⟨[], .bare _, by simp [exit, marked, Body.marked, withStatus]⟩
  | callbacks enter run =>
    refine ⟨[.secondPhase], ?_⟩
    simp only [exit, marked, Body.marked, withStatus, if_true, update_marked]
    generalize s.update (run site) = out
    obtain ⟨result, s'⟩ := out
    cases result with
    | ok u => exact ⟨.exited _, rfl⟩
    | error e => exact ⟨.exited _, rfl⟩
  | routine code frame? =>
    cases frame? with
    | none => exact ⟨[], .bare _, by simp [exit, marked, Body.marked, withStatus]⟩
    | some frame =>
      have hresume : code.marked.resume frame = marking .secondPhase (code.resume frame) := rfl
      simp only [exit, marked, Body.marked, withStatus, if_true, hresume, update_marked]
      generalize s.update (code.resume frame) = out
      obtain ⟨reaction, s'⟩ := out
      cases reaction with
      | finished => exact ⟨[.secondPhase], .exited _, rfl⟩
      | raised e => exact ⟨[.secondPhase], .exited _, rfl⟩
      | suspended override frame =>
        refine ⟨[.secondPhase, .interruption], ?_⟩
        simp only [interrupt_marked, List.append_assoc]
        generalize interrupt code frame s' = out
        obtain ⟨result, frame?, s''⟩ := out
        cases result with
        | ok u => exact ⟨.stopped _, rfl⟩
        | error fault => exact ⟨.stopped _, rfl⟩

theorem perform_done {visit : Visit σ φ κ ε ν} (h : visit.status = .done) (call : Call)
    (s : Session σ) : visit.perform call s = (.ok (), visit, s) := by
  obtain ⟨site, status, body⟩ := visit
  subst h
  cases call with
  | exit => simp [perform, exit]
  | close => simp [perform, close, withStatus]

theorem performAll_done {visit : Visit σ φ κ ε ν} (h : visit.status = .done) (calls : List Call)
    (s : Session σ) : visit.performAll calls s = (calls.map fun _ => .ok (), visit, s) := by
  induction calls with
  | nil => rfl
  | cons call rest ih =>
    rw [performAll, perform_done h]
    dsimp only
    rw [ih, List.map_cons]

theorem perform_effect {visit : Visit σ φ κ ε ν} (h : visit.status ≠ .pending) (call : Call)
    (s : Session σ) (marks : List Activity)
    : ∃ added,
        Effect visit.status call (visit.perform call s).1 (visit.perform call s).2.1.status added
        ∧ visit.marked.perform call (s.marked marks) =
          ((visit.perform call s).1, (visit.perform call s).2.1.marked,
            (visit.perform call s).2.2.marked (marks ++ added)) := by
  cases hstatus : visit.status with
  | pending => contradiction
  | suspended =>
    cases call with
    | exit => exact exit_effect hstatus s marks
    | close => exact close_effect hstatus s marks
  | done =>
    have hmarked : visit.marked.status = .done := hstatus
    rw [perform_done hstatus, perform_done hmarked]
    dsimp only
    rw [hstatus]
    exact ⟨[], .ended call, by rw [List.append_nil]⟩

theorem performAll_marked {visit : Visit σ φ κ ε ν} (h : visit.status ≠ .pending)
    (calls : List Call) (s : Session σ) (marks : List Activity)
    : ∃ added,
        visit.marked.performAll calls (s.marked marks) =
          ((visit.performAll calls s).1, (visit.performAll calls s).2.1.marked,
            (visit.performAll calls s).2.2.marked (marks ++ added)) := by
  induction calls generalizing visit s marks with
  | nil => exact ⟨[], by rw [List.append_nil]; rfl⟩
  | cons call rest ih =>
    obtain ⟨added, heffect, hmarked⟩ := perform_effect h call s marks
    rw [performAll, performAll, hmarked]
    generalize visit.perform call s = out at heffect
    obtain ⟨result, visit', s'⟩ := out
    obtain ⟨more, hmore⟩ := ih heffect.status_ne s' (marks ++ added)
    refine ⟨added ++ more, ?_⟩
    dsimp only
    rw [hmore, List.append_assoc]

theorem performAll_activities {visit : Visit σ φ κ ε ν} (h : visit.status ≠ .pending)
    (calls : List Call) (s : Session σ)
    : visit.marked.performAll calls (s.marked []) =
        ((visit.performAll calls s).1, (visit.performAll calls s).2.1.marked,
          (visit.performAll calls s).2.2.marked (visit.activities calls s)) := by
  obtain ⟨added, hadded⟩ := performAll_marked h calls s []
  have : visit.activities calls s = added := by
    rw [activities, hadded]
    rfl
  rw [hadded, this, List.nil_append]

/--
The first call on an entered visit settles it: the visit is done, whether the call returns or fails.
The second phase runs at most once, and only if the visit was suspended and this call is `exit`. No
later call runs code of the visitor or fails.
-/
structure Settles (entered : Visit σ φ κ ε ν) (first : Call) (rest : List Call) (s : Session σ) :
    Prop where
  done : (entered.perform first s).2.1.status = .done
  once : (entered.activities (first :: rest) s).count .secondPhase ≤ 1
  byExit : .secondPhase ∈ entered.activities (first :: rest) s →
    entered.status = .suspended ∧ first = .exit
  noCode : entered.activities (first :: rest) s = entered.activities [first] s
  noFault : (entered.performAll (first :: rest) s).1 =
    (entered.perform first s).1 :: rest.map fun _ => .ok ()

theorem activities_cons {visit : Visit σ φ κ ε ν} {call : Call} {s : Session σ}
    {marks : List Activity}
    (h : visit.marked.perform call (s.marked []) =
      ((visit.perform call s).1, (visit.perform call s).2.1.marked,
        (visit.perform call s).2.2.marked marks))
    (done : (visit.perform call s).2.1.status = .done) (rest : List Call)
    : visit.activities (call :: rest) s = marks := by
  have hmarked : (visit.perform call s).2.1.marked.status = .done := done
  rw [activities, performAll, h]
  dsimp only
  rw [performAll_done hmarked]
  rfl

theorem settles_of_done {entered : Visit σ φ κ ε ν} (h : entered.status ≠ .pending) {first : Call}
    {s : Session σ} (done : (entered.perform first s).2.1.status = .done) (rest : List Call)
    : entered.Settles first rest s := by
  obtain ⟨marks, heffect, hmarked⟩ := perform_effect h first s []
  have hactivities := activities_cons hmarked done
  refine ⟨done, ?_, ?_, ?_, ?_⟩
  · rw [hactivities]
    exact heffect.once
  · rw [hactivities]
    exact heffect.byExit
  · rw [hactivities, hactivities]
  · rw [performAll]
    dsimp only
    rw [performAll_done done]

/--
The life of a visit behind an `enter` that returned. The marks tell what code runs, and the first
call settles the visit unless it is a `close` that fails: such a visit stays suspended.
-/
theorem settles_iff {visit entered : Visit σ φ κ ε ν} {s s' : Session σ} {override : Override κ}
    (h : visit.enter s = (.ok override, entered, s')) (first : Call) (rest : List Call)
    (t : Session σ)
    : entered.marked.performAll (first :: rest) (t.marked []) =
        ((entered.performAll (first :: rest) t).1,
          (entered.performAll (first :: rest) t).2.1.marked,
          (entered.performAll (first :: rest) t).2.2.marked
            (entered.activities (first :: rest) t))
      ∧ (entered.Settles first rest t ↔ first = .exit ∨ (entered.close t).1 = .ok ()) := by
  have hstatus : entered.status ≠ .pending := status_enter h
  refine ⟨performAll_activities hstatus (first :: rest) t, ?_⟩
  obtain ⟨_, heffect, _⟩ := perform_effect hstatus first t []
  have hdone : entered.Settles first rest t ↔
      first = .exit ∨ (entered.perform first t).1 = .ok () := by
    rw [← heffect.done_iff]
    exact ⟨Settles.done, fun done => settles_of_done hstatus done rest⟩
  rw [hdone]
  cases first with
  | exit => simp
  | close => rfl

def sampleVisit (onInterrupt : Script.OnInterrupt) :
    Visit (Script.State Unit) (Script.Frame Unit) Value Script.Failure :=
  let site : Site Value := ⟨Walk.sampleRoot, .null, []⟩
  ⟨site, .pending, .routine (Script.routine ⟨[{ onInterrupt }], false⟩) (some (.start site))⟩

def sampleEntered (onInterrupt : Script.OnInterrupt) :
    Except (Fault Script.Failure) (Override Value) ×
      Visit (Script.State Unit) (Script.Frame Unit) Value Script.Failure ×
      Session (Script.State Unit) :=
  (sampleVisit onInterrupt).enter Walk.sampleSession

theorem settles_iff_sample
    : (sampleEntered .leave).1.toOption.isSome = true
      ∧ (sampleEntered .leave).2.1.Settles .close [.exit, .close] (sampleEntered .leave).2.2 := by
  refine ⟨rfl, ?_⟩
  have henter : sampleEntered .leave =
      (.ok .bare, (sampleEntered .leave).2.1, (sampleEntered .leave).2.2) :=
    rfl
  exact (settles_iff henter .close [.exit, .close] _).2.2 (.inr rfl)

/-- A routine that is suspended in spite of being closed still runs when it is exited. -/
theorem not_settles_sample
    : (sampleEntered .suspend).1.toOption.isSome = true
      ∧ ((sampleEntered .suspend).2.1.perform .close (sampleEntered .suspend).2.2).2.1.status =
        .suspended
      ∧ (sampleEntered .suspend).2.1.activities [.close, .exit] (sampleEntered .suspend).2.2 =
        [.interruption, .secondPhase]
      ∧ ¬ (sampleEntered .suspend).2.1.Settles .close [.exit] (sampleEntered .suspend).2.2 := by
  have hstatus : ((sampleEntered .suspend).2.1.perform .close
      (sampleEntered .suspend).2.2).2.1.status = .suspended :=
    rfl
  refine ⟨rfl, hstatus, rfl, ?_⟩
  intro h
  have := h.done
  rw [hstatus] at this
  contradiction

end Visit

end Arbor
