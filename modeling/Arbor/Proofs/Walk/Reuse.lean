import Arbor.Proofs.Walk.Recording

/-!
This module is about walks that follow one another with one visitor and one strategy. A walk sets
the counters anew and only adds to the log, so the state of the visitor is all that it takes over
from the walks before it. Main statement: every walk of a series goes as the first walk of a new
walker, and its counters and its part of the log tell of this walk alone (`series_independent`).
-/

namespace Arbor

open Walk

namespace Session

variable {σ β : Type}

def fresh (state : σ) : Session σ :=
  { state }

def onLog (s : Session σ) (earlier : Log) : Session σ :=
  { s with log := earlier ++ s.log }

def counters (s : Session σ) : Nat × Nat :=
  (s.visited, s.maxDepth)

def tally (counters : Nat × Nat) (x : Occurrence) : Nat × Nat :=
  (counters.1 + 1, max counters.2 x.path.length)

/--
What an operation does depends on the state of the visitor only. It leaves the counters alone, and
adds to the log what it adds to an empty one.
-/
def Local (op : Session σ → β × Session σ) : Prop :=
  ∀ s, op s =
    ((op (fresh s.state)).1,
      { s with
        state := (op (fresh s.state)).2.state
        log := s.log ++ (op (fresh s.state)).2.log })

theorem Local.onLog {op : Session σ → β × Session σ} (h : Local op) (s : Session σ) (earlier : Log)
    : op (s.onLog earlier) = ((op s).1, (op s).2.onLog earlier) := by
  have hstate : (s.onLog earlier).state = s.state := rfl
  rw [h (s.onLog earlier), hstate, h s]
  simp [Session.onLog, Array.append_assoc]

theorem Local.counters {op : Session σ → β × Session σ} (h : Local op) (s : Session σ)
    : (op s).2.counters = s.counters := by
  rw [h s]
  rfl

theorem onLog_record (s : Session σ) (earlier : Log) (entry : LogEntry)
    : (s.onLog earlier).record entry = (s.record entry).onLog earlier := by
  simp [onLog, record]

theorem foldl_tally (xs : List Occurrence) (visited depth : Nat)
    : xs.foldl tally (visited, depth) =
        (visited + xs.length, (xs.map (·.path.length)).foldl max depth) := by
  induction xs generalizing visited depth with
  | nil => rfl
  | cons x xs ih =>
    rw [List.foldl_cons, tally, ih, List.length_cons, List.map_cons, List.foldl_cons]
    rw [show visited + 1 + xs.length = visited + (xs.length + 1) by omega]

end Session

namespace Visit

open Session

variable {σ φ κ ε : Type}

theorem start_local (v : Visitor σ φ κ ε) (site : Site κ) : Local (start v site) := by
  intro s
  cases v with
  | callbacks enter exit => simp [start, fresh]
  | procedure call code =>
    simp only [start, update_eq, fresh]
    obtain ⟨result, state⟩ := call site s.state
    cases result with
    | error e => simp
    | ok frame? => cases frame? <;> simp

variable (visit : Visit σ φ κ ε)

theorem enter_local
    : Local fun s => (((visit.enter s).1, (visit.enter s).2.1), (visit.enter s).2.2) := by
  intro s
  unfold enter
  cases visit.body with
  | spent => simp [fresh]
  | callbacks run exit =>
    simp only [update_eq, fresh]
    obtain ⟨result, state⟩ := run visit.site s.state
    cases result <;> simp
  | routine code frame? =>
    cases frame? with
    | none => simp [finishEarly_node, record, fresh]
    | some frame =>
      simp only [update_eq, fresh]
      obtain ⟨reaction, state⟩ := code.resume frame s.state
      cases reaction with
      | suspended override frame => simp
      | raised e => simp
      | finished => simp [finishEarly_node, record]

theorem exit_local : Local fun s => ((visit.exit s).1, (visit.exit s).2.2) := by
  intro s
  unfold exit
  by_cases hstatus : visit.status = .suspended
  · simp only [hstatus, if_true, withStatus]
    cases visit.body with
    | spent => simp [fresh]
    | callbacks enter run =>
      simp only [update_eq, fresh]
      obtain ⟨result, state⟩ := run visit.site s.state
      cases result <;> simp
    | routine code frame? =>
      cases frame? with
      | none => simp [fresh]
      | some frame =>
        simp only [update_eq, interrupt_eq, fresh]
        obtain ⟨reaction, state⟩ := code.resume frame s.state
        cases reaction with
        | finished => simp
        | raised e => simp
        | suspended again frame' =>
          dsimp only
          obtain ⟨reaction, state'⟩ := code.interrupt frame' state
          cases reaction <;> simp
  · simp [hstatus, fresh]

theorem abandon_local [Described ε] : Local fun s => ((), visit.abandon s) := by
  intro s
  unfold abandon close
  split
  next code frame hstatus hbody =>
    simp only [interrupt_eq, fresh]
    obtain ⟨reaction, state⟩ := code.interrupt frame s.state
    cases reaction <;> simp [record]
  next h => simp [fresh]

theorem enter_onLog (s : Session σ) (earlier : Log)
    : visit.enter (s.onLog earlier) =
        ((visit.enter s).1, (visit.enter s).2.1, (visit.enter s).2.2.onLog earlier) := by
  have h := visit.enter_local.onLog s earlier
  simp only [Prod.mk.injEq] at h
  exact Prod.ext h.1.1 (Prod.ext h.1.2 h.2)

theorem exit_onLog (s : Session σ) (earlier : Log)
    : (visit.exit (s.onLog earlier)).1 = (visit.exit s).1
      ∧ (visit.exit (s.onLog earlier)).2.2 = (visit.exit s).2.2.onLog earlier := by
  have h := visit.exit_local.onLog s earlier
  simp only [Prod.mk.injEq] at h
  exact h

theorem abandon_onLog [Described ε] (s : Session σ) (earlier : Log)
    : visit.abandon (s.onLog earlier) = (visit.abandon s).onLog earlier := by
  have h := visit.abandon_local.onLog s earlier
  simp only [Prod.mk.injEq, true_and] at h
  exact h

end Visit

namespace Walk

variable {σ φ κ ε : Type} [Described ε]

theorem visitAll_onLog (v : Visitor σ φ κ ε) (context : κ) (path : Path) (parent : Node)
    (children : List (Edge × Outline ε)) (failure : Option ε) (s : Session σ) (earlier : Log)
    (ih : ∀ entry ∈ children, ∀ context path (s : Session σ),
      visit v context path entry.2 (s.onLog earlier) =
        ((visit v context path entry.2 s).1, (visit v context path entry.2 s).2.onLog earlier))
    : visitAll v context path parent children failure (s.onLog earlier) =
        ((visitAll v context path parent children failure s).1,
          (visitAll v context path parent children failure s).2.onLog earlier) := by
  induction children generalizing s with
  | nil => cases failure <;> rfl
  | cons entry rest ihrest =>
    obtain ⟨edge, child⟩ := entry
    rw [visitAll, visitAll, ih (edge, child) (List.mem_cons_self ..)]
    generalize visit v context (path.descend parent edge) child s = out
    obtain ⟨result, s'⟩ := out
    cases result with
    | error fault => rfl
    | ok u => exact ihrest s' (fun entry h => ih entry (List.mem_cons_of_mem _ h))

theorem visit_onLog (v : Visitor σ φ κ ε) (context : κ) (path : Path) (outline : Outline ε)
    (s : Session σ) (earlier : Log)
    : visit v context path outline (s.onLog earlier) =
        ((visit v context path outline s).1,
          (visit v context path outline s).2.onLog earlier) := by
  induction outline using Outline.induct generalizing context path s with
  | mk node children failure ih =>
    have harrive : (s.onLog earlier).arrive path.length = (s.arrive path.length).onLog earlier := rfl
    rw [visit, visit, harrive, (Visit.start_local v _).onLog]
    generalize Visit.start v ⟨node, context, path⟩ (s.arrive path.length) = out
    obtain ⟨result, s₁⟩ := out
    cases result with
    | error fault => rfl
    | ok current =>
      dsimp only
      rw [Visit.enter_onLog]
      generalize current.enter s₁ = out
      obtain ⟨result, current', s₂⟩ := out
      cases result with
      | error fault => rfl
      | ok override =>
        dsimp only
        rw [visitAll_onLog v _ _ _ children failure s₂ earlier (fun entry h _ _ => ih entry h _ _)]
        generalize visitAll v (override.apply context) path node children failure s₂ = out
        obtain ⟨result, s₃⟩ := out
        cases result with
        | error fault =>
          dsimp only
          rw [Visit.abandon_onLog]
        | ok u =>
          dsimp only
          rw [(current'.exit_onLog s₃ earlier).1, (current'.exit_onLog s₃ earlier).2]

theorem historyAll_onLog (v : Visitor σ φ κ ε) (site : Site κ) (context : κ) (route : Route)
    (i : Nat) (children : List (Edge × Outline ε)) (failure : Option ε) (s : Session σ)
    (earlier : Log)
    (ih : ∀ entry ∈ children, ∀ context path route (s : Session σ),
      history v context path route entry.2 (s.onLog earlier) =
        history v context path route entry.2 s)
    : historyAll v site context route i children failure (s.onLog earlier) =
        historyAll v site context route i children failure s := by
  induction children generalizing i s with
  | nil => rfl
  | cons entry rest ihrest =>
    obtain ⟨edge, child⟩ := entry
    rw [historyAll, historyAll, ih (edge, child) (List.mem_cons_self ..), visit_onLog]
    congr 1
    generalize visit v context (site.path.descend site.node edge) child s = out
    obtain ⟨result, s'⟩ := out
    cases result with
    | error fault => rfl
    | ok u => exact ihrest (i + 1) s' (fun entry h => ih entry (List.mem_cons_of_mem _ h))

theorem history_onLog (v : Visitor σ φ κ ε) (context : κ) (path : Path) (route : Route)
    (outline : Outline ε) (s : Session σ) (earlier : Log)
    : history v context path route outline (s.onLog earlier) =
        history v context path route outline s := by
  induction outline using Outline.induct generalizing context path route s with
  | mk node children failure ih =>
    have harrive : (s.onLog earlier).arrive path.length = (s.arrive path.length).onLog earlier := rfl
    have hnote : Visit.startNote v ⟨node, context, path⟩ ((s.arrive path.length).onLog earlier) =
        Visit.startNote v ⟨node, context, path⟩ (s.arrive path.length) := by
      cases v <;> rfl
    simp only [history]
    rw [harrive, hnote, (Visit.start_local v _).onLog]
    congr 1
    generalize Visit.start v ⟨node, context, path⟩ (s.arrive path.length) = out
    obtain ⟨result, s₁⟩ := out
    cases result with
    | error fault => rfl
    | ok current =>
      dsimp only
      rw [Visit.enter_onLog]
      congr 1
      generalize current.enter s₁ = out
      obtain ⟨result, current', s₂⟩ := out
      cases result with
      | error fault => rfl
      | ok override =>
        dsimp only
        rw [historyAll_onLog v _ _ route 0 children failure s₂ earlier ih]
        rw [visitAll_onLog v _ _ _ children failure s₂ earlier (fun _ _ _ _ _ => visit_onLog ..)]
        congr 1
        generalize visitAll v (override.apply context) path node children failure s₂ = out
        obtain ⟨result, s₃⟩ := out
        cases result <;> rfl

theorem counters_visitAll (v : Visitor σ φ κ ε) (site : Site κ) (context : κ) (route : Route)
    (i : Nat) (children : List (Edge × Outline ε)) (failure : Option ε) (s : Session σ)
    (ih : ∀ entry ∈ children, ∀ context path route (s : Session σ),
      (visit v context path entry.2 s).2.counters =
        (occurrencesIn .start (history v context path route entry.2 s)).foldl Session.tally
          s.counters)
    : (visitAll v context site.path site.node children failure s).2.counters =
        (occurrencesIn .start (historyAll v site context route i children failure s)).foldl
          Session.tally s.counters := by
  induction children generalizing i s with
  | nil => cases failure <;> rfl
  | cons entry rest ihrest =>
    obtain ⟨edge, child⟩ := entry
    have hchild := ih (edge, child) (List.mem_cons_self ..) context
      (site.path.descend site.node edge) (i :: route) s
    rw [visitAll, historyAll, occurrencesIn_append, List.foldl_append, ← hchild]
    generalize visit v context (site.path.descend site.node edge) child s = out
    obtain ⟨result, s'⟩ := out
    cases result with
    | error fault => rfl
    | ok u => exact ihrest (i + 1) s' (fun entry h => ih entry (List.mem_cons_of_mem _ h))

theorem counters_visit (v : Visitor σ φ κ ε) (context : κ) (path : Path) (route : Route)
    (outline : Outline ε) (s : Session σ)
    : (visit v context path outline s).2.counters =
        (occurrencesIn .start (history v context path route outline s)).foldl Session.tally
          s.counters := by
  induction outline using Outline.induct generalizing context path route s with
  | mk node children failure ih =>
    have hstart := (Visit.start_local v ⟨node, context, path⟩).counters (s.arrive path.length)
    simp only [visit, history]
    rcases Visit.start_cases v ⟨node, context, path⟩ (s.arrive path.length) with
      ⟨e, s₁, heq, hnote, _⟩ | ⟨current, s₁, called, heq, hnote, _, hsite, hfresh, _⟩
    · rw [heq] at hstart ⊢
      rw [hnote]
      exact hstart
    · rw [heq] at hstart ⊢
      have henter := current.enter_local.counters s₁
      have hown : Session.tally s.counters ⟨route, path, node⟩ = s₁.counters := hstart.symm
      rcases Visit.enter_cases hfresh s₁ with
        ⟨e, current', s₂, heq', hnote', _⟩ |
        ⟨override, current', s₂, outcome, heq', hnote', hsite', hentered, _⟩
      · dsimp only
        rw [heq'] at henter ⊢
        rw [hnote, hnote', hsite]
        exact henter.trans hstart
      · rw [heq'] at henter
        dsimp only at henter ⊢
        rw [heq', hnote, hnote', hsite]
        dsimp only
        have hall := counters_visitAll v ⟨node, context, path⟩ (override.apply context) route 0
          children failure s₂ ih
        have hbegin : ∀ later : List (Event κ ε),
            occurrencesIn .start ((Note.mk .start ⟨node, context, path⟩ called).onRoute route ::
              (Note.mk .enter ⟨node, context, path⟩ outcome).onRoute route :: later) =
              ⟨route, path, node⟩ :: occurrencesIn .start later := by
          intro later
          rw [occurrencesIn_cons, occurrencesIn_cons]
          rfl
        rw [hbegin, List.foldl_cons, hown, ← henter, occurrencesIn_append, List.foldl_append, ← hall]
        generalize visitAll v (override.apply context) path node children failure s₂ = out
        obtain ⟨result, s₃⟩ := out
        -- how the visit ends starts no other
        cases result with
        | error fault =>
          have hend : occurrencesIn .start ((current'.closeNotes s₃).map (·.onRoute route)) = [] := by
            apply occurrencesIn_onRoute
            intro note hnote
            rw [(Visit.mem_closeNotes hentered hnote).2]
            simp
          dsimp only
          rw [hend]
          exact current'.abandon_local.counters s₃
        | ok u =>
          have hend : occurrencesIn .start ((current'.exitNotes s₃).map (·.onRoute route)) = [] := by
            apply occurrencesIn_onRoute
            intro note hnote
            rcases ((Visit.exit_eq_result hentered s₃).2.1.mem hnote).2 with h | h
            · simp [h]
            · simp [h]
          dsimp only
          rw [hend]
          exact current'.exit_local.counters s₃

theorem started_history (v : Visitor σ φ κ ε) (context : κ) (path : Path) (route : Route)
    (outline : Outline ε) (s : Session σ)
    : ∃ rest, occurrencesIn .start (history v context path route outline s) =
        ⟨route, path, outline.node⟩ :: rest := by
  cases outline with
  | mk node children failure =>
    have hcourse := course_visit v context path route node children failure s
    generalize history v context path route (.mk node children failure) s = events at hcourse ⊢
    generalize visit v context path (.mk node children failure) s = out at hcourse
    cases hcourse <;> exact ⟨_, rfl⟩

theorem restart_onLog (s : Session σ) (entry : LogEntry)
    : s.restart.record entry = ((Session.fresh s.state).restart.record entry).onLog s.log := by
  simp [Session.restart, Session.record, Session.fresh, Session.onLog]

theorem walk_onLog (v : Visitor σ φ κ ε) (strategy : Strategy ε) (root : Node)
    (finite : strategy.FiniteFrom root.value) (context : κ) (s : Session σ)
    : walk v strategy root.value finite context s =
        ((walk v strategy root.value finite context (.fresh s.state)).1,
          (walk v strategy root.value finite context (.fresh s.state)).2.onLog s.log) := by
  rw [walk_eq_visit, walk_eq_visit, restart_onLog, visit_onLog]
  generalize visit v context [] _ _ = out
  obtain ⟨result, s'⟩ := out
  have hclosing : closingEntry result (s'.onLog s.log) = closingEntry result s' := by
    cases result <;> rfl
  dsimp only
  rw [hclosing, Session.onLog_record]

theorem events_onLog (v : Visitor σ φ κ ε) (strategy : Strategy ε) (root : Node)
    (finite : strategy.FiniteFrom root.value) (context : κ) (s : Session σ)
    : events v strategy root finite context s =
        events v strategy root finite context (.fresh s.state) := by
  rw [events, events, restart_onLog, history_onLog]

theorem counters_walk (v : Visitor σ φ κ ε) (strategy : Strategy ε) (root : Node)
    (finite : strategy.FiniteFrom root.value) (context : κ) (s : Session σ)
    : (walk v strategy root.value finite context s).2.visited =
        (occurrencesIn .start (events v strategy root finite context s)).length
      ∧ ((occurrencesIn .start (events v strategy root finite context s)).map
          (·.path.length)).max? = some (walk v strategy root.value finite context s).2.maxDepth := by
  have hcounters : (walk v strategy root.value finite context s).2.counters =
      (occurrencesIn .start (events v strategy root finite context s)).foldl Session.tally
        (0, 0) := by
    rw [walk_eq_visit]
    exact counters_visit v context [] [] (strategy.unfolding root finite) _
  -- the root is visited first, and its path is empty
  obtain ⟨rest, hrest⟩ : ∃ rest, occurrencesIn .start (events v strategy root finite context s) =
      ⟨[], [], root⟩ :: rest := by
    have h := started_history v context [] [] (strategy.unfolding root finite)
      (s.restart.record (.walkStarted root.kind))
    rw [strategy.unfolding_node root finite] at h
    exact h
  rw [Session.foldl_tally, Nat.zero_add, Session.counters, Prod.mk.injEq] at hcounters
  refine ⟨hcounters.1, ?_⟩
  rw [hcounters.2, hrest, List.map_cons, List.max?_cons', List.foldl_cons]
  rfl

structure Request (strategy : Strategy ε) (κ : Type) where
  root : Value
  finite : strategy.FiniteFrom root
  context : κ

namespace Request

variable {strategy : Strategy ε}

def walk (r : Request strategy κ) (v : Visitor σ φ κ ε) (s : Session σ) :
    Except (Fault ε) Unit × Session σ :=
  Arbor.walk v strategy r.root r.finite r.context s

def events (r : Request strategy κ) (v : Visitor σ φ κ ε) (s : Session σ) : List (Event κ ε) :=
  match h : Node.ofValue? r.root with
  | none => []
  | some root =>
    history v r.context [] [] (strategy.outline root (r.finite root h))
      (s.restart.record (.walkStarted root.kind))

theorem events_node (v : Visitor σ φ κ ε) (root : Node) (finite : strategy.FiniteFrom root.value)
    (context : κ) (s : Session σ)
    : events ⟨root.value, finite, context⟩ v s = Walk.events v strategy root finite context s := by
  have hroot : Node.ofValue? root.value = some root := Node.ofValue?_eq_some.2 rfl
  unfold events
  split
  next h =>
    rw [hroot] at h
    contradiction
  next n h =>
    have : root = n := by
      rw [hroot] at h
      injection h
    subst this
    rfl

theorem walk_refused {r : Request strategy κ} (h : Node.ofValue? r.root = none)
    (v : Visitor σ φ κ ε) (s : Session σ) : r.walk v s = (.error (.invalidRoot r.root), s) := by
  unfold walk Arbor.walk
  split
  next => rfl
  next n hn =>
    rw [h] at hn
    contradiction

theorem events_refused {r : Request strategy κ} (h : Node.ofValue? r.root = none)
    (v : Visitor σ φ κ ε) (s : Session σ) : r.events v s = [] := by
  unfold events
  split
  next => rfl
  next n hn =>
    rw [h] at hn
    contradiction

end Request

structure Leg (σ κ : Type) (strategy : Strategy ε) where
  request : Request strategy κ
  before : Session σ
  result : Except (Fault ε) Unit
  after : Session σ

def series {strategy : Strategy ε} (v : Visitor σ φ κ ε) :
    List (Request strategy κ) → Session σ → List (Leg σ κ strategy)
  | [], _ => []
  | request :: rest, s =>
    match request.walk v s with
    | (result, after) => ⟨request, s, result, after⟩ :: series v rest after

end Walk

def LogEntry.boundsWalk : LogEntry → Bool
  | .walkStarted _ | .walkFinished _ _ | .walkAborted _ _ => true
  | _ => false

namespace Walk

variable {σ φ κ ε : Type} [Described ε]

theorem boundsWalk_logged? {note : Note κ ε} {entry : LogEntry} (h : note.logged? = some entry)
    : entry.boundsWalk = false := by
  unfold Note.logged? at h
  split at h
  all_goals
    cases h
  all_goals rfl

namespace Leg

variable {strategy : Strategy ε}

def started (leg : Leg σ κ strategy) (v : Visitor σ φ κ ε) : List Occurrence :=
  occurrencesIn .start (leg.request.events v leg.before)

def Logs (leg : Leg σ κ strategy) (root : Node) : Prop :=
  ∃ between last, leg.after.log.toList =
      leg.before.log.toList ++ .walkStarted root.kind :: between ++ [last]
    ∧ (∀ entry ∈ between, entry.boundsWalk = false)
    ∧ (leg.result = .ok () → last = .walkFinished leg.after.visited leg.after.maxDepth)
    ∧ (∀ fault, leg.result = .error fault → last = .walkAborted leg.after.visited fault.name)

/-- What is true of a walk whatever was walked before it. -/
structure Independent (leg : Leg σ κ strategy) (v : Visitor σ φ κ ε) : Prop where
  walk : leg.request.walk v leg.before = (leg.result, leg.after)
  result : leg.result = (leg.request.walk v (.fresh leg.before.state)).1
  state : leg.after.state = (leg.request.walk v (.fresh leg.before.state)).2.state
  log : leg.after.log = leg.before.log ++ (leg.request.walk v (.fresh leg.before.state)).2.log
  events : leg.request.events v leg.before = leg.request.events v (.fresh leg.before.state)
  recorded : leg.request.walk v.recording (leg.before.recording []) =
    (leg.result, leg.after.recording (recorded (leg.request.events v leg.before)))
  visited : leg.request.root.isNode = true → leg.after.visited = (leg.started v).length
  maxDepth : leg.request.root.isNode = true →
    ((leg.started v).map (·.path.length)).max? = some leg.after.maxDepth
  logs : ∀ root : Node, root.value = leg.request.root → leg.Logs root
  refused : leg.request.root.isNode = false →
    leg.result = .error (.invalidRoot leg.request.root)
    ∧ leg.after = leg.before
    ∧ leg.request.events v leg.before = []

theorem independent_refused (v : Visitor σ φ κ ε) {request : Request strategy κ}
    (h : Node.ofValue? request.root = none) (s : Session σ)
    : Independent ⟨request, s, (request.walk v s).1, (request.walk v s).2⟩ v := by
  have hroot : ∀ root : Node, root.value ≠ request.root := by
    intro root hvalue
    rw [Node.ofValue?_eq_some.2 hvalue] at h
    contradiction
  have hnode : ¬ request.root.isNode = true := by
    intro hnode
    obtain ⟨kind, hkind⟩ := Option.isSome_iff_exists.1 hnode
    exact hroot ⟨request.root, kind, hkind⟩ rfl
  refine ⟨rfl, ?_, ?_, ?_, ?_, ?_, fun h => absurd h hnode, fun h => absurd h hnode,
    fun root hvalue => absurd hvalue (hroot root), fun _ => ?_⟩
  · rw [Request.walk_refused h, Request.walk_refused h]
  · rw [Request.walk_refused h, Request.walk_refused h]
    rfl
  · rw [Request.walk_refused h, Request.walk_refused h]
    simp [Session.fresh]
  · rw [Request.events_refused h, Request.events_refused h]
  · rw [Request.walk_refused h, Request.walk_refused h, Request.events_refused h]
    rfl
  · rw [Request.walk_refused h, Request.events_refused h]
    exact ⟨rfl, rfl, rfl⟩

theorem independent_node (v : Visitor σ φ κ ε) (root : Node)
    (finite : strategy.FiniteFrom root.value) (context : κ) (s : Session σ)
    : Independent
        ⟨⟨root.value, finite, context⟩, s, (Arbor.walk v strategy root.value finite context s).1,
          (Arbor.walk v strategy root.value finite context s).2⟩ v := by
  have hwalk := walk_onLog v strategy root finite context s
  have hcounters := counters_walk v strategy root finite context s
  rw [← Request.events_node] at hcounters
  have hnode : root.value.isNode = true := by
    rw [Value.isNode, root.kind_eq]
    rfl
  refine ⟨rfl, ?_, ?_, ?_, ?_, ?_, fun _ => hcounters.1, fun _ => hcounters.2, ?_, ?_⟩
  · rw [hwalk]
    rfl
  · rw [hwalk]
    rfl
  · rw [hwalk]
    rfl
  · rw [Request.events_node, Request.events_node]
    exact events_onLog v strategy root finite context s
  · rw [Request.events_node]
    exact walk_recording v strategy root finite context s
  · intro other hother
    have : other = root := by
      have h : Node.ofValue? root.value = some other := Node.ofValue?_eq_some.2 hother
      rw [Node.ofValue?_eq_some.2 rfl] at h
      injection h with h
      exact h.symm
    subst this
    refine ⟨_, _, log_walk v strategy other finite context s, ?_, ?_, ?_⟩
    · intro entry hentry
      obtain ⟨e, _, he⟩ := List.mem_filterMap.1 hentry
      exact boundsWalk_logged? he
    · intro hresult
      dsimp only at hresult
      rw [hresult]
      rfl
    · intro fault hresult
      dsimp only at hresult
      rw [hresult]
      rfl
  · intro h
    dsimp only at h
    rw [hnode] at h
    contradiction

theorem independent_walk (v : Visitor σ φ κ ε) (request : Request strategy κ) (s : Session σ)
    : Independent ⟨request, s, (request.walk v s).1, (request.walk v s).2⟩ v := by
  cases h : Node.ofValue? request.root with
  | none => exact independent_refused v h s
  | some root =>
    obtain ⟨value, finite, context⟩ := request
    have hvalue : root.value = value := Node.ofValue?_eq_some.1 h
    subst hvalue
    exact independent_node v root finite context s

end Leg

/--
Walks that follow one another do not disturb one another. Each walk of a series has the events and
the result that it would have as the first walk of a new walker from the same state of the visitor.
Its counters are the number of the visits that it started and the greatest depth among them, and its
entries in the log stand between one that says that it began and one that says how it ended. A walk
whose root is refused runs nothing and changes nothing.
-/
theorem series_independent {strategy : Strategy ε} (v : Visitor σ φ κ ε)
    (requests : List (Request strategy κ)) (s : Session σ)
    : (series v requests s).map (·.request) = requests
      ∧ ∀ leg ∈ series v requests s, leg.Independent v := by
  induction requests generalizing s with
  | nil => simp [series]
  | cons request rest ih =>
    obtain ⟨hmap, hlegs⟩ := ih (request.walk v s).2
    refine ⟨?_, ?_⟩
    · rw [series, List.map_cons, hmap]
    · intro leg hleg
      rw [series] at hleg
      rcases List.mem_cons.1 hleg with rfl | hleg
      · exact Leg.independent_walk v request s
      · exact hlegs leg hleg

def sampleThird : List (Script.Rule Unit) :=
  [{ condition := { nth := some (.int 2) }, fail := some ⟨"ValueError", "boom"⟩ }]

def sampleRequests : List (Request (Strategy.all : Strategy Script.Failure) Value) :=
  [⟨sampleRoot.value, sampleFinite, .null⟩, ⟨.null, Strategy.all_finiteFrom _, .null⟩,
    ⟨sampleRoot.value, sampleFinite, .null⟩]

theorem series_independent_sample
    : (series (scripted sampleThird) sampleRequests sampleSession).map
        (fun leg => (leg.result.isOk, leg.after.visited, leg.after.maxDepth, leg.after.log.size)) =
        [(true, 2, 1, 2), (false, 2, 1, 2), (false, 1, 0, 4)]
      ∧ ∀ leg ∈ series (scripted sampleThird) sampleRequests sampleSession,
          leg.Independent (scripted sampleThird) := by
  refine ⟨?_, ?_⟩
  · simp only [series, sampleRequests, Request.walk, walk_eq_visit, unfolding_sampleRoot]
    rfl
  · exact (series_independent (scripted sampleThird) sampleRequests sampleSession).2

end Walk

end Arbor
