import Arbor.Proofs.Walk.Abort

/-!
This module is about routines that are suspended a second time, where their second phase should have
ended. Such a routine is interrupted at once, and this ends the walk. The walk reports the breach of
the protocol if and only if the interruption ends the routine without an error; otherwise what comes
out of the interruption takes the place of the report (`second_suspension`).
-/

namespace Arbor

namespace Walk

variable {σ φ κ ε : Type}

def StopsSecond : List (Event κ ε) → Prop
  | [] => True
  | e :: later =>
    (e.phase = .exit → e.outcome.isSuspended = true →
      ∃ outcome rest fault, later = ⟨⟨.stop, e.site, outcome⟩, e.route⟩ :: rest
        ∧ Note.fault? ⟨.stop, e.site, outcome⟩ = some fault)
    ∧ StopsSecond later

namespace StopsSecond

variable {events before after later : List (Event κ ε)}

theorem append (h : StopsSecond events) (hlater : StopsSecond later)
    : StopsSecond (events ++ later) := by
  induction events with
  | nil => exact hlater
  | cons e events ih =>
    refine ⟨?_, ih h.2⟩
    intro hphase hsuspended
    obtain ⟨outcome, rest, fault, rfl, hfault⟩ := h.1 hphase hsuspended
    exact ⟨outcome, rest ++ later, fault, rfl, hfault⟩

theorem of_forall (h : ∀ e ∈ events, e.phase = .exit → e.outcome.isSuspended = false)
    : StopsSecond events := by
  induction events with
  | nil => trivial
  | cons e events ih =>
    refine ⟨?_, ih fun e he => h e (List.mem_cons_of_mem _ he)⟩
    intro hphase hsuspended
    rw [h e (List.mem_cons_self ..) hphase] at hsuspended
    contradiction

theorem next {e : Event κ ε} (h : StopsSecond (before ++ e :: after)) (hphase : e.phase = .exit)
    (hsuspended : e.outcome.isSuspended = true)
    : ∃ outcome rest fault, after = ⟨⟨.stop, e.site, outcome⟩, e.route⟩ :: rest
        ∧ Note.fault? ⟨.stop, e.site, outcome⟩ = some fault := by
  induction before with
  | nil => exact h.1 hphase hsuspended
  | cons first before ih => exact ih h.2

theorem exitNotes {visit : Visit σ φ κ ε} {outcome : Outcome κ ε} {override : Override κ}
    (entered : visit.Entered outcome override) (s : Session σ) (route : Route)
    : StopsSecond ((visit.exitNotes s).map (·.onRoute route)) := by
  have hexiting := (Visit.exit_eq_result entered s).2.1
  generalize hnotes : visit.exitNotes s = notes at hexiting ⊢
  generalize outcome.isOpen = opened at hexiting
  cases hexiting with
  | ended => trivial
  | once outcome =>
    apply of_forall
    intro e he _
    rw [List.map_singleton, List.mem_singleton] at he
    rw [he]
    exact Visit.not_suspended_of_exitNotes hnotes
  | twice again outcome fault hfault =>
    refine ⟨fun _ _ => ⟨outcome, [], fault, rfl, hfault⟩, ?_, trivial⟩
    intro hphase
    contradiction

end StopsSecond

theorem recorded_eq_append {events : List (Event κ ε)} {before after : List (Note κ ε)}
    {note : Note κ ε} (h : recorded events = before ++ note :: after)
    : ∃ earlier route later, events = earlier ++ note.onRoute route :: later
        ∧ recorded later = after := by
  unfold recorded at h
  obtain ⟨notes, rest, hsplit, _, hrest⟩ := List.filter_eq_append_iff.1 h
  obtain ⟨skipped, notes', rfl, _, _, hafter⟩ := List.filter_eq_cons_iff.1 hrest
  rw [← List.append_assoc] at hsplit
  obtain ⟨earlier, later, rfl, _, hlater⟩ := List.map_eq_append_iff.1 hsplit
  obtain ⟨e, later, rfl, rfl, rfl⟩ := List.map_eq_cons_iff.1 hlater
  exact ⟨earlier, e.route, later, rfl, hafter⟩

theorem Tells.eq_error {before after : List (Event κ ε)} {bad : Event κ ε} {fault : Fault ε}
    {result : Except (Fault ε) Unit} (h : Tells (before ++ bad :: after) result)
    (hbad : bad.fault? = some fault) : result = .error fault := by
  have hunwinds : Unwinds before bad after := h.unwinds (Option.ne_none_iff_exists'.2 ⟨fault, hbad⟩)
  rw [h.result_eq, Note.result, List.map_append, List.findSome?_append, hunwinds.no_fault,
    List.map_cons, List.findSome?_cons, hbad]
  rfl

/-- How a walk ends when a routine that was suspended a second time has been interrupted. -/
inductive EndsStopped (site : Site κ) : Outcome κ ε → Except (Fault ε) Unit → Prop where
  | finished : EndsStopped site .finished
      (.error (.suspendedTwice site.node.kind site.node.value site.path))
  | raised (error : ε) : EndsStopped site (.raised error) (.error (.raised error))
  | suspended (again : Override κ) : EndsStopped site (.suspended again) (.error .interruptIgnored)

theorem endsStopped_of_fault {site : Site κ} {outcome : Outcome κ ε} {fault : Fault ε}
    (h : Note.fault? ⟨.stop, site, outcome⟩ = some fault)
    : EndsStopped site outcome (.error fault) := by
  cases outcome with
  | finished =>
    cases h
    exact .finished
  | raised e =>
    cases h
    exact .raised e
  | suspended again =>
    cases h
    exact .suspended again
  | idle | ready | returned override => contradiction

theorem EndsStopped.isRun {site : Site κ} {outcome : Outcome κ ε} {result : Except (Fault ε) Unit}
    (h : EndsStopped site outcome result) : Note.isRun ⟨.stop, site, outcome⟩ = true := by
  cases h with
  | finished => rfl
  | raised e => rfl
  | suspended again => rfl

variable [Described ε]

theorem stopsSecond_historyAll (v : Visitor σ φ κ ε) (site : Site κ) (context : κ) (route : Route)
    (i : Nat) (children : List (Edge × Outline ε)) (failure : Option ε) (s : Session σ)
    (ih : ∀ entry ∈ children, ∀ context path route (s : Session σ),
      StopsSecond (history v context path route entry.2 s))
    : StopsSecond (historyAll v site context route i children failure s) := by
  induction children generalizing i s with
  | nil =>
    rw [historyAll]
    apply StopsSecond.of_forall
    intro e he hphase
    rw [List.mem_singleton.1 he] at hphase
    contradiction
  | cons entry rest ihrest =>
    obtain ⟨edge, child⟩ := entry
    rw [historyAll]
    apply StopsSecond.append
    · exact ih (edge, child) (List.mem_cons_self ..) _ _ _ _
    · split
      · trivial
      · exact ihrest _ _ fun entry h => ih entry (List.mem_cons_of_mem _ h)

theorem stopsSecond_history (v : Visitor σ φ κ ε) (context : κ) (path : Path) (route : Route)
    (outline : Outline ε) (s : Session σ)
    : StopsSecond (history v context path route outline s) := by
  induction outline using Outline.induct generalizing context path route s with
  | mk node children failure ih =>
    have hcourse := course_visit v context path route node children failure s
    generalize history v context path route (.mk node children failure) s = events at hcourse ⊢
    generalize visit v context path (.mk node children failure) s = out at hcourse
    have below := fun context' s' =>
      stopsSecond_historyAll v ⟨node, context, path⟩ context' route 0 children failure s' ih
    -- only the end of a visit that was not cut short can be a second suspension
    cases hcourse with
    | startFails error s' log => exact ⟨by simp, trivial⟩
    | enterFails called error s' hcalled log => exact ⟨by simp, by simp, trivial⟩
    | abandoned called outcome override current s₁ s₂ fault hcalled hsite entered log hbelow =>
      refine ⟨by simp, by simp, (below _ s₁).append (.of_forall ?_)⟩
      intro e he hphase
      obtain ⟨note, hnote, rfl⟩ := List.mem_map.1 he
      have hclose : note.phase = .close := (Visit.mem_closeNotes entered hnote).2
      rw [Note.onRoute, hclose] at hphase
      contradiction
    | completed called outcome override current s₁ s₂ hcalled hsite entered log hbelow =>
      exact ⟨by simp, by simp, (below _ s₁).append (.exitNotes entered s₂ route)⟩

def told (v : Visitor σ φ κ ε) (strategy : Strategy ε) (root : Node)
    (finite : strategy.FiniteFrom root.value) (context : κ) (s : Session σ) : List (Note κ ε) :=
  (walk v.recording strategy root.value finite context (s.recording [])).2.state.2

theorem told_eq_recorded (v : Visitor σ φ κ ε) (strategy : Strategy ε) (root : Node)
    (finite : strategy.FiniteFrom root.value) (context : κ) (s : Session σ)
    : told v strategy root finite context s =
        recorded (events v strategy root finite context s) := by
  rw [told, walk_recording]
  rfl

def Reports (result : Except (Fault ε) Unit) (site : Site κ) : Prop :=
  ∃ fault, result = .error fault
    ∧ fault.name = "VisitorProtocolViolation"
    ∧ fault.diagnostic? = some {
        code := .protocolViolation
        message := s!"visitor yielded more than once for {site.node.kind}"
        location := Location.ofValue? site.node.value none
        path := some site.path }

theorem EndsStopped.reports_iff {site : Site κ} {outcome : Outcome κ ε}
    {result : Except (Fault ε) Unit} (h : EndsStopped site outcome result)
    : Reports result site ↔ outcome = .finished := by
  constructor
  · rintro ⟨fault, rfl, _, hdiagnostic⟩
    cases h with
    | finished => rfl
    | raised e => contradiction
    | suspended again => contradiction
  · rintro rfl
    cases h
    exact ⟨_, rfl, rfl, rfl⟩

/--
Second suspensions. The routine is interrupted at once, and behind that routines are only closed.
The walk reports the second suspension, with the kind, the location and the path of the node, if and
only if the interruption ends the routine without an error. An error that comes out of the
interruption, or a routine that is suspended in spite of it, takes the place of this report.
-/
theorem second_suspension (v : Visitor σ φ κ ε) (strategy : Strategy ε) (root : Node)
    (finite : strategy.FiniteFrom root.value) (context : κ) (s : Session σ)
    {before after : List (Note κ ε)} {site : Site κ} {override : Override κ}
    (h : told v strategy root finite context s =
      before ++ ⟨.exit, site, .suspended override⟩ :: after)
    : ∃ route outcome closings,
        ⟨route, site.path, site.node⟩ ∈ (strategy.unfolding root finite).preorder [] []
        ∧ after = ⟨.stop, site, outcome⟩ :: closings
        ∧ (∀ note ∈ closings, note.phase = .close)
        ∧ EndsStopped site outcome (walk v strategy root.value finite context s).1
        ∧ (Reports (walk v strategy root.value finite context s).1 site ↔ outcome = .finished) := by
  rw [told_eq_recorded] at h
  obtain ⟨earlier, route, later, hevents, rfl⟩ := recorded_eq_append h
  have hmem : (Note.mk .exit site (.suspended override)).onRoute route ∈
      events v strategy root finite context s := by
    rw [hevents]
    simp
  have hstops : StopsSecond (events v strategy root finite context s) :=
    stopsSecond_history v context [] [] _ _
  have htells := tells_walk v strategy root finite context s
  rw [hevents] at hstops
  obtain ⟨outcome, rest, fault, rfl, hfault⟩ := hstops.next rfl rfl
  -- the interruption is the event that ends the walk
  rw [hevents, List.append_cons] at htells
  have hunwinds := htells.unwinds (Option.ne_none_iff_exists'.2 ⟨fault, hfault⟩)
  have hends : EndsStopped site outcome (walk v strategy root.value finite context s).1 := by
    rw [htells.eq_error hfault]
    exact endsStopped_of_fault hfault
  refine ⟨route, outcome, recorded rest, occurrence_history hmem, ?_, ?_, hends, hends.reports_iff⟩
  · rw [Note.onRoute, recorded, List.map_cons, List.filter_cons_of_pos hends.isRun]
    rfl
  · intro note hnote
    obtain ⟨e, he, rfl⟩ := List.mem_map.1 (List.mem_of_mem_filter hnote)
    exact hunwinds.closes e he

def sampleTopSite : Site Value :=
  ⟨sampleRoot, .null, []⟩

def sampleLeafSite : Site Value :=
  ⟨sampleLeaf, .null, Path.descend [] sampleRoot ⟨"body", some 1⟩⟩

def sampleAgain (ignoresInterrupt : Bool) : List (Script.Rule Unit) :=
  [{ condition := { kind := some (.str "Leaf") }, again := some fun supply => (.null, supply),
     ignoresInterrupt }]

def sampleTold (outcome : Outcome Value Script.Failure) : List (Note Value Script.Failure) :=
  [⟨.start, sampleTopSite, .ready⟩, ⟨.enter, sampleTopSite, .suspended .bare⟩,
    ⟨.start, sampleLeafSite, .ready⟩, ⟨.enter, sampleLeafSite, .suspended .bare⟩] ++
    ⟨.exit, sampleLeafSite, .suspended .bare⟩ ::
      [⟨.stop, sampleLeafSite, outcome⟩, ⟨.close, sampleTopSite, .finished⟩]

theorem second_suspension_reported
    : told (scripted (sampleAgain false)) .all sampleRoot sampleFinite .null sampleSession =
        sampleTold .finished
      ∧ Reports (walk (scripted (sampleAgain false)) .all sampleRoot.value sampleFinite .null
          sampleSession).1 sampleLeafSite := by
  have htold : told (scripted (sampleAgain false)) .all sampleRoot sampleFinite .null
      sampleSession = sampleTold .finished := by
    rw [told, walk_eq_visit, unfolding_sampleRoot]
    rfl
  obtain ⟨_, _, _, _, hafter, _, _, hreports⟩ := second_suspension (scripted (sampleAgain false))
    .all sampleRoot sampleFinite .null sampleSession htold
  cases hafter
  exact ⟨htold, hreports.2 rfl⟩

theorem second_suspension_unreported
    : told (scripted (sampleAgain true)) .all sampleRoot sampleFinite .null sampleSession =
        sampleTold (.suspended .bare)
      ∧ (walk (scripted (sampleAgain true)) .all sampleRoot.value sampleFinite .null
          sampleSession).1 = .error .interruptIgnored
      ∧ ¬ Reports (walk (scripted (sampleAgain true)) .all sampleRoot.value sampleFinite .null
          sampleSession).1 sampleLeafSite := by
  have hresult : (walk (scripted (sampleAgain true)) .all sampleRoot.value sampleFinite .null
      sampleSession).1 = .error .interruptIgnored := by
    rw [walk_eq_visit, unfolding_sampleRoot]
    rfl
  refine ⟨?_, hresult, ?_⟩
  · rw [told, walk_eq_visit, unfolding_sampleRoot]
    rfl
  · rintro ⟨fault, hfault, _, hdiagnostic⟩
    rw [hresult] at hfault
    cases hfault
    contradiction

end Walk

end Arbor
