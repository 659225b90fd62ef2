import Arbor.Proofs.Walk.Recording

/-!
This module is about walks that fail. The first operation that lets a fault through ends the walk
with this fault. Behind it only routines are closed: those that are suspended on the way to the
failure, each once and the innermost first, whatever comes of closing them.
-/

namespace Arbor

namespace Walk

variable {σ φ κ ε : Type}

def Event.suspends (e : Event κ ε) : Bool :=
  e.phase = .enter && e.outcome.isSuspended

def Event.isSound (e : Event κ ε) : Prop :=
  e.fault? = none ∧ e.phase ≠ .close

/--
Whether an occurrence is on the way to an event: it is above the one that the event is about, or
it is the same and its children were being listed.
-/
def Event.isBelow (e : Event κ ε) (r : Route) : Prop :=
  r <:+ e.route ∧ (r = e.route → e.phase = .listing)

/-- Events before a failure, the failure, and how the walk comes back from it. -/
structure Unwinds (before : List (Event κ ε)) (bad : Event κ ε) (after : List (Event κ ε)) :
    Prop where
  sound : ∀ e ∈ before, e.isSound
  closes : ∀ e ∈ after, e.phase = .close
  outwards : after.Pairwise fun inner outer =>
    outer.route <:+ inner.route ∧ outer.route ≠ inner.route
  suspended : ∀ r, (∃ e ∈ after, e.route = r) ↔
    (∃ e ∈ before, e.suspends = true ∧ e.route = r) ∧ bad.isBelow r

namespace Unwinds

variable {before after earlier : List (Event κ ε)} {bad first closing : Event κ ε}

theorem nil (sound : ∀ e ∈ before, e.isSound)
    (h : ∀ e ∈ before, e.suspends = true → ¬ bad.isBelow e.route) : Unwinds before bad [] := by
  refine ⟨sound, by simp, .nil, ?_⟩
  intro r
  constructor
  · rintro ⟨e, he, _⟩
    contradiction
  · rintro ⟨⟨e, he, hs, rfl⟩, hbelow⟩
    exact absurd hbelow (h e he hs)

theorem prepend (h : Unwinds before bad after) (sound : ∀ e ∈ earlier, e.isSound)
    (hearlier : ∀ e ∈ earlier, e.suspends = true → ¬ bad.isBelow e.route)
    : Unwinds (earlier ++ before) bad after := by
  refine ⟨?_, h.closes, h.outwards, ?_⟩
  · intro e he
    rcases List.mem_append.1 he with he | he
    · exact sound e he
    · exact h.sound e he
  · intro r
    rw [h.suspended r]
    constructor
    · rintro ⟨⟨e, he, hs, hr⟩, hbelow⟩
      exact ⟨⟨e, List.mem_append_right _ he, hs, hr⟩, hbelow⟩
    · rintro ⟨⟨e, he, hs, rfl⟩, hbelow⟩
      rcases List.mem_append.1 he with he | he
      · exact absurd hbelow (hearlier e he hs)
      · exact ⟨⟨e, he, hs, rfl⟩, hbelow⟩

theorem close (h : Unwinds before bad after) (hfirst : first.isSound)
    (hsuspends : first.suspends = true) (hbelow : bad.isBelow first.route) (hphase : closing.phase = .close)
    (hroute : closing.route = first.route)
    (hafter : ∀ e ∈ after, first.route <:+ e.route ∧ first.route ≠ e.route)
    : Unwinds (first :: before) bad (after ++ [closing]) := by
  refine ⟨?_, ?_, ?_, ?_⟩
  · intro e he
    rcases List.mem_cons.1 he with rfl | he
    · exact hfirst
    · exact h.sound e he
  · intro e he
    rcases List.mem_append.1 he with he | he
    · exact h.closes e he
    · rw [List.mem_singleton.1 he]
      exact hphase
  · rw [List.pairwise_append]
    refine ⟨h.outwards, List.pairwise_singleton _ _, ?_⟩
    intro inner hinner outer houter
    rw [List.mem_singleton.1 houter, hroute]
    exact hafter inner hinner
  · intro r
    constructor
    · rintro ⟨e, he, rfl⟩
      rcases List.mem_append.1 he with he | he
      · obtain ⟨⟨e', he', hs, hr⟩, hway⟩ := (h.suspended e.route).1 ⟨e, he, rfl⟩
        exact ⟨⟨e', List.mem_cons_of_mem _ he', hs, hr⟩, hway⟩
      · rw [List.mem_singleton.1 he, hroute]
        exact ⟨⟨first, List.mem_cons_self .., hsuspends, rfl⟩, hbelow⟩
    · rintro ⟨⟨e, he, hs, rfl⟩, hway⟩
      rcases List.mem_cons.1 he with rfl | he
      · exact ⟨closing, List.mem_append_right _ (List.mem_singleton.2 rfl), hroute⟩
      · obtain ⟨e', he', hr⟩ := (h.suspended e.route).2 ⟨⟨e, he, hs, rfl⟩, hway⟩
        exact ⟨e', List.mem_append_left _ he', hr⟩

theorem no_fault (h : Unwinds before bad after)
    : (before.map (·.toNote)).findSome? Note.fault? = none := by
  rw [List.findSome?_map, List.findSome?_eq_none_iff]
  intro e he
  exact (h.sound e he).1

end Unwinds

def Tells (events : List (Event κ ε)) (result : Except (Fault ε) Unit) : Prop :=
  match result with
  | .ok () => ∀ e ∈ events, e.isSound
  | .error fault => ∃ before bad after, events = before ++ bad :: after
      ∧ bad.fault? = some fault ∧ Unwinds before bad after

theorem isSound_start {site : Site κ} {outcome : Outcome κ ε} {route : Route}
    (h : outcome.isRaised = false) : Event.isSound ⟨⟨.start, site, outcome⟩, route⟩ := by
  cases outcome with
  | raised e => contradiction
  | _ => exact ⟨rfl, by simp⟩

theorem isSound_enter {visit : Visit σ φ κ ε} {site : Site κ} {outcome : Outcome κ ε}
    {override : Override κ} {route : Route} (entered : visit.Entered outcome override)
    : Event.isSound ⟨⟨.enter, site, outcome⟩, route⟩ := by
  cases entered <;> exact ⟨rfl, by simp⟩

theorem suspends_start {site : Site κ} {outcome : Outcome κ ε} {route : Route}
    : Event.suspends ⟨⟨.start, site, outcome⟩, route⟩ = false := by
  rfl

theorem suspends_enter {site : Site κ} {outcome : Outcome κ ε} {route : Route}
    : Event.suspends ⟨⟨.enter, site, outcome⟩, route⟩ = outcome.isSuspended := by
  rfl

theorem tells_fault {before : List (Event κ ε)} {bad : Event κ ε} {fault : Fault ε}
    (hbad : bad.fault? = some fault) (hphase : bad.phase ≠ .listing)
    (hbefore : ∀ e ∈ before, e.isSound ∧ bad.route <:+ e.route)
    : Tells (before ++ [bad]) (.error fault) := by
  refine ⟨before, bad, [], rfl, hbad, .nil (fun e he => (hbefore e he).1) ?_⟩
  rintro e he _ ⟨hbelow, hsame⟩
  exact hphase (hsame (hbelow.eq_of_length_le (hbefore e he).2.length_le))

theorem tells_exit {before : List (Event κ ε)} {notes : List (Note κ ε)} {site : Site κ}
    {opened : Bool} {route : Route} (hexiting : Visit.Exiting site opened notes)
    (hbefore : ∀ e ∈ before, e.isSound ∧ route <:+ e.route)
    : Tells (before ++ notes.map (·.onRoute route)) (Note.result notes) := by
  cases hexiting with
  | ended =>
    intro e he
    rw [List.map_nil, List.append_nil] at he
    exact (hbefore e he).1
  | once outcome =>
    cases outcome with
    | raised error =>
      apply tells_fault
      · rfl
      · simp [Note.onRoute]
      · exact hbefore
    | _ =>
      intro e he
      rcases List.mem_append.1 he with he | he
      · exact (hbefore e he).1
      · rw [List.map_singleton, List.mem_singleton] at he
        subst he
        exact ⟨rfl, by simp [Note.onRoute]⟩
  | twice again outcome fault hfault =>
    have hexit : Note.fault? (⟨.exit, site, .suspended again⟩ : Note κ ε) = none := rfl
    have hresult : Note.result [⟨.exit, site, .suspended again⟩, ⟨.stop, site, outcome⟩] =
        .error fault := by
      rw [Note.result, List.findSome?_cons, hexit, List.findSome?_cons, hfault]
    rw [hresult, List.map_cons, List.map_singleton, List.append_cons]
    apply tells_fault
    · exact hfault
    · simp [Note.onRoute]
    · intro e he
      rcases List.mem_append.1 he with he | he
      · exact hbefore e he
      · rw [List.mem_singleton.1 he]
        exact ⟨⟨rfl, by simp [Note.onRoute]⟩, List.suffix_refl _⟩

theorem Tells.result_eq {events : List (Event κ ε)} {result : Except (Fault ε) Unit}
    (h : Tells events result) : result = Note.result (events.map (·.toNote)) := by
  cases result with
  | ok u =>
    rw [Note.result_ok]
    intro note hnote
    obtain ⟨e, he, rfl⟩ := List.mem_map.1 hnote
    exact (h e he).1
  | error fault =>
    unfold Note.result
    obtain ⟨before, bad, after, rfl, hbad, hunwinds⟩ := h
    rw [List.map_append, List.findSome?_append, hunwinds.no_fault, List.map_cons,
      List.findSome?_cons, hbad]
    rfl

theorem Unwinds.fault_after {before after : List (Event κ ε)} {bad e : Event κ ε}
    (h : Unwinds before bad after) (he : e ∈ after) : e.fault? = none := by
  unfold Note.fault?
  rw [h.closes e he]

theorem Tells.unwinds {before after : List (Event κ ε)} {bad : Event κ ε}
    {result : Except (Fault ε) Unit} (h : Tells (before ++ bad :: after) result)
    (hbad : bad.fault? ≠ none) : Unwinds before bad after := by
  cases result with
  | ok u => exact absurd (h bad (by simp)).1 hbad
  | error fault =>
    obtain ⟨before', bad', after', heq, hbad', hunwinds⟩ := h
    -- another failure would be among the sound events or among those that close
    rcases List.append_eq_append_iff.1 heq with
      ⟨between, hbefore, hcons⟩ | ⟨between, hbefore, hcons⟩
    · cases between with
      | nil =>
        simp only [List.append_nil, List.nil_append, List.cons.injEq] at hbefore hcons
        obtain ⟨rfl, rfl⟩ := hcons
        rwa [hbefore] at hunwinds
      | cons e between =>
        rw [List.cons_append, List.cons.injEq] at hcons
        have hmem : bad ∈ before' := by simp [hbefore, hcons.1]
        exact absurd (hunwinds.sound bad hmem).1 hbad
    · cases between with
      | nil =>
        simp only [List.append_nil, List.nil_append, List.cons.injEq] at hbefore hcons
        obtain ⟨rfl, rfl⟩ := hcons
        rwa [← hbefore] at hunwinds
      | cons e between =>
        rw [List.cons_append, List.cons.injEq] at hcons
        have hmem : bad ∈ after' := by simp [hcons.2]
        exact absurd (hunwinds.fault_after hmem) hbad

variable [Described ε]

theorem tells_visitAll (v : Visitor σ φ κ ε) (site : Site κ) (context : κ) (route : Route) (i : Nat)
    (children : List (Edge × Outline ε)) (failure : Option ε) (s : Session σ)
    (ih : ∀ entry ∈ children, ∀ context path route (s : Session σ),
      Tells (history v context path route entry.2 s) (visit v context path entry.2 s).1)
    : Tells (historyAll v site context route i children failure s)
        (visitAll v context site.path site.node children failure s).1 := by
  induction children generalizing i s with
  | nil =>
    cases failure with
    | none =>
      intro e he
      rw [historyAll, List.mem_singleton] at he
      subst he
      exact ⟨rfl, by simp⟩
    | some error => exact ⟨[], _, [], rfl, rfl, .nil (by simp) (by simp)⟩
  | cons entry rest ihrest =>
    obtain ⟨edge, child⟩ := entry
    have hchild := ih (edge, child) (List.mem_cons_self ..) context
      (site.path.descend site.node edge) (i :: route) s
    have hrest := fun s => ihrest (i + 1) s (fun entry h => ih entry (List.mem_cons_of_mem _ h))
    simp only [visitAll, historyAll]
    generalize visit v context (site.path.descend site.node edge) child s = out at hchild ⊢
    obtain ⟨result, s'⟩ := out
    cases result with
    | error fault => simpa using hchild
    | ok u =>
      specialize hrest s'
      dsimp only at hchild hrest ⊢
      have hroutes := fun e =>
        @route_historyAll _ _ _ _ _ v site context route (i + 1) rest failure s' e
      generalize (visitAll v context site.path site.node rest failure s').1 = result at hrest ⊢
      generalize historyAll v site context route (i + 1) rest failure s' = later at hrest hroutes ⊢
      cases result with
      | ok u =>
        intro e he
        rcases List.mem_append.1 he with he | he
        · exact hchild e he
        · exact hrest e he
      | error fault =>
        obtain ⟨before, bad, after, rfl, hbad, hunwinds⟩ := hrest
        refine ⟨_, bad, after, (List.append_assoc ..).symm, hbad, hunwinds.prepend hchild ?_⟩
        -- no occurrence of a finished child is on the way to what comes after it
        intro e he _ hway
        have hi : i :: route <:+ bad.route := (route_history he).trans hway.1
        rcases hroutes bad (by simp) with ⟨heq, _⟩ | ⟨k, hk, hsuffix⟩
        · rw [heq] at hi
          exact Route.not_cons_suffix_self i route hi
        · have := Route.eq_of_cons_suffix hi hsuffix
          omega

theorem tells_abandoned {current : Visit σ φ κ ε} {called outcome : Outcome κ ε}
    {override : Override κ} {site : Site κ} {route : Route} {below : List (Event κ ε)}
    {fault : Fault ε} (hcalled : called.isRaised = false)
    (entered : current.Entered outcome override) (s : Session σ) (h : Tells below (.error fault))
    (hroutes : ∀ e ∈ below, (e.route = route ∧ e.phase = .listing) ∨ ∃ k, k :: route <:+ e.route)
    : Tells
        (⟨⟨.start, site, called⟩, route⟩ :: ⟨⟨.enter, site, outcome⟩, route⟩ ::
          (below ++ (current.closeNotes s).map (·.onRoute route)))
        (.error fault) := by
  obtain ⟨before, bad, after, rfl, hbad, hunwinds⟩ := h
  -- the failure is below the occurrence, or it is the end of the listing of its children
  have hway : bad.isBelow route := by
    rcases hroutes bad (by simp) with ⟨heq, hphase⟩ | ⟨k, hk⟩
    · exact ⟨heq ▸ List.suffix_refl _, fun _ => hphase⟩
    · have := Route.suffix_of_cons_suffix hk
      exact ⟨this.1, fun heq => absurd heq this.2⟩
  have hafter : ∀ e ∈ after, route <:+ e.route ∧ route ≠ e.route := by
    intro e he
    rcases hroutes e (by simp [he]) with ⟨_, hphase⟩ | ⟨k, hk⟩
    · rw [hunwinds.closes e he] at hphase
      contradiction
    · exact Route.suffix_of_cons_suffix hk
  have hstart : ∀ e ∈ [(⟨⟨.start, site, called⟩, route⟩ : Event κ ε)], e.isSound := by
    simpa using isSound_start hcalled
  obtain ⟨_, hnone, hsome⟩ := Visit.abandon_log entered s
  cases hsuspended : outcome.isSuspended with
  | false =>
    rw [hnone hsuspended]
    refine ⟨[⟨⟨.start, site, called⟩, route⟩, ⟨⟨.enter, site, outcome⟩, route⟩] ++ before, bad,
      after, by simp, hbad, hunwinds.prepend ?_ ?_⟩
    · simpa using ⟨isSound_start hcalled, isSound_enter entered⟩
    · simp [suspends_start, suspends_enter, hsuspended]
  | true =>
    obtain ⟨result, hresult⟩ := hsome hsuspended
    have hclose : Unwinds (⟨⟨.enter, site, outcome⟩, route⟩ :: before) bad
        (after ++ [⟨⟨.close, current.site, result⟩, route⟩]) :=
      hunwinds.close (isSound_enter entered) (suspends_enter.trans hsuspended) hway rfl rfl hafter
    rw [hresult]
    refine ⟨[_] ++ _, bad, _, ?_, hbad, hclose.prepend hstart ?_⟩
    · simp [Note.onRoute]
    · simp [suspends_start]

theorem tells_visit (v : Visitor σ φ κ ε) (context : κ) (path : Path) (route : Route)
    (outline : Outline ε) (s : Session σ)
    : Tells (history v context path route outline s) (visit v context path outline s).1 := by
  induction outline using Outline.induct generalizing context path route s with
  | mk node children failure ih =>
    have hcourse := course_visit v context path route node children failure s
    have hroutes := fun e =>
      @route_history _ _ _ _ _ v context path route (.mk node children failure) s e
    generalize history v context path route (.mk node children failure) s = events
      at hcourse hroutes ⊢
    generalize visit v context path (.mk node children failure) s = out at hcourse ⊢
    cases hcourse with
    | startFails error s' log => exact ⟨[], _, [], rfl, rfl, .nil (by simp) (by simp)⟩
    | enterFails called error s' hcalled log =>
      refine ⟨[_], _, [], rfl, rfl, .nil ?_ ?_⟩
      · simpa using isSound_start hcalled
      · simp [suspends_start]
    | abandoned called outcome override current s₁ s₂ fault hcalled hsite entered log hbelow =>
      have h := tells_visitAll v ⟨node, context, path⟩ (override.apply context) route 0 children
        failure s₁ ih
      rw [hbelow] at h
      apply tells_abandoned hcalled entered s₂ h
      intro e he
      rcases route_historyAll he with hown | ⟨k, _, hk⟩
      · exact .inl hown
      · exact .inr ⟨k, hk⟩
    | completed called outcome override current s₁ s₂ hcalled hsite entered log hbelow =>
      have h := tells_visitAll v ⟨node, context, path⟩ (override.apply context) route 0 children
        failure s₁ ih
      rw [hbelow] at h
      obtain ⟨hresult, hexiting, _⟩ := Visit.exit_eq_result entered s₂
      rw [hresult, ← List.cons_append, ← List.cons_append]
      apply tells_exit hexiting
      intro e he
      refine ⟨?_, hroutes e (List.mem_append_left _ he)⟩
      rcases List.mem_cons.1 he with rfl | he
      · exact isSound_start hcalled
      rcases List.mem_cons.1 he with rfl | he
      · exact isSound_enter entered
      · exact h e he

theorem tells_walk (v : Visitor σ φ κ ε) (strategy : Strategy ε) (root : Node)
    (finite : strategy.FiniteFrom root.value) (context : κ) (s : Session σ)
    : Tells (events v strategy root finite context s)
        (walk v strategy root.value finite context s).1 := by
  rw [walk_eq_visit]
  exact tells_visit v context [] [] _ _

def sampleFailure : List (Script.Rule Unit) :=
  [{ condition := { kind := some (.str "Leaf") }, fail := some ⟨"ValueError", "boom"⟩ },
    { onInterrupt := .fail ⟨"RuntimeError", "late"⟩ }]

end Walk

end Arbor
