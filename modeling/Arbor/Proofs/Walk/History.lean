import Arbor.Proofs.Outline.Order
import Arbor.Proofs.Walk.Event
import Arbor.Script

/-!
This module tells what happens in a walk, event by event. An event is a note with the route of the
occurrence it is about; the end of each listing of children is an event as well. `Course` has one
rule for each way in which the visit of an occurrence can go. What is true of all walks is proved
from these rules by induction over the outline.
-/

namespace Arbor

namespace Walk

structure Event (κ ε : Type) extends Note κ ε where
  route : Route

variable {σ φ κ ε : Type}

def Note.onRoute (route : Route) (note : Note κ ε) : Event κ ε :=
  ⟨note, route⟩

def Event.occurrence (e : Event κ ε) : Occurrence :=
  ⟨e.route, e.site.path, e.site.node⟩

def occurrencesIn (phase : Phase) (events : List (Event κ ε)) : List Occurrence :=
  (events.filter (·.phase = phase)).map (·.occurrence)

theorem occurrencesIn_append (phase : Phase) (events later : List (Event κ ε))
    : occurrencesIn phase (events ++ later) =
        occurrencesIn phase events ++ occurrencesIn phase later := by
  simp [occurrencesIn]

theorem occurrencesIn_cons (phase : Phase) (e : Event κ ε) (events : List (Event κ ε))
    : occurrencesIn phase (e :: events) =
        if e.phase = phase then e.occurrence :: occurrencesIn phase events
        else occurrencesIn phase events := by
  by_cases h : e.phase = phase <;> simp [occurrencesIn, h]

theorem occurrencesIn_onRoute {phase : Phase} {notes : List (Note κ ε)} {route : Route}
    (h : ∀ note ∈ notes, note.phase ≠ phase)
    : occurrencesIn phase (notes.map (·.onRoute route)) = [] := by
  rw [occurrencesIn, List.map_eq_nil_iff, List.filter_eq_nil_iff]
  intro e he
  obtain ⟨note, hnote, rfl⟩ := List.mem_map.1 he
  rw [decide_eq_true_eq]
  exact h note hnote

variable [Described ε]

mutual

def history (v : Visitor σ φ κ ε) (context : κ) (path : Path) (route : Route) :
    Outline ε → Session σ → List (Event κ ε)
  | .mk node children failure, s =>
    let site : Site κ := ⟨node, context, path⟩
    let s := s.arrive path.length
    (Visit.startNote v site s).onRoute route ::
      match Visit.start v site s with
      | (.error _, _) => []
      | (.ok current, s) =>
        (current.enterNote s).onRoute route ::
          match current.enter s with
          | (.error _, _, _) => []
          | (.ok override, current, s) =>
            historyAll v site (override.apply context) route 0 children failure s ++
              match visitAll v (override.apply context) path node children failure s with
              | (.error _, s) => (current.closeNotes s).map (·.onRoute route)
              | (.ok (), s) => (current.exitNotes s).map (·.onRoute route)

def historyAll (v : Visitor σ φ κ ε) (site : Site κ) (context : κ) (route : Route) :
    Nat → List (Edge × Outline ε) → Option ε → Session σ → List (Event κ ε)
  | _, [], failure, _ => [⟨⟨.listing, site, .ofListing failure⟩, route⟩]
  | i, (edge, child) :: rest, failure, s =>
    history v context (site.path.descend site.node edge) (i :: route) child s ++
      match visit v context (site.path.descend site.node edge) child s with
      | (.error _, _) => []
      | (.ok (), s) => historyAll v site context route (i + 1) rest failure s

end

/--
The ways in which the visit of an occurrence can go, with its events, its result and the session
behind it.
-/
inductive Course (v : Visitor σ φ κ ε) (site : Site κ) (route : Route)
    (children : List (Edge × Outline ε)) (failure : Option ε) (s : Session σ) :
    List (Event κ ε) → Except (Fault ε) Unit × Session σ → Prop where
  | startFails (error : ε) (s' : Session σ) (log : s'.log = s.log) :
      Course v site route children failure s
        [⟨⟨.start, site, .raised error⟩, route⟩]
        (.error (.raised error), s')
  | enterFails (called : Outcome κ ε) (error : ε) (s' : Session σ)
      (hcalled : called.isRaised = false) (log : s'.log = s.log) :
      Course v site route children failure s
        [⟨⟨.start, site, called⟩, route⟩, ⟨⟨.enter, site, .raised error⟩, route⟩]
        (.error (.raised error), s')
  | abandoned (called outcome : Outcome κ ε) (override : Override κ) (current : Visit σ φ κ ε)
      (s₁ s₂ : Session σ) (fault : Fault ε)
      (hcalled : called.isRaised = false) (hsite : current.site = site)
      (entered : current.Entered outcome override)
      (log : s₁.log.toList = s.log.toList ++ (Note.mk .enter site outcome).logged?.toList)
      (below : visitAll v (override.apply site.context) site.path site.node children failure s₁ =
        (.error fault, s₂)) :
      Course v site route children failure s
        (⟨⟨.start, site, called⟩, route⟩ :: ⟨⟨.enter, site, outcome⟩, route⟩ ::
          (historyAll v site (override.apply site.context) route 0 children failure s₁ ++
            (current.closeNotes s₂).map (·.onRoute route)))
        (.error fault, current.abandon s₂)
  | completed (called outcome : Outcome κ ε) (override : Override κ) (current : Visit σ φ κ ε)
      (s₁ s₂ : Session σ)
      (hcalled : called.isRaised = false) (hsite : current.site = site)
      (entered : current.Entered outcome override)
      (log : s₁.log.toList = s.log.toList ++ (Note.mk .enter site outcome).logged?.toList)
      (below : visitAll v (override.apply site.context) site.path site.node children failure s₁ =
        (.ok (), s₂)) :
      Course v site route children failure s
        (⟨⟨.start, site, called⟩, route⟩ :: ⟨⟨.enter, site, outcome⟩, route⟩ ::
          (historyAll v site (override.apply site.context) route 0 children failure s₁ ++
            (current.exitNotes s₂).map (·.onRoute route)))
        ((current.exit s₂).1, (current.exit s₂).2.2)

theorem course_visit (v : Visitor σ φ κ ε) (context : κ) (path : Path) (route : Route)
    (node : Node) (children : List (Edge × Outline ε)) (failure : Option ε) (s : Session σ)
    : Course v ⟨node, context, path⟩ route children failure s
        (history v context path route (.mk node children failure) s)
        (visit v context path (.mk node children failure) s) := by
  have hs : (s.arrive path.length).log = s.log := rfl
  simp only [history, visit]
  rcases Visit.start_cases v ⟨node, context, path⟩ (s.arrive path.length) with
    ⟨e, s', hstart, hnote, hlog⟩ |
    ⟨current, s', called, hstart, hnote, hcalled, hsite, hfresh, hlog⟩
  · rw [hstart, hnote]
    exact .startFails e s' hlog
  · rw [hstart, hnote]
    dsimp only
    rcases Visit.enter_cases hfresh s' with
      ⟨e, visit', s₁, henter, hnote', hlog'⟩ |
      ⟨override, current', s₁, outcome, henter, hnote', hsite', hentered, hlog'⟩
    · rw [henter, hnote', hsite]
      exact .enterFails called e s₁ hcalled (hlog'.trans hlog)
    · have hlog₁ : s₁.log.toList = s.log.toList ++
          (Note.mk .enter ⟨node, context, path⟩ outcome).logged?.toList := by
        rw [hlog', hlog, hs, hnote', hsite]
      rw [henter, hnote', hsite]
      dsimp only
      cases hbelow : visitAll v (override.apply context) path node children failure s₁ with
      | mk result s₂ =>
        cases result with
        | error fault =>
          exact .abandoned called outcome override current' s₁ s₂ fault hcalled
            (hsite'.trans hsite) hentered hlog₁ hbelow
        | ok u =>
          exact .completed called outcome override current' s₁ s₂ hcalled
            (hsite'.trans hsite) hentered hlog₁ hbelow

theorem mem_historyAll {v : Visitor σ φ κ ε} {site : Site κ} {context : κ} {route : Route} {i : Nat}
    {children : List (Edge × Outline ε)} {failure : Option ε} {s : Session σ} {e : Event κ ε}
    (h : e ∈ historyAll v site context route i children failure s)
    : (e.route = route ∧ e.site = site ∧ e.phase = .listing)
      ∨
      ∃ k edge child s', children[k]? = some (edge, child)
        ∧ e ∈ history v context (site.path.descend site.node edge) ((i + k) :: route) child s'
        ∧ history v context (site.path.descend site.node edge) ((i + k) :: route) child s' ⊆
          historyAll v site context route i children failure s := by
  induction children generalizing i s with
  | nil =>
    rw [historyAll, List.mem_singleton] at h
    subst h
    exact .inl ⟨rfl, rfl, rfl⟩
  | cons entry rest ih =>
    obtain ⟨edge, child⟩ := entry
    rw [historyAll] at h ⊢
    rcases List.mem_append.1 h with h | h
    · exact .inr ⟨0, edge, child, s, rfl, h, List.subset_append_left ..⟩
    · cases hchild : visit v context (site.path.descend site.node edge) child s with
      | mk result s' =>
        rw [hchild] at h
        cases result with
        | error fault => contradiction
        | ok u =>
          rcases ih h with hown | ⟨k, edge', child', s'', hk, hmem, hsub⟩
          · exact .inl hown
          · rw [show i + 1 + k = i + (k + 1) by omega] at hmem hsub
            exact .inr ⟨k + 1, edge', child', s'', hk, hmem,
              List.subset_append_of_subset_right _ hsub⟩

theorem mem_history {v : Visitor σ φ κ ε} {context : κ} {path : Path} {route : Route} {node : Node}
    {children : List (Edge × Outline ε)} {failure : Option ε} {s : Session σ} {e : Event κ ε}
    (h : e ∈ history v context path route (.mk node children failure) s)
    : (e.route = route ∧ e.site = ⟨node, context, path⟩)
      ∨
      ∃ k edge child outcome s', children[k]? = some (edge, child)
        ∧ ⟨⟨.enter, ⟨node, context, path⟩, outcome⟩, route⟩ ∈
          history v context path route (.mk node children failure) s
        ∧ e ∈ history v (outcome.override?.getD context) (path.descend node edge) (k :: route)
          child s'
        ∧ history v (outcome.override?.getD context) (path.descend node edge) (k :: route) child
          s' ⊆ history v context path route (.mk node children failure) s := by
  have hcourse := course_visit v context path route node children failure s
  generalize history v context path route (.mk node children failure) s = events at h hcourse ⊢
  generalize visit v context path (.mk node children failure) s = out at hcourse
  -- whichever way the visit goes, the children are visited in the context that was left for them
  have below : ∀ (outcome : Outcome κ ε) (override : Override κ) (s₁ : Session σ),
      override.apply context = outcome.override?.getD context →
      ⟨⟨.enter, ⟨node, context, path⟩, outcome⟩, route⟩ ∈ events →
      historyAll v ⟨node, context, path⟩ (override.apply context) route 0 children failure s₁ ⊆
        events →
      e ∈ historyAll v ⟨node, context, path⟩ (override.apply context) route 0 children failure s₁ →
      (e.route = route ∧ e.site = ⟨node, context, path⟩)
      ∨
      ∃ k edge child outcome s', children[k]? = some (edge, child)
        ∧ ⟨⟨.enter, ⟨node, context, path⟩, outcome⟩, route⟩ ∈ events
        ∧ e ∈ history v (outcome.override?.getD context) (path.descend node edge) (k :: route)
          child s'
        ∧ history v (outcome.override?.getD context) (path.descend node edge) (k :: route) child
          s' ⊆ events := by
    intro outcome override s₁ happly henter hall hmem
    rw [happly] at hall hmem
    rcases mem_historyAll hmem with ⟨hroute, hsite, _⟩ | ⟨k, edge, child, s', hk, hmem, hsub⟩
    · exact .inl ⟨hroute, hsite⟩
    · rw [Nat.zero_add] at hmem hsub
      exact .inr ⟨k, edge, child, outcome, s', hk, henter, hmem, List.Subset.trans hsub hall⟩
  have ending : ∀ (notes : List (Note κ ε)), (∀ note ∈ notes, note.site = ⟨node, context, path⟩) →
      e ∈ notes.map (·.onRoute route) → e.route = route ∧ e.site = ⟨node, context, path⟩ := by
    intro notes hnotes hmem
    obtain ⟨note, hnote, rfl⟩ := List.mem_map.1 hmem
    exact ⟨rfl, hnotes note hnote⟩
  cases hcourse with
  | startFails error s' log =>
    rw [List.mem_singleton] at h
    subst h
    exact .inl ⟨rfl, rfl⟩
  | enterFails called error s' hcalled log =>
    simp only [List.mem_cons, List.not_mem_nil, or_false] at h
    rcases h with rfl | rfl
    · exact .inl ⟨rfl, rfl⟩
    · exact .inl ⟨rfl, rfl⟩
  | abandoned called outcome override current s₁ s₂ fault hcalled hsite entered log hbelow =>
    simp only [List.mem_cons, List.mem_append] at h
    rcases h with rfl | rfl | h | h
    · exact .inl ⟨rfl, rfl⟩
    · exact .inl ⟨rfl, rfl⟩
    · exact below outcome override s₁ (entered.apply _) (by simp) (fun e he => by simp [he]) h
    · refine .inl (ending _ ?_ h)
      intro note hnote
      exact (Visit.mem_closeNotes entered hnote).1.trans hsite
  | completed called outcome override current s₁ s₂ hcalled hsite entered log hbelow =>
    simp only [List.mem_cons, List.mem_append] at h
    rcases h with rfl | rfl | h | h
    · exact .inl ⟨rfl, rfl⟩
    · exact .inl ⟨rfl, rfl⟩
    · exact below outcome override s₁ (entered.apply _) (by simp) (fun e he => by simp [he]) h
    · refine .inl (ending _ ?_ h)
      intro note hnote
      exact ((Visit.exit_eq_result entered s₂).2.1.mem hnote).1.trans hsite

theorem route_history {v : Visitor σ φ κ ε} {context : κ} {path : Path} {route : Route}
    {outline : Outline ε} {s : Session σ} {e : Event κ ε}
    (h : e ∈ history v context path route outline s) : route <:+ e.route := by
  induction outline using Outline.induct generalizing context path route s with
  | mk node children failure ih =>
    rcases mem_history h with ⟨hroute, _⟩ | ⟨k, edge, child, outcome, s', hk, _, hmem, _⟩
    · subst hroute
      exact List.suffix_refl _
    · have := ih (edge, child) (List.mem_of_getElem? hk) hmem
      exact (Route.suffix_of_cons_suffix this).1

theorem route_historyAll {v : Visitor σ φ κ ε} {site : Site κ} {context : κ} {route : Route}
    {i : Nat} {children : List (Edge × Outline ε)} {failure : Option ε} {s : Session σ}
    {e : Event κ ε} (h : e ∈ historyAll v site context route i children failure s)
    : (e.route = route ∧ e.phase = .listing) ∨ ∃ k, i ≤ k ∧ k :: route <:+ e.route := by
  rcases mem_historyAll h with ⟨hroute, _, hphase⟩ | ⟨k, edge, child, s', hk, hmem, _⟩
  · exact .inl ⟨hroute, hphase⟩
  · exact .inr ⟨i + k, by omega, route_history hmem⟩

theorem log_visitAll (v : Visitor σ φ κ ε) (site : Site κ) (context : κ) (route : Route) (i : Nat)
    (children : List (Edge × Outline ε)) (failure : Option ε) (s : Session σ)
    (ih : ∀ entry ∈ children, ∀ context path route (s : Session σ),
      (visit v context path entry.2 s).2.log.toList =
        s.log.toList ++ (history v context path route entry.2 s).filterMap (·.logged?))
    : (visitAll v context site.path site.node children failure s).2.log.toList =
        s.log.toList ++
          (historyAll v site context route i children failure s).filterMap (·.logged?) := by
  induction children generalizing i s with
  | nil => cases failure <;> simp [visitAll, historyAll, Note.logged?]
  | cons entry rest ihrest =>
    obtain ⟨edge, child⟩ := entry
    have hchild := ih (edge, child) (List.mem_cons_self ..) context
      (site.path.descend site.node edge) (i :: route) s
    simp only [visitAll, historyAll, List.filterMap_append]
    generalize visit v context (site.path.descend site.node edge) child s = out at hchild ⊢
    obtain ⟨result, s'⟩ := out
    cases result with
    | error fault => simpa using hchild
    | ok u =>
      dsimp only at hchild ⊢
      rw [ihrest (i + 1) s' (fun entry h => ih entry (List.mem_cons_of_mem _ h))]
      rw [hchild, List.append_assoc]

theorem log_visit (v : Visitor σ φ κ ε) (context : κ) (path : Path) (route : Route)
    (outline : Outline ε) (s : Session σ)
    : (visit v context path outline s).2.log.toList =
        s.log.toList ++ (history v context path route outline s).filterMap (·.logged?) := by
  induction outline using Outline.induct generalizing context path route s with
  | mk node children failure ih =>
    have hcourse := course_visit v context path route node children failure s
    generalize history v context path route (.mk node children failure) s = events at hcourse ⊢
    generalize visit v context path (.mk node children failure) s = out at hcourse ⊢
    have entries : ∀ notes : List (Note κ ε),
        (notes.map (·.onRoute route)).filterMap (·.logged?) = notes.filterMap Note.logged? := by
      intro notes
      rw [List.filterMap_map]
      rfl
    cases hcourse with
    | startFails error s' log => simp [Note.logged?, log]
    | enterFails called error s' hcalled log => simp [Note.logged?, log]
    | abandoned called outcome override current s₁ s₂ fault hcalled hsite entered log hbelow =>
      have h := log_visitAll v ⟨node, context, path⟩ (override.apply context) route 0 children
        failure s₁ ih
      rw [hbelow] at h
      have hclose := (Visit.abandon_log entered s₂).1
      rw [hclose, h, log]
      simp only [List.filterMap_cons, List.filterMap_append, entries]
      cases (Note.mk .enter ⟨node, context, path⟩ outcome).logged? <;> simp [Note.logged?]
    | completed called outcome override current s₁ s₂ hcalled hsite entered log hbelow =>
      have h := log_visitAll v ⟨node, context, path⟩ (override.apply context) route 0 children
        failure s₁ ih
      rw [hbelow] at h
      obtain ⟨_, hexiting, hexit⟩ := Visit.exit_eq_result entered s₂
      rw [hexit, h, log]
      simp only [List.filterMap_cons, List.filterMap_append, entries, hexiting.entries]
      cases (Note.mk .enter ⟨node, context, path⟩ outcome).logged? <;> simp [Note.logged?]

theorem entered_historyAll (v : Visitor σ φ κ ε) (site : Site κ) (context : κ) (route : Route)
    (i : Nat) (children : List (Edge × Outline ε)) (failure : Option ε) (s : Session σ)
    (ih : ∀ entry ∈ children, ∀ context path route (s : Session σ),
      (occurrencesIn .enter (history v context path route entry.2 s)).Sublist
        (entry.2.preorder path route))
    : (occurrencesIn .enter (historyAll v site context route i children failure s)).Sublist
        (Outline.preorderAll children site.path route site.node i) := by
  induction children generalizing i s with
  | nil => exact List.nil_sublist _
  | cons entry rest ihrest =>
    obtain ⟨edge, child⟩ := entry
    rw [historyAll, Outline.preorderAll_cons, occurrencesIn_append]
    apply List.Sublist.append
    · exact ih (edge, child) (List.mem_cons_self ..) _ _ _ _
    · split
      · exact List.nil_sublist _
      · exact ihrest _ _ (fun entry h => ih entry (List.mem_cons_of_mem _ h))

/-- In every walk, also one that fails, occurrences are entered in pre-order and at most once. -/
theorem entered_history (v : Visitor σ φ κ ε) (context : κ) (path : Path) (route : Route)
    (outline : Outline ε) (s : Session σ)
    : (occurrencesIn .enter (history v context path route outline s)).Sublist
        (outline.preorder path route) := by
  induction outline using Outline.induct generalizing context path route s with
  | mk node children failure ih =>
    rw [Outline.preorder_mk]
    have hcourse := course_visit v context path route node children failure s
    generalize history v context path route (.mk node children failure) s = events at hcourse ⊢
    generalize visit v context path (.mk node children failure) s = out at hcourse
    have below := fun context' s' =>
      entered_historyAll v ⟨node, context, path⟩ context' route 0 children failure s' ih
    cases hcourse with
    | startFails error s' log => exact List.nil_sublist _
    | enterFails called error s' hcalled log => simp [occurrencesIn, Event.occurrence]
    | abandoned called outcome override current s₁ s₂ fault hcalled hsite entered log hbelow =>
      have hend : occurrencesIn .enter ((current.closeNotes s₂).map (·.onRoute route)) = [] := by
        apply occurrencesIn_onRoute
        intro note hnote
        rw [(Visit.mem_closeNotes entered hnote).2]
        simp
      simp only [occurrencesIn_cons, occurrencesIn_append, hend, List.append_nil]
      exact (below _ s₁).cons_cons _
    | completed called outcome override current s₁ s₂ hcalled hsite entered log hbelow =>
      have hend : occurrencesIn .enter ((current.exitNotes s₂).map (·.onRoute route)) = [] := by
        apply occurrencesIn_onRoute
        intro note hnote
        rcases ((Visit.exit_eq_result entered s₂).2.1.mem hnote).2 with h | h
        · simp [h]
        · simp [h]
      simp only [occurrencesIn_cons, occurrencesIn_append, hend, List.append_nil]
      exact (below _ s₁).cons_cons _

theorem enter_unique {v : Visitor σ φ κ ε} {context : κ} {path : Path} {route : Route}
    {outline : Outline ε} {s : Session σ} {e e' : Event κ ε}
    (he : e ∈ history v context path route outline s) (hphase : e.phase = .enter)
    (he' : e' ∈ history v context path route outline s) (hphase' : e'.phase = .enter)
    (hroute : e.route = e'.route) : e = e' := by
  have hsub := (entered_history v context path route outline s).map (·.route)
  have hnodup := hsub.nodup (Outline.nodup_preorder outline path route)
  rw [occurrencesIn, List.map_map] at hnodup
  exact List.inj_on_of_nodup_map hnodup (by simp [he, hphase]) (by simp [he', hphase']) hroute

theorem occurrence_history {v : Visitor σ φ κ ε} {context : κ} {path : Path} {route : Route}
    {outline : Outline ε} {s : Session σ} {e : Event κ ε}
    (h : e ∈ history v context path route outline s)
    : e.occurrence ∈ outline.preorder path route := by
  induction outline using Outline.induct generalizing context path route s with
  | mk node children failure ih =>
    rw [Outline.preorder_mk]
    rcases mem_history h with ⟨hroute, hsite⟩ | ⟨k, edge, child, outcome, s', hk, _, hmem, _⟩
    · simp [Event.occurrence, hroute, hsite]
    · have := ih (edge, child) (List.mem_of_getElem? hk) hmem
      apply List.mem_cons_of_mem
      rw [Outline.mem_preorderAll]
      refine ⟨k, edge, child, hk, ?_⟩
      rw [Nat.zero_add]
      exact this

end Walk

def Strategy.unfolding {ε : Type} (strategy : Strategy ε) (root : Node)
    (finite : strategy.FiniteFrom root.value) : Outline ε :=
  strategy.outline root (finite root (Node.ofValue?_eq_some.2 rfl))

theorem Strategy.unfolding_node {ε : Type} (strategy : Strategy ε) (root : Node)
    (finite : strategy.FiniteFrom root.value) : (strategy.unfolding root finite).node = root := by
  unfold Strategy.unfolding
  rw [Strategy.outline]
  rfl

namespace Walk

variable {σ φ κ ε : Type} [Described ε]

theorem walk_eq_visit (v : Visitor σ φ κ ε) (strategy : Strategy ε) (root : Node)
    (finite : strategy.FiniteFrom root.value) (context : κ) (s : Session σ)
    : walk v strategy root.value finite context s =
        match visit v context [] (strategy.unfolding root finite)
          (s.restart.record (.walkStarted root.kind)) with
        | (result, s) => (result, s.record (closingEntry result s)) := by
  have hroot : Node.ofValue? root.value = some root := Node.ofValue?_eq_some.2 rfl
  unfold walk
  split
  next h =>
    rw [hroot] at h
    contradiction
  next n h =>
    have : root = n := by
      rw [hroot] at h
      injection h
    subst this
    change walkOutline v context (strategy.unfolding root finite) s = _
    rw [walkOutline, Strategy.unfolding_node]

def events (v : Visitor σ φ κ ε) (strategy : Strategy ε) (root : Node)
    (finite : strategy.FiniteFrom root.value) (context : κ) (s : Session σ) : List (Event κ ε) :=
  history v context [] [] (strategy.unfolding root finite)
    (s.restart.record (.walkStarted root.kind))

theorem log_walk (v : Visitor σ φ κ ε) (strategy : Strategy ε) (root : Node)
    (finite : strategy.FiniteFrom root.value) (context : κ) (s : Session σ)
    : (walk v strategy root.value finite context s).2.log.toList =
        s.log.toList ++ .walkStarted root.kind ::
          (events v strategy root finite context s).filterMap (·.logged?) ++
          [closingEntry (walk v strategy root.value finite context s).1
            (walk v strategy root.value finite context s).2] := by
  rw [walk_eq_visit, events]
  have h := log_visit v context [] [] (strategy.unfolding root finite)
    (s.restart.record (.walkStarted root.kind))
  generalize visit v context [] (strategy.unfolding root finite)
    (s.restart.record (.walkStarted root.kind)) = out at h ⊢
  obtain ⟨result, s'⟩ := out
  have hclosing : closingEntry result (s'.record (closingEntry result s')) =
      closingEntry result s' := by
    cases result <;> rfl
  dsimp only at h ⊢
  rw [hclosing]
  simp only [Session.record, Session.restart, Array.toList_push] at h ⊢
  rw [h]
  simp

def sampleRoot : Node :=
  ⟨.record 0 .map [("type", .str "Program"),
    ("body", .list [.null, .record 1 .map [("type", .str "Leaf")]])], "Program", rfl⟩

def sampleLeaf : Node :=
  ⟨.record 1 .map [("type", .str "Leaf")], "Leaf", rfl⟩

theorem sampleFinite : (Strategy.all : Strategy Script.Failure).FiniteFrom sampleRoot.value :=
  Strategy.all_finiteFrom _

theorem unfolding_sampleRoot
    : Strategy.all.unfolding sampleRoot sampleFinite =
        .mk sampleRoot [(⟨"body", some 1⟩, .mk sampleLeaf [] none)] none := by
  cbv

def scripted (rules : List (Script.Rule Unit)) :
    Visitor (Script.State Unit) (Script.Frame Unit) Value Script.Failure :=
  .procedure Script.startRoutine (Script.routine ⟨rules, false⟩)

def sampleSession : Session (Script.State Unit) :=
  { state := { supply := () } }

def sampleEvents (rules : List (Script.Rule Unit)) : List (Event Value Script.Failure) :=
  events (scripted rules) .all sampleRoot sampleFinite .null sampleSession

end Walk

end Arbor
