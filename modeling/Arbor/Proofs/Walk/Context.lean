import Arbor.Proofs.Walk.Recording

/-!
This module is about contexts. In every walk the context at an occurrence is what was handed over
at the nearest occurrence above it where anything was handed over, and the initial context if there
is none. So it depends on nothing that happens beside the way to the occurrence.
-/

namespace Arbor

open Walk

theorem Override.override?_ofValue {ε : Type} (value : Value)
    : (Outcome.suspended (.ofValue value) : Outcome Value ε).override? =
        (Outcome.returned (.ofValue value) : Outcome Value ε).override?
      ∧ ((value = .null ∨ value = .keep) →
        (Outcome.suspended (.ofValue value) : Outcome Value ε).override? = none)
      ∧ (value ≠ .null → value ≠ .keep →
        (Outcome.suspended (.ofValue value) : Outcome Value ε).override? = some value) := by
  refine ⟨?_, ?_, ?_⟩
  · cases Override.ofValue value <;> rfl
  · rintro (rfl | rfl)
    · rfl
    · rfl
  · intro hnull hkeep
    cases value with
    | null => contradiction
    | keep => contradiction
    | _ => rfl

namespace Walk

variable {σ φ κ ε : Type}

def overrideAt (events : List (Event κ ε)) (r : Route) : Option κ :=
  events.findSome? fun e => if e.phase = .enter ∧ e.route = r then e.outcome.override? else none

def contextAt (events : List (Event κ ε)) (initial : κ) (r : Route) : κ :=
  (r.ancestors.findSome? (overrideAt events)).getD initial

theorem contextAt_cons (events : List (Event κ ε)) (initial : κ) (i : Nat) (r : Route)
    : contextAt events initial (i :: r) =
        (overrideAt events r).getD (contextAt events initial r) := by
  simp only [contextAt, Route.ancestors, List.findSome?_cons]
  cases overrideAt events r <;> rfl

theorem contextAt_congr {ε' : Type} {events : List (Event κ ε)} {events' : List (Event κ ε')}
    {initial : κ} {r : Route} (h : ∀ r' ∈ r.ancestors, overrideAt events r' = overrideAt events' r')
    : contextAt events initial r = contextAt events' initial r := by
  induction r with
  | nil => rfl
  | cons i r ih =>
    rw [contextAt_cons, contextAt_cons, h r (List.mem_cons_self ..)]
    rw [ih (fun r' hr' => h r' (List.mem_cons_of_mem _ hr'))]

variable [Described ε]

theorem overrideAt_history {v : Visitor σ φ κ ε} {context : κ} {path : Path} {route : Route}
    {outline : Outline ε} {s : Session σ} {e : Event κ ε}
    (he : e ∈ history v context path route outline s) (hphase : e.phase = .enter)
    : overrideAt (history v context path route outline s) e.route = e.outcome.override? := by
  cases hat : overrideAt (history v context path route outline s) e.route with
  | none =>
    have := List.findSome?_eq_none_iff.1 hat e he
    rw [if_pos ⟨hphase, rfl⟩] at this
    exact this.symm
  | some c =>
    obtain ⟨e', he', h⟩ := List.exists_of_findSome?_eq_some hat
    rw [Option.ite_none_right_eq_some] at h
    obtain ⟨⟨hphase', hroute⟩, hoverride⟩ := h
    rw [enter_unique he hphase he' hphase' hroute.symm, hoverride]

theorem context_history {whole : List (Event κ ε)} {initial : κ} {v : Visitor σ φ κ ε} {context : κ}
    {path : Path} {route : Route} {outline : Outline ε} {s : Session σ} {e : Event κ ε}
    (he : e ∈ history v context path route outline s)
    (hcontext : context = contextAt whole initial route)
    (hoverride : ∀ e ∈ history v context path route outline s, e.phase = .enter →
      overrideAt whole e.route = e.outcome.override?)
    : e.site.context = contextAt whole initial e.route := by
  -- Contexts come from the whole history. The events of this visit are a part of it, and agree with
  -- it on what is handed over below the occurrence that is visited.
  induction outline using Outline.induct generalizing context path route s with
  | mk node children failure ih =>
    rcases mem_history he with
      ⟨hroute, hsite⟩ | ⟨k, edge, child, outcome, s', hk, henter, hmem, hsub⟩
    · rw [hroute, hsite]
      exact hcontext
    · apply ih (edge, child) (List.mem_of_getElem? hk) hmem
      · rw [contextAt_cons, ← hcontext]
        have := hoverride _ henter rfl
        rw [this]
      · intro e' he'
        exact hoverride e' (hsub he')

theorem context_events {v : Visitor σ φ κ ε} {strategy : Strategy ε} {root : Node}
    {finite : strategy.FiniteFrom root.value} {context : κ} {s : Session σ} {e : Event κ ε}
    (he : e ∈ events v strategy root finite context s)
    : e.site.context = contextAt (events v strategy root finite context s) context e.route :=
  context_history he rfl (fun _ => overrideAt_history)

theorem site_events {v : Visitor σ φ κ ε} {strategy : Strategy ε} {root : Node}
    {finite : strategy.FiniteFrom root.value} {context : κ} {s : Session σ} {e e' : Event κ ε}
    (he : e ∈ events v strategy root finite context s)
    (he' : e' ∈ events v strategy root finite context s) (hroute : e.route = e'.route)
    : e.site = e'.site := by
  have hoccurrence : e.occurrence = e'.occurrence :=
    List.inj_on_of_nodup_map (Outline.nodup_preorder _ [] []) (occurrence_history he)
      (occurrence_history he') hroute
  have hcontext : e.site.context = e'.site.context := by
    rw [context_events he, context_events he', hroute]
  simp only [Event.occurrence, Occurrence.mk.injEq] at hoccurrence
  obtain ⟨_, hpath, hnode⟩ := hoccurrence
  calc
    e.site = ⟨e.site.node, e.site.context, e.site.path⟩ := rfl
    _ = ⟨e'.site.node, e'.site.context, e'.site.path⟩ := by rw [hnode, hcontext, hpath]
    _ = e'.site := rfl

/--
Contexts in walks, whether they succeed or not: where the context at an occurrence comes from, that
all phases at an occurrence have the same, and that two walks which hand over the same on the way to
an occurrence reach it in the same context. A value that is handed over replaces the context unless
it is null or the marker.
-/
theorem walk_context {σ' φ' ε' : Type} [Described ε'] (v : Visitor σ φ κ ε)
    (v' : Visitor σ' φ' κ ε') (strategy : Strategy ε) (strategy' : Strategy ε') (root root' : Node)
    (finite : strategy.FiniteFrom root.value) (finite' : strategy'.FiniteFrom root'.value)
    (context : κ) (s : Session σ) (s' : Session σ')
    : walk v.recording strategy root.value finite context (s.recording []) =
        ((walk v strategy root.value finite context s).1,
          (walk v strategy root.value finite context s).2.recording
            (recorded (events v strategy root finite context s)))
      ∧ (∀ e ∈ events v strategy root finite context s,
          e.site.context = contextAt (events v strategy root finite context s) context e.route)
      ∧ (∀ e ∈ events v strategy root finite context s,
          ∀ e' ∈ events v strategy root finite context s, e.route = e'.route → e.site = e'.site)
      ∧ (∀ e ∈ events v strategy root finite context s,
          ∀ e' ∈ events v' strategy' root' finite' context s', e.route = e'.route →
          (∀ r ∈ e.route.ancestors,
            overrideAt (events v strategy root finite context s) r =
              overrideAt (events v' strategy' root' finite' context s') r) →
          e.site.context = e'.site.context)
      ∧ (∀ value : Value,
          (Outcome.suspended (.ofValue value) : Outcome Value ε).override? =
            (Outcome.returned (.ofValue value) : Outcome Value ε).override?
          ∧ ((value = .null ∨ value = .keep) →
            (Outcome.suspended (.ofValue value) : Outcome Value ε).override? = none)
          ∧ (value ≠ .null → value ≠ .keep →
            (Outcome.suspended (.ofValue value) : Outcome Value ε).override? = some value)) := by
  refine ⟨walk_recording v strategy root finite context s, fun e => context_events, ?_, ?_, ?_⟩
  · intro e he e' he' hroute
    exact site_events he he' hroute
  · intro e he e' he' hroute hsame
    rw [context_events he, context_events he', ← hroute]
    exact contextAt_congr hsame
  · exact Override.override?_ofValue

def sampleOverride (last : Value) : List (Script.Rule Unit) :=
  [{ condition := { kind := some (.str "Leaf") }, source := .made fun _ => (last, ()) },
    { source := .made fun _ => (.int 0, ()) }]

theorem walk_context_sample
    : (sampleEvents (sampleOverride .null)).map (fun e => (e.phase, e.route, e.site.context)) =
        [(.start, [], .null), (.enter, [], .null), (.start, [0], .int 0), (.enter, [0], .int 0),
          (.listing, [0], .int 0), (.exit, [0], .int 0), (.listing, [], .null), (.exit, [], .null)]
      ∧ (∀ e ∈ sampleEvents (sampleOverride .null), ∀ e' ∈ sampleEvents (sampleOverride (.int 1)),
          e.route = e'.route →
          (∀ r ∈ e.route.ancestors, overrideAt (sampleEvents (sampleOverride .null)) r =
            overrideAt (sampleEvents (sampleOverride (.int 1))) r) →
          e.site.context = e'.site.context) := by
  refine ⟨?_, ?_⟩
  · rw [sampleEvents, events, unfolding_sampleRoot]
    rfl
  · exact (walk_context (scripted (sampleOverride .null)) (scripted (sampleOverride (.int 1))) .all
      .all sampleRoot sampleRoot sampleFinite sampleFinite .null sampleSession
      sampleSession).2.2.2.1

end Walk

end Arbor
