import Arbor.Proofs.Walk.Reuse
import Arbor.Proofs.Walk.TwoPhase

/-!
This module compares two-phase visitors by their phases. Where the phases of one visitor do to the
image of a state what those of another do to the state, so do their walks (`walk_map`). Where second
phases change nothing, what a visit leaves behind is the work of the first phases, in the order in
which they were run, up to one that fails (`state_visit`).
-/

namespace Arbor

open Walk

section Map

variable {σ σ' κ κ' : Type}

def Override.map (g : κ → κ') : Override κ → Override κ'
  | .bare => .bare
  | .keep => .keep
  | .replace context => .replace (g context)

theorem Override.apply_map (g : κ → κ') (o : Override κ) (context : κ)
    : (o.map g).apply (g context) = g (o.apply context) := by
  cases o <;> rfl

def Site.map (g : κ → κ') (site : Site κ) : Site κ' :=
  ⟨site.node, g site.context, site.path⟩

def Session.map (f : σ → σ') (s : Session σ) : Session σ' :=
  ⟨f s.state, s.visited, s.maxDepth, s.log⟩

end Map

namespace Walk

variable {σ σ' κ κ' ε β β' : Type}
  {enter : Site κ → σ → Except ε (Override κ × β) × σ}
  {exit : Site κ → β → σ → Except ε Unit × σ}
  {enter' : Site κ' → σ' → Except ε (Override κ' × β') × σ'}
  {exit' : Site κ' → β' → σ' → Except ε Unit × σ'}
  {f : σ → σ'} {g : κ → κ'} {kept : β → β'}

def enters (events : List (Event κ ε)) : List (Event κ ε) :=
  events.filter (·.phase = .enter)

theorem enters_append (events later : List (Event κ ε))
    : enters (events ++ later) = enters events ++ enters later :=
  List.filter_append ..

theorem enters_bracket {first second : Event κ ε} {ending : List (Event κ ε)}
    (middle : List (Event κ ε)) (hfirst : first.phase = .start) (hsecond : second.phase = .enter)
    (hending : enters ending = [])
    : enters (first :: second :: (middle ++ ending)) = second :: enters middle := by
  simp only [enters, List.filter_cons, List.filter_append, hfirst, hsecond] at hending ⊢
  simp [hending]

def enterAll (enter : Site κ → σ → Except ε (Override κ × β) × σ) (events : List (Event κ ε))
    (state : σ) : σ :=
  (enters events).foldl (fun state e => (enter e.site state).2) state

theorem enterAll_append (events later : List (Event κ ε)) (state : σ)
    : enterAll enter (events ++ later) state =
        enterAll enter later (enterAll enter events state) := by
  rw [enterAll, enters_append, List.foldl_append]
  rfl

variable [Described ε]

theorem visitAll_map {v : Visitor σ (Visitor.Frame κ β) κ ε}
    {v' : Visitor σ' (Visitor.Frame κ' β') κ' ε} (context : κ) (path : Path) (parent : Node)
    (children : List (Edge × Outline ε)) (failure : Option ε) (s : Session σ)
    (ih : ∀ entry ∈ children, ∀ context path (s : Session σ),
      visit v' (g context) path entry.2 (s.map f) =
        ((visit v context path entry.2 s).1, (visit v context path entry.2 s).2.map f))
    : visitAll v' (g context) path parent children failure (s.map f) =
        ((visitAll v context path parent children failure s).1,
          (visitAll v context path parent children failure s).2.map f) := by
  induction children generalizing s with
  | nil => cases failure <;> rfl
  | cons entry rest ihrest =>
    obtain ⟨edge, child⟩ := entry
    rw [visitAll, visitAll, ih (edge, child) (List.mem_cons_self ..)]
    generalize visit v context (path.descend parent edge) child s = out
    obtain ⟨result, s'⟩ := out
    cases result with
    | error fault => rfl
    | ok u => exact ihrest s' (fun entry h => ih entry (List.mem_cons_of_mem _ h))

theorem visit_map
    (henter : ∀ site state, enter' (site.map g) (f state) =
      ((enter site state).1.map fun out => (out.1.map g, kept out.2), f (enter site state).2))
    (hexit : ∀ site k state, exit' (site.map g) (kept k) (f state) =
      ((exit site k state).1, f (exit site k state).2))
    (context : κ) (path : Path) (outline : Outline ε) (s : Session σ)
    : visit (.twoPhase enter' exit') (g context) path outline (s.map f) =
        ((visit (.twoPhase enter exit) context path outline s).1,
          (visit (.twoPhase enter exit) context path outline s).2.map f) := by
  induction outline using Outline.induct generalizing context path s with
  | mk node children failure ih =>
    have hsite : (⟨node, g context, path⟩ : Site κ') = (Site.mk node context path).map g := rfl
    have hstate : (s.map f).state = f s.state := rfl
    rw [visit_twoPhase, visit_twoPhase, hsite, hstate, henter]
    obtain ⟨result, state⟩ := enter ⟨node, context, path⟩ s.state
    cases result with
    | error e => rfl
    | ok entered =>
      obtain ⟨override, k⟩ := entered
      simp only [Except.map]
      rw [Override.apply_map]
      have hall := visitAll_map (override.apply context) path node children failure
        { s.arrive path.length with state } (fun entry h _ _ => ih entry h _ _)
      rw [show ({ (s.map f).arrive path.length with state := f state } : Session σ') =
        Session.map f { s.arrive path.length with state } from rfl, hall]
      generalize visitAll _ (override.apply context) path node children failure _ = out
      obtain ⟨result, s'⟩ := out
      cases result with
      | error fault => rfl
      | ok u =>
        have hstate' : (s'.map f).state = f s'.state := rfl
        dsimp only
        rw [hstate', hexit]
        obtain ⟨result, state'⟩ := exit ⟨node, context, path⟩ k s'.state
        cases result <;> rfl

theorem walk_map
    (henter : ∀ site state, enter' (site.map g) (f state) =
      ((enter site state).1.map fun out => (out.1.map g, kept out.2), f (enter site state).2))
    (hexit : ∀ site k state, exit' (site.map g) (kept k) (f state) =
      ((exit site k state).1, f (exit site k state).2))
    (strategy : Strategy ε) (root : Value) (finite : strategy.FiniteFrom root) (context : κ)
    (s : Session σ)
    : walk (.twoPhase enter' exit') strategy root finite (g context) (s.map f) =
        ((walk (.twoPhase enter exit) strategy root finite context s).1,
          (walk (.twoPhase enter exit) strategy root finite context s).2.map f) := by
  unfold walk
  split
  next => rfl
  next n hn =>
    have hstart : (s.map f).restart.record
        (.walkStarted (strategy.outline n (finite n hn)).node.kind) =
        (s.restart.record (.walkStarted (strategy.outline n (finite n hn)).node.kind)).map f := rfl
    rw [walkOutline, walkOutline, hstart, visit_map henter hexit]
    generalize visit (.twoPhase enter exit) context [] _ _ = out
    obtain ⟨result, s'⟩ := out
    cases result <;> rfl

theorem enters_twoPhase (context : κ) (path : Path) (route : Route) (node : Node)
    (children : List (Edge × Outline ε)) (failure : Option ε) (s : Session σ)
    : enters (history (.twoPhase enter exit) context path route (.mk node children failure) s) =
        match enter ⟨node, context, path⟩ s.state with
        | (.error e, _) => [⟨⟨.enter, ⟨node, context, path⟩, .raised e⟩, route⟩]
        | (.ok (override, _), state) =>
          ⟨⟨.enter, ⟨node, context, path⟩, .suspended override⟩, route⟩ ::
            enters (historyAll (.twoPhase enter exit) ⟨node, context, path⟩
              (override.apply context) route 0 children failure
              { s.arrive path.length with state }) := by
  have harrive : (s.arrive path.length).state = s.state := rfl
  rw [history, Visitor.twoPhase, Visit.start]
  simp only [Session.update_eq, Visit.enter, Visit.enterNote, Visitor.twoPhaseRoutine, harrive]
  cases enter ⟨node, context, path⟩ s.state with
  | mk result state =>
    cases result with
    | error e => rfl
    | ok entered =>
      dsimp only
      generalize visitAll _ (entered.1.apply context) path node children failure _ = below
      obtain ⟨result, s'⟩ := below
      cases result with
      | error fault => exact enters_bracket _ rfl rfl rfl
      | ok u =>
        apply enters_bracket
        · rfl
        · rfl
        · simp only [Visit.exitNotes, Visit.withStatus, Visit.withBody]
          cases exit ⟨node, context, path⟩ entered.2 s'.state with
          | mk result state => cases result <;> rfl

theorem state_visitAll {v : Visitor σ (Visitor.Frame κ β) κ ε} (site : Site κ) (context : κ)
    (route : Route) (i : Nat) (children : List (Edge × Outline ε)) (failure : Option ε)
    (s : Session σ)
    (ih : ∀ entry ∈ children, ∀ context path route (s : Session σ),
      (visit v context path entry.2 s).2.state =
        enterAll enter (history v context path route entry.2 s) s.state)
    : (visitAll v context site.path site.node children failure s).2.state =
        enterAll enter (historyAll v site context route i children failure s) s.state := by
  induction children generalizing i s with
  | nil => cases failure <;> rfl
  | cons entry rest ihrest =>
    obtain ⟨edge, child⟩ := entry
    have hchild := ih (edge, child) (List.mem_cons_self ..) context
      (site.path.descend site.node edge) (i :: route) s
    rw [visitAll, historyAll, enterAll_append, ← hchild]
    generalize visit v context (site.path.descend site.node edge) child s = out
    obtain ⟨result, s'⟩ := out
    cases result with
    | error fault => rfl
    | ok u => exact ihrest (i + 1) s' (fun entry h => ih entry (List.mem_cons_of_mem _ h))

theorem state_visit (hexit : ∀ site k state, exit site k state = (.ok (), state)) (context : κ)
    (path : Path) (route : Route) (outline : Outline ε) (s : Session σ)
    : (visit (.twoPhase enter exit) context path outline s).2.state =
        enterAll enter (history (.twoPhase enter exit) context path route outline s) s.state := by
  induction outline using Outline.induct generalizing context path route s with
  | mk node children failure ih =>
    rw [visit_twoPhase, enterAll, enters_twoPhase]
    cases henter : enter ⟨node, context, path⟩ s.state with
    | mk result state =>
      cases result with
      | error e =>
        dsimp only
        rw [List.foldl_cons, List.foldl_nil, henter]
      | ok entered =>
        have hall := state_visitAll ⟨node, context, path⟩ (entered.1.apply context) route 0
          children failure { s.arrive path.length with state } ih
        rw [enterAll] at hall
        dsimp only at hall ⊢
        rw [List.foldl_cons, henter, ← hall]
        generalize visitAll _ (entered.1.apply context) path node children failure _ = out
        obtain ⟨result, s'⟩ := out
        cases result with
        | error fault => rfl
        | ok u =>
          dsimp only
          rw [hexit]

end Walk

end Arbor
