import Arbor.Proofs.Walk.Recording
import Arbor.Proofs.Walk.TwoPhase

/-!
This module is about the two forms in which a pair of functions can be made a visitor: as callbacks,
or as the two phases of a routine that is suspended between them. Main statement: it does not matter
which of the two is chosen (`walk_interchange`).
-/

namespace Arbor

open Walk

variable {σ φ κ ε : Type}

/--
The visitor whose routine calls `enter`, is suspended with what it returns, and then calls `exit`.
What they raise leaves the routine, and may be changed by that: a routine cannot raise the signal of
its own end.
-/
def Visitor.suspending (leaving : ε → ε) (enter : Site κ → σ → Except ε (Override κ) × σ)
    (exit : Site κ → σ → Except ε Unit × σ) : Visitor σ (Frame κ Unit) κ ε :=
  .twoPhase
    (fun site s =>
      match enter site s with
      | (.ok override, s) => (.ok (override, ()), s)
      | (.error e, s) => (.error (leaving e), s))
    (fun site _ s =>
      match exit site s with
      | (.ok (), s) => (.ok (), s)
      | (.error e, s) => (.error (leaving e), s))

def Visitor.Raises (enter : Site κ → σ → Except ε (Override κ) × σ)
    (exit : Site κ → σ → Except ε Unit × σ) (e : ε) : Prop :=
  ∃ site s, (enter site s).1 = .error e ∨ (exit site s).1 = .error e

namespace Walk

def noteEnter (enter : Site κ → σ → Except ε (Override κ) × σ) (site : Site κ) :
    σ × List (Note κ ε) → Except ε (Override κ) × (σ × List (Note κ ε)) :=
  noting (enter site) fun r => ⟨.enter, site, .ofEnter r⟩

def noteExit (exit : Site κ → σ → Except ε Unit × σ) (site : Site κ) :
    σ × List (Note κ ε) → Except ε Unit × (σ × List (Note κ ε)) :=
  noting (exit site) fun r => ⟨.exit, site, .ofExit r⟩

theorem raises_noted {enter : Site κ → σ → Except ε (Override κ) × σ}
    {exit : Site κ → σ → Except ε Unit × σ} {e : ε}
    (h : Visitor.Raises (noteEnter enter) (noteExit exit) e) : Visitor.Raises enter exit e := by
  obtain ⟨site, s, h⟩ := h
  exact ⟨site, s.1, h⟩

variable [Described ε]

theorem visit_callbacks (enter : Site κ → σ → Except ε (Override κ) × σ)
    (exit : Site κ → σ → Except ε Unit × σ) (context : κ) (path : Path) (node : Node)
    (children : List (Edge × Outline ε)) (failure : Option ε) (s : Session σ)
    : visit (.callbacks enter exit : Visitor σ φ κ ε) context path (.mk node children failure) s =
        match enter ⟨node, context, path⟩ s.state with
        | (.error e, state) => (.error (.raised e), { s.arrive path.length with state })
        | (.ok override, state) =>
          match visitAll (.callbacks enter exit : Visitor σ φ κ ε) (override.apply context) path
            node children failure { s.arrive path.length with state } with
          | (.error fault, s) => (.error fault, s)
          | (.ok (), s) =>
            match exit ⟨node, context, path⟩ s.state with
            | (.error e, state) => (.error (.raised e), { s with state })
            | (.ok (), state) => (.ok (), { s with state }) := by
  have harrive : (s.arrive path.length).state = s.state := rfl
  rw [visit, Visit.start]
  simp only [Session.update_eq, Visit.enter, harrive]
  cases enter ⟨node, context, path⟩ s.state with
  | mk result state =>
    cases result with
    | error e => rfl
    | ok override =>
      dsimp only
      generalize visitAll _ (override.apply context) path node children failure _ = below
      obtain ⟨result, s'⟩ := below
      cases result with
      | error fault =>
        -- there is nothing to close
        rfl
      | ok u =>
        simp only [Visit.exit, Visit.withStatus, if_true, Session.update_eq]
        cases exit ⟨node, context, path⟩ s'.state with
        | mk result state => cases result <;> rfl

section Interchange

variable {leaving : ε → ε} {enter : Site κ → σ → Except ε (Override κ) × σ}
  {exit : Site κ → σ → Except ε Unit × σ}

theorem visitAll_suspending (children : List (Edge × Outline ε))
    (ih : ∀ entry ∈ children, ∀ context path (s : Session σ),
      visit (.suspending leaving enter exit) context path entry.2 s =
        visit (.callbacks enter exit : Visitor σ φ κ ε) context path entry.2 s)
    (context : κ) (path : Path) (parent : Node) (failure : Option ε) (s : Session σ)
    : visitAll (.suspending leaving enter exit) context path parent children failure s =
        visitAll (.callbacks enter exit : Visitor σ φ κ ε) context path parent children failure
          s := by
  induction children generalizing s with
  | nil => cases failure <;> rfl
  | cons entry rest ihrest =>
    obtain ⟨edge, child⟩ := entry
    rw [visitAll, visitAll, ih (edge, child) (List.mem_cons_self ..)]
    generalize visit _ context (path.descend parent edge) child s = out
    obtain ⟨result, s'⟩ := out
    cases result with
    | error fault => rfl
    | ok u => exact ihrest (fun entry h => ih entry (List.mem_cons_of_mem _ h)) s'

theorem visit_suspending (h : ∀ e, Visitor.Raises enter exit e → leaving e = e)
    (outline : Outline ε) (context : κ) (path : Path) (s : Session σ)
    : visit (.suspending leaving enter exit) context path outline s =
        visit (.callbacks enter exit : Visitor σ φ κ ε) context path outline s := by
  induction outline using Outline.induct generalizing context path s with
  | mk node children failure ih =>
    rw [visit_callbacks, Visitor.suspending, visit_twoPhase, ← Visitor.suspending]
    cases henter : enter ⟨node, context, path⟩ s.state with
    | mk result state =>
      cases result with
      | error e =>
        dsimp only
        rw [h e ⟨_, s.state, .inl (by rw [henter])⟩]
      | ok override =>
        dsimp only
        rw [visitAll_suspending children ih]
        generalize visitAll _ (override.apply context) path node children failure _ = below
        obtain ⟨result, s'⟩ := below
        cases result with
        | error fault => rfl
        | ok u =>
          cases hexit : exit ⟨node, context, path⟩ s'.state with
          | mk result state =>
            cases result with
            | error e =>
              simp only [hexit]
              rw [h e ⟨_, s'.state, .inr (by rw [hexit])⟩]
            | ok u => simp only [hexit]

theorem walk_suspending (h : ∀ e, Visitor.Raises enter exit e → leaving e = e)
    (strategy : Strategy ε) (root : Value) (finite : strategy.FiniteFrom root) (context : κ)
    (s : Session σ)
    : walk (.suspending leaving enter exit) strategy root finite context s =
        walk (.callbacks enter exit : Visitor σ φ κ ε) strategy root finite context s := by
  unfold walk
  split
  · rfl
  · rw [walkOutline, walkOutline, visit_suspending h]

theorem walk_noted (enter : Site κ → σ → Except ε (Override κ) × σ)
    (exit : Site κ → σ → Except ε Unit × σ) (strategy : Strategy ε) (root : Value)
    (finite : strategy.FiniteFrom root) (context : κ) (s : Session σ)
    : ∃ calls, walk (Visitor.callbacks enter exit : Visitor σ φ κ ε).recording strategy root finite
          context (s.recording []) =
        ((walk (.callbacks enter exit : Visitor σ φ κ ε) strategy root finite context s).1,
          (walk (.callbacks enter exit : Visitor σ φ κ ε) strategy root finite context s).2.recording
            calls) := by
  cases hroot : Node.ofValue? root with
  | none =>
    refine ⟨[], ?_⟩
    unfold walk
    split
    next => rfl
    next n h =>
      rw [hroot] at h
      contradiction
  | some n =>
    have hvalue := Node.ofValue?_eq_some.1 hroot
    subst hvalue
    exact ⟨_, walk_recording (.callbacks enter exit) strategy n finite context s⟩

end Interchange

/--
Callbacks and routines are interchangeable. For two functions that raise nothing but what leaves a
routine unchanged, the walk with the callbacks and the walk with the routine have the same result
and leave the same session: state, counters and log. Where the functions note each of their calls,
both walks leave the same calls, and go otherwise as without notes.
-/
theorem walk_interchange (leaving : ε → ε) (enter : Site κ → σ → Except ε (Override κ) × σ)
    (exit : Site κ → σ → Except ε Unit × σ)
    (raises : ∀ e, Visitor.Raises enter exit e → leaving e = e) (strategy : Strategy ε)
    (root : Value) (finite : strategy.FiniteFrom root) (context : κ) (s : Session σ)
    : walk (.suspending leaving enter exit) strategy root finite context s =
        walk (.callbacks enter exit : Visitor σ φ κ ε) strategy root finite context s
      ∧ ∃ calls,
          walk (.callbacks (noteEnter enter) (noteExit exit) :
              Visitor (σ × List (Note κ ε)) φ κ ε) strategy root finite context (s.recording []) =
            ((walk (.callbacks enter exit : Visitor σ φ κ ε) strategy root finite context s).1,
              (walk (.callbacks enter exit : Visitor σ φ κ ε) strategy root finite context
                s).2.recording calls)
          ∧ walk (.suspending leaving (noteEnter enter) (noteExit exit)) strategy root finite
              context (s.recording []) =
            ((walk (.suspending leaving enter exit) strategy root finite context s).1,
              (walk (.suspending leaving enter exit) strategy root finite context s).2.recording
                calls) := by
  have hplain := walk_suspending raises (φ := φ) strategy root finite context s
  have hnoted := fun ψ => walk_suspending (fun e he => raises e (raises_noted he)) (φ := ψ) strategy
    root finite context (s.recording [])
  obtain ⟨calls, hcalls⟩ := walk_noted enter exit (φ := φ) strategy root finite context s
  have hrecording : walk (.suspending leaving (noteEnter enter) (noteExit exit)) strategy root
      finite context (s.recording []) = _ := (hnoted (Routine.Marked φ κ)).trans hcalls
  refine ⟨hplain, calls, ?_, ?_⟩
  · rw [← hnoted φ, hrecording]
  · rw [hplain, hrecording]

def sampleEnter (_ : Site Value) (visits : Nat) :
    Except Script.Failure (Override Value) × Nat :=
  (.ok (.replace (.int visits)), visits + 1)

def sampleExit (site : Site Value) (visits : Nat) : Except Script.Failure Unit × Nat :=
  if site.node.kind = "Leaf" then (.error ⟨"ValueError", "boom"⟩, visits + 10) else (.ok (), visits)

theorem walk_interchange_sample
    : (walk (.suspending Script.Failure.leaving sampleEnter sampleExit) .all sampleRoot.value
          sampleFinite .null { state := 0 }).2.state = 12
      ∧ walk (.suspending Script.Failure.leaving sampleEnter sampleExit) .all sampleRoot.value
          sampleFinite .null { state := 0 } =
        walk (.callbacks sampleEnter sampleExit : Visitor Nat Unit Value Script.Failure) .all
          sampleRoot.value sampleFinite .null { state := 0 } := by
  refine ⟨?_, ?_⟩
  · rw [walk_eq_visit, unfolding_sampleRoot]
    rfl
  · apply And.left
    apply walk_interchange
    intro e he
    obtain ⟨site, s, h | h⟩ := he
    · contradiction
    · rw [sampleExit] at h
      split at h
      · injection h with h
        subst h
        rfl
      · contradiction

end Walk

end Arbor
