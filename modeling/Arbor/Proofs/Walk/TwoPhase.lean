import Arbor.Proofs.Walk.Event

/-!
This module says what a visit by a two-phase visitor does, without the routine that carries it out:
enter, visit the children, exit. Closing such a visit has no effect, so a fault from below passes
through unchanged.
-/

namespace Arbor

open Walk

variable {σ κ ε β : Type} [Described ε]

theorem Walk.visit_twoPhase (enter : Site κ → σ → Except ε (Override κ × β) × σ)
    (exit : Site κ → β → σ → Except ε Unit × σ) (context : κ) (path : Path) (node : Node)
    (children : List (Edge × Outline ε)) (failure : Option ε) (s : Session σ)
    : visit (.twoPhase enter exit) context path (.mk node children failure) s =
        match enter ⟨node, context, path⟩ s.state with
        | (.error e, state) => (.error (.raised e), { s.arrive path.length with state })
        | (.ok (override, kept), state) =>
          match visitAll (.twoPhase enter exit) (override.apply context) path node children failure
            { s.arrive path.length with state } with
          | (.error fault, s) => (.error fault, s)
          | (.ok (), s) =>
            match exit ⟨node, context, path⟩ kept s.state with
            | (.error e, state) => (.error (.raised e), { s with state })
            | (.ok (), state) => (.ok (), { s with state }) := by
  have harrive : (s.arrive path.length).state = s.state := rfl
  rw [visit, Visitor.twoPhase, Visit.start]
  simp only [Session.update_eq, Visit.enter, Visitor.twoPhaseRoutine, harrive]
  cases enter ⟨node, context, path⟩ s.state with
  | mk result state =>
    cases result with
    | error e => rfl
    | ok entered =>
      dsimp only
      generalize visitAll _ (entered.1.apply context) path node children failure _ = below
      obtain ⟨result, s'⟩ := below
      cases result with
      | error fault =>
        -- the routine is interrupted, and ends at once
        rfl
      | ok u =>
        simp only [Visit.exit, Visit.withStatus, Visit.withBody, if_true, Session.update_eq]
        cases exit ⟨node, context, path⟩ entered.2 s'.state with
        | mk result state => cases result <;> rfl

end Arbor
