import Arbor.Census
import Arbor.Proofs.Walk.History

/-!
This module is about the faults of a walk. What the code of a visitor raises is its own affair; all
other faults are breaches of the order of phases. A visitor that never breaks this order ends a walk
over nodes by one of the errors that it may raise, or not at all (`fault_walk`).
-/

namespace Arbor

open Walk

def Fault.IsRaised {ε : Type} (fault : Fault ε) (errors : ε → Prop) : Prop :=
  ∃ e, errors e ∧ fault = .raised e

variable {σ φ κ ε : Type} {errors : ε → Prop}

/--
A visitor that raises nothing but some errors, and is never suspended where its second phase should
end.
-/
structure Visitor.Compliant (v : Visitor σ φ κ ε) (errors : ε → Prop) : Prop where
  start : ∀ site s fault, (Visit.start v site s).1 = .error fault → fault.IsRaised errors
  enter : ∀ site s s' current, Visit.start v site s = (.ok current, s') →
    ∀ t fault, (current.enter t).1 = .error fault → fault.IsRaised errors
  exit : ∀ site s s' current, Visit.start v site s = (.ok current, s') →
    ∀ t t' override entered, current.enter t = (.ok override, entered, t') →
      ∀ u fault, (entered.exit u).1 = .error fault → fault.IsRaised errors

theorem Visitor.compliant_callbacks {enter : Site κ → σ → Except ε (Override κ) × σ}
    {exit : Site κ → σ → Except ε Unit × σ}
    (enter_error : ∀ site s e, (enter site s).1 = .error e → errors e)
    (exit_error : ∀ site s e, (exit site s).1 = .error e → errors e)
    : Compliant (.callbacks enter exit : Visitor σ φ κ ε) errors := by
  constructor
  · intro site s fault h
    contradiction
  · intro site s s' current hstart t fault h
    cases hstart
    have herror := enter_error site t.state
    simp only [Visit.enter, Session.update_eq] at h
    generalize enter site t.state = out at h herror
    obtain ⟨result, state⟩ := out
    cases result with
    | error e =>
      cases h
      exact ⟨e, herror e rfl, rfl⟩
    | ok _ => contradiction
  · intro site s s' current hstart t t' override entered henter u fault h
    cases hstart
    have herror := exit_error site u.state
    simp only [Visit.enter, Session.update_eq] at henter
    generalize enter site t.state = out at henter
    obtain ⟨result, state⟩ := out
    cases result with
    | error e => cases henter
    | ok override =>
      cases henter
      simp only [Visit.exit, Visit.withStatus, if_true, Session.update_eq] at h
      generalize exit site u.state = out at h herror
      obtain ⟨result, state'⟩ := out
      cases result with
      | error e =>
        cases h
        exact ⟨e, herror e rfl, rfl⟩
      | ok _ => contradiction

theorem Visitor.compliant_twoPhase {β : Type} {enter : Site κ → σ → Except ε (Override κ × β) × σ}
    {exit : Site κ → β → σ → Except ε Unit × σ}
    (enter_error : ∀ site s e, (enter site s).1 = .error e → errors e)
    (exit_error : ∀ site kept s e, (exit site kept s).1 = .error e → errors e)
    : Compliant (.twoPhase enter exit) errors := by
  constructor
  · intro site s fault h
    contradiction
  · intro site s s' current hstart t fault h
    cases hstart
    have herror := enter_error site t.state
    simp only [Visit.enter, Session.update_eq, twoPhaseRoutine] at h
    generalize enter site t.state = out at h herror
    obtain ⟨result, state⟩ := out
    cases result with
    | error e =>
      cases h
      exact ⟨e, herror e rfl, rfl⟩
    | ok _ => contradiction
  · intro site s s' current hstart t t' override entered henter u fault h
    cases hstart
    simp only [Visit.enter, Session.update_eq, twoPhaseRoutine] at henter
    generalize enter site t.state = out at henter
    obtain ⟨result, state⟩ := out
    cases result with
    | error e => cases henter
    | ok handed =>
      cases henter
      have herror := exit_error site handed.2 u.state
      simp only [Visit.exit, Visit.withStatus, Visit.withBody, if_true, Session.update_eq] at h
      generalize exit site handed.2 u.state = out at h herror
      obtain ⟨result, state'⟩ := out
      cases result with
      | error e =>
        cases h
        exact ⟨e, herror e rfl, rfl⟩
      | ok _ => contradiction

theorem Strategy.listing_all (errors : ε → Prop) (n : Node) (e : ε)
    (h : ((all : Strategy ε) n).failure = some e) : errors e := by
  have hnone : ((all : Strategy ε) n).failure = none := rfl
  rw [hnone] at h
  contradiction

namespace Walk

variable [Described ε] {v : Visitor σ φ κ ε}

theorem fault_visitAll (children : List (Edge × Outline ε)) {failure : Option ε}
    (listing : ∀ e, failure = some e → errors e)
    (ih : ∀ entry ∈ children, ∀ context path (s : Session σ) fault,
      (visit v context path entry.2 s).1 = .error fault → fault.IsRaised errors)
    (context : κ) (path : Path) (parent : Node) (s : Session σ)
    {fault : Fault ε} (h : (visitAll v context path parent children failure s).1 = .error fault)
    : fault.IsRaised errors := by
  induction children generalizing s with
  | nil =>
    cases failure with
    | none => contradiction
    | some e =>
      cases h
      exact ⟨e, listing e rfl, rfl⟩
  | cons entry rest ihrest =>
    obtain ⟨edge, child⟩ := entry
    have hchild := ih (edge, child) (List.mem_cons_self ..) context (path.descend parent edge) s
    rw [visitAll] at h
    generalize visit v context (path.descend parent edge) child s = out at h hchild
    obtain ⟨result, s'⟩ := out
    cases result with
    | error fault' =>
      cases h
      exact hchild fault rfl
    | ok u => exact ihrest (fun entry hentry => ih entry (List.mem_cons_of_mem _ hentry)) s' h

theorem fault_visit (compliant : v.Compliant errors) {strategy : Strategy ε}
    (listing : ∀ n e, (strategy n).failure = some e → errors e) (n : Node)
    (hacc : Acc strategy.IsChild n) (context : κ) (path : Path) (s : Session σ) {fault : Fault ε}
    (h : (visit v context path (strategy.outline n hacc) s).1 = .error fault)
    : fault.IsRaised errors := by
  induction hacc generalizing context path s fault with
  | intro n hbelow ih =>
    have hall : ∀ context s fault,
        (visitAll v context path n (strategy.outline n (.intro n hbelow)).children
          (strategy n).failure s).1 = .error fault → fault.IsRaised errors := by
      intro context s fault
      refine fault_visitAll _ (listing n) ?_ context path n s
      intro entry hentry context path s fault hfault
      obtain ⟨c, hchild, _, houtline⟩ := Strategy.mem_children_outline hentry
      rw [houtline] at hfault
      exact ih c ⟨entry.1, hchild⟩ context path s hfault
    have hstart := compliant.start ⟨n, context, path⟩ (s.arrive path.length)
    rw [Strategy.outline_eq_mk, visit] at h
    generalize hcalled : Visit.start v ⟨n, context, path⟩ (s.arrive path.length) = out at h hstart
    obtain ⟨result, s'⟩ := out
    cases result with
    | error fault' =>
      cases h
      exact hstart fault rfl
    | ok current =>
      have henter := compliant.enter _ _ _ _ hcalled s'
      dsimp only at h
      generalize hentered : current.enter s' = out at h henter
      obtain ⟨result, current', s₁⟩ := out
      cases result with
      | error fault' =>
        cases h
        exact henter fault rfl
      | ok override =>
        have hbelow := hall (override.apply context) s₁
        dsimp only at h
        generalize visitAll v (override.apply context) path n _ (strategy n).failure s₁ = out
          at h hbelow
        obtain ⟨result, s₂⟩ := out
        cases result with
        | error fault' =>
          cases h
          exact hbelow fault rfl
        | ok u => exact compliant.exit _ _ _ _ hcalled _ _ _ _ hentered s₂ fault h

theorem fault_walk (compliant : v.Compliant errors) {strategy : Strategy ε}
    (listing : ∀ n e, (strategy n).failure = some e → errors e) {root : Value}
    {finite : strategy.FiniteFrom root} {context : κ} {s : Session σ} {fault : Fault ε}
    (hroot : root.isNode = true) (h : (walk v strategy root finite context s).1 = .error fault)
    : fault.IsRaised errors := by
  obtain ⟨kind, hkind⟩ := Option.isSome_iff_exists.1 hroot
  have hnode : Node.ofValue? root = some ⟨root, kind, hkind⟩ := Node.ofValue?_eq_some.2 rfl
  unfold walk at h
  split at h
  next hnone =>
    rw [hnode] at hnone
    contradiction
  next n _ => exact fault_visit compliant listing _ _ _ _ _ h

theorem walk_ok (compliant : v.Compliant fun _ => False) {root : Value} {context : κ}
    {s : Session σ} (hroot : root.isNode = true)
    : (walk v .all root (Strategy.all_finiteFrom root) context s).1 = .ok () := by
  cases h : (walk v .all root (Strategy.all_finiteFrom root) context s).1 with
  | error fault =>
    obtain ⟨_, hfalse, _⟩ := fault_walk compliant (Strategy.listing_all _) hroot h
    contradiction
  | ok u => rfl

theorem walk_of_not_node (v : Visitor σ φ κ ε) (strategy : Strategy ε) {root : Value}
    (finite : strategy.FiniteFrom root) (context : κ) (s : Session σ) (h : root.isNode = false)
    : walk v strategy root finite context s = (.error (.invalidRoot root), s) := by
  unfold walk
  split
  next => rfl
  next n hn =>
    have hvalue := Node.ofValue?_eq_some.1 hn
    rw [← hvalue, Value.isNode, n.kind_eq] at h
    contradiction

end Walk

theorem Census.compliant_visitor
    : (visitor : Visitor Census Unit Unit ε).Compliant fun _ => False :=
  Visitor.compliant_callbacks (fun _ _ _ h => nomatch h) (fun _ _ _ h => nomatch h)

end Arbor
