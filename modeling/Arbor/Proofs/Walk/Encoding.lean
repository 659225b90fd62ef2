import Arbor.Census
import Arbor.Proofs.Value.Encoding
import Arbor.Proofs.Walk.Fault
import Arbor.Proofs.Walk.Recording

/-!
This module is about walks over trees that differ in the forms of their records only. A discreet
visitor looks at the kinds of nodes, at edges and at contexts, and not at what stands in the fields.
Two walks of such a visitor go in lockstep: phase by phase, they tell it the same, and it comes back
in the same way. Main statement: nothing that can be seen of a walk depends on the forms of the
records (`walk_reencoded`).
-/

namespace Arbor

open Walk Value

variable {σ φ κ ε : Type}

/-- What a discreet visitor sees of a path: the kinds of the nodes on it, and the edges. -/
def Path.sight (path : Path) : List (Option String × Edge) :=
  path.map fun step => (step.node.kind?, step.toEdge)

theorem Path.length_of_sight {path other : Path} (h : path.sight = other.sight)
    : path.length = other.length := by
  have hlength := congrArg List.length h
  simpa only [sight, List.length_map] using hlength

structure Site.Sight (κ : Type) where
  kind : String
  context : κ
  path : List (Option String × Edge)

def Site.sight (site : Site κ) : Site.Sight κ :=
  ⟨site.node.kind, site.context, site.path.sight⟩

inductive Fault.Sight (ε : Type) where
  | suspendedTwice (kind : String) (location : Option Location) (path : List (Option String × Edge))
  | other (fault : Fault ε)

def Fault.sight : Fault ε → Fault.Sight ε
  | .suspendedTwice kind node path =>
    .suspendedTwice kind (Location.ofValue? node none) path.sight
  | fault => .other fault

theorem Fault.name_of_sight [Described ε] {fault other : Fault ε} (h : fault.sight = other.sight)
    : fault.name = other.name := by
  cases fault <;> cases other <;>
    first | rfl | exact congrArg name (Sight.other.inj h) | contradiction

namespace Walk

structure Note.Sight (κ ε : Type) where
  phase : Phase
  site : Site.Sight κ
  outcome : Outcome κ ε

def Note.sight (note : Note κ ε) : Note.Sight κ ε :=
  ⟨note.phase, note.site.sight, note.outcome⟩

def Event.sight (e : Event κ ε) : Route × Note.Sight κ ε :=
  (e.route, e.toNote.sight)

def seen (out : Except (Fault ε) Unit × Session σ) : Except (Fault.Sight ε) Unit × Session σ :=
  (out.1.mapError Fault.sight, out.2)

theorem seen_cases {out other : Except (Fault ε) Unit × Session σ} (h : seen out = seen other)
    : (∃ fault fault' s, out = (.error fault, s) ∧ other = (.error fault', s)
        ∧ fault.sight = fault'.sight)
      ∨ ∃ s, out = (.ok (), s) ∧ other = (.ok (), s) := by
  obtain ⟨result, s⟩ := out
  obtain ⟨result', s'⟩ := other
  obtain ⟨hresult, hsession⟩ := Prod.mk.inj h
  dsimp only at hresult hsession
  subst hsession
  cases result with
  | error fault =>
    cases result' with
    | error fault' => exact .inl ⟨fault, fault', s, rfl, rfl, Except.error.inj hresult⟩
    | ok _ => cases hresult
  | ok _ =>
    cases result' with
    | error fault' => cases hresult
    | ok _ => exact .inr ⟨s, rfl, rfl⟩

theorem sight_onRoute (note : Note κ ε) (route : Route)
    : (note.onRoute route).sight = (route, note.sight) :=
  rfl

theorem map_sight_onRoute {notes others : List (Note κ ε)}
    (h : notes.map Note.sight = others.map Note.sight) (route : Route)
    : (notes.map (·.onRoute route)).map Event.sight =
        (others.map (·.onRoute route)).map Event.sight := by
  have hroute : ∀ notes : List (Note κ ε), (notes.map (·.onRoute route)).map Event.sight =
      (notes.map Note.sight).map fun note => (route, note) := by
    intro notes
    simp only [List.map_map, Function.comp_def, sight_onRoute]
  rw [hroute, hroute, h]

end Walk

inductive Routine.SameStep (alike : φ → φ → Prop) :
    Reaction φ κ ε × σ → Reaction φ κ ε × σ → Prop
  | suspended (override : Override κ) {f g : φ} (h : alike f g) (s : σ) :
      SameStep alike (.suspended override f, s) (.suspended override g, s)
  | finished (s : σ) : SameStep alike (.finished, s) (.finished, s)
  | raised (e : ε) (s : σ) : SameStep alike (.raised e, s) (.raised e, s)

theorem Routine.SameStep.outcome {alike : φ → φ → Prop} {out other : Reaction φ κ ε × σ}
    (h : SameStep alike out other) : Outcome.ofReaction out.1 = Outcome.ofReaction other.1 := by
  cases h <;> rfl

inductive Visitor.SameCall (alike : φ → φ → Prop) :
    Except ε (Option φ) × σ → Except ε (Option φ) × σ → Prop
  | frame {f g : φ} (h : alike f g) (s : σ) : SameCall alike (.ok (some f), s) (.ok (some g), s)
  | spent (s : σ) : SameCall alike (.ok none, s) (.ok none, s)
  | error (e : ε) (s : σ) : SameCall alike (.error e, s) (.error e, s)

structure Routine.Discreet (code : Routine σ φ κ ε) (alike : φ → φ → Prop) : Prop where
  resume : ∀ {f g}, alike f g → ∀ s, SameStep alike (code.resume f s) (code.resume g s)
  interrupt : ∀ {f g}, alike f g → ∀ s, SameStep alike (code.interrupt f s) (code.interrupt g s)

/--
A visitor that looks at nothing but the kinds of nodes, the edges of paths and contexts. The frames
of its routines may hold sites, as long as that is all it makes of them.
-/
inductive Visitor.Discreet : Visitor σ φ κ ε → Prop
  | callbacks {enter : Site κ → σ → Except ε (Override κ) × σ}
      {exit : Site κ → σ → Except ε Unit × σ}
      (enter_eq : ∀ {a b}, a.sight = b.sight → enter a = enter b)
      (exit_eq : ∀ {a b}, a.sight = b.sight → exit a = exit b) :
      Discreet (.callbacks enter exit)
  | procedure {call : Site κ → σ → Except ε (Option φ) × σ} {code : Routine σ φ κ ε}
      (alike : φ → φ → Prop) (discreet : code.Discreet alike)
      (call_same : ∀ {a b}, a.sight = b.sight → ∀ s, SameCall alike (call a s) (call b s)) :
      Discreet (.procedure call code)

structure Site.Alike (a b : Site κ) : Prop where
  node : SameNode a.node b.node
  context : a.context = b.context
  path : a.path.sight = b.path.sight

theorem Site.Alike.sight {a b : Site κ} (h : a.Alike b) : a.sight = b.sight := by
  rw [Site.sight, Site.sight, h.node.kind, h.context, h.path]

theorem Path.sight_descend {path other : Path} {n m : Node} (hpath : path.sight = other.sight)
    (hnode : SameNode n m) (edge : Edge)
    : (path.descend n edge).sight = (other.descend m edge).sight := by
  have hkind := Value.Reencoded.kind? hnode
  simp only [sight, descend, List.map_append, List.map_cons, List.map_nil, hkind] at hpath ⊢
  rw [hpath]

namespace Visit

inductive Alike : Visit σ φ κ ε → Visit σ φ κ ε → Prop
  | callbacks {a b : Site κ} (site : a.Alike b) (status : Status)
      {enter : Site κ → σ → Except ε (Override κ) × σ} {exit : Site κ → σ → Except ε Unit × σ}
      (enter_eq : ∀ {a b}, a.sight = b.sight → enter a = enter b)
      (exit_eq : ∀ {a b}, a.sight = b.sight → exit a = exit b) :
      Alike ⟨a, status, .callbacks enter exit⟩ ⟨b, status, .callbacks enter exit⟩
  | routine {a b : Site κ} (site : a.Alike b) (status : Status) {code : Routine σ φ κ ε}
      {alike : φ → φ → Prop} (discreet : code.Discreet alike) {f g : φ} (h : alike f g) :
      Alike ⟨a, status, .routine code (some f)⟩ ⟨b, status, .routine code (some g)⟩
  | ended {a b : Site κ} (site : a.Alike b) (status : Status) (code : Routine σ φ κ ε) :
      Alike ⟨a, status, .routine code none⟩ ⟨b, status, .routine code none⟩
  | spent {a b : Site κ} (site : a.Alike b) (status : Status) :
      Alike ⟨a, status, .spent⟩ ⟨b, status, .spent⟩

theorem startNote_alike {v : Visitor σ φ κ ε} (discreet : v.Discreet) {a b : Site κ}
    (h : a.Alike b) (s : Session σ) : (startNote v a s).sight = (startNote v b s).sight := by
  cases discreet with
  | callbacks _ _ => simp only [startNote, Note.sight, h.sight]
  | @procedure call _ alike _ call_same =>
    have hcall := call_same h.sight s.state
    simp only [startNote, Note.sight, h.sight]
    generalize call a s.state = out at hcall ⊢
    generalize call b s.state = out' at hcall ⊢
    cases hcall <;> rfl

theorem start_alike {v : Visitor σ φ κ ε} (discreet : v.Discreet) {a b : Site κ} (h : a.Alike b)
    (s : Session σ)
    : (∃ fault s', start v a s = (.error fault, s') ∧ start v b s = (.error fault, s'))
      ∨ ∃ x y s', start v a s = (.ok x, s') ∧ start v b s = (.ok y, s') ∧ x.Alike y := by
  cases discreet with
  | callbacks enter_eq exit_eq =>
    exact .inr ⟨_, _, s, rfl, rfl, .callbacks h .pending enter_eq exit_eq⟩
  | @procedure call code alike hcode call_same =>
    have hcall := call_same h.sight s.state
    simp only [start, Session.update_eq]
    generalize call a s.state = out at hcall ⊢
    generalize call b s.state = out' at hcall ⊢
    cases hcall with
    | frame hframe state => exact .inr ⟨_, _, _, rfl, rfl, .routine h .pending hcode hframe⟩
    | spent state => exact .inr ⟨_, _, _, rfl, rfl, .spent h .pending⟩
    | error e state => exact .inl ⟨_, _, rfl, rfl⟩

section

variable {x y : Visit σ φ κ ε} (h : x.Alike y) (s : Session σ)

include h

theorem enterNote_alike : (x.enterNote s).sight = (y.enterNote s).sight := by
  cases h with
  | callbacks site status enter_eq exit_eq =>
    simp only [enterNote, Note.sight, site.sight, enter_eq site.sight]
  | routine site status discreet hframe =>
    simp only [enterNote, Note.sight, site.sight, (discreet.resume hframe s.state).outcome]
  | ended site status code => simp only [enterNote, Note.sight, site.sight]
  | spent site status => simp only [enterNote, Note.sight, site.sight]

theorem enter_alike
    : (∃ fault x' y' s', x.enter s = (.error fault, x', s') ∧ y.enter s = (.error fault, y', s'))
      ∨ ∃ override x' y' s', x.enter s = (.ok override, x', s')
        ∧ y.enter s = (.ok override, y', s') ∧ x'.Alike y' := by
  cases h with
  | @callbacks a b site status enter exit enter_eq exit_eq =>
    simp only [Visit.enter, Session.update_eq, enter_eq site.sight]
    generalize enter b s.state = out
    obtain ⟨result, state⟩ := out
    cases result with
    | error e => exact .inl ⟨_, _, _, _, rfl, rfl⟩
    | ok override =>
      exact .inr ⟨_, _, _, _, rfl, rfl, .callbacks site .suspended enter_eq exit_eq⟩
  | @routine a b site status code alike discreet f g hframe =>
    have hstep := discreet.resume hframe s.state
    simp only [Visit.enter, Session.update_eq, finishEarly_node, site.node.kind]
    generalize code.resume f s.state = out at hstep ⊢
    generalize code.resume g s.state = out' at hstep ⊢
    cases hstep with
    | suspended override hframe' state =>
      exact .inr ⟨_, _, _, _, rfl, rfl, .routine site .suspended discreet hframe'⟩
    | finished state => exact .inr ⟨_, _, _, _, rfl, rfl, .ended site .done code⟩
    | raised e state => exact .inl ⟨_, _, _, _, rfl, rfl⟩
  | ended site status code =>
    simp only [Visit.enter, finishEarly_node, site.node.kind]
    exact .inr ⟨_, _, _, _, rfl, rfl, .ended site .done code⟩
  | spent site status => exact .inr ⟨_, _, _, _, rfl, rfl, .spent site .done⟩

theorem exitNotes_alike : (x.exitNotes s).map Note.sight = (y.exitNotes s).map Note.sight := by
  cases h with
  | callbacks site status enter_eq exit_eq =>
    cases status <;> simp [exitNotes, Note.sight, site.sight, exit_eq site.sight]
  | @routine a b site status code alike discreet f g hframe =>
    cases status with
    | pending | done => rfl
    | suspended =>
      have hstep := discreet.resume hframe s.state
      simp only [exitNotes]
      generalize code.resume f s.state = out at hstep ⊢
      generalize code.resume g s.state = out' at hstep ⊢
      cases hstep with
      | suspended override hframe' state =>
        have hstop := (discreet.interrupt hframe' state).outcome
        simp [Note.sight, site.sight, hstop]
      | finished state => simp [Note.sight, site.sight]
      | raised e state => simp [Note.sight, site.sight]
  | ended site status code => cases status <;> rfl
  | spent site status => cases status <;> rfl

theorem exit_alike
    : seen ((x.exit s).1, (x.exit s).2.2) = seen ((y.exit s).1, (y.exit s).2.2) := by
  cases h with
  | @callbacks a b site status enter exit enter_eq exit_eq =>
    cases status with
    | pending | done => rfl
    | suspended =>
      simp only [Visit.exit, withStatus, if_true, Session.update_eq, exit_eq site.sight]
      generalize exit b s.state = out
      obtain ⟨result, state⟩ := out
      cases result <;> rfl
  | @routine a b site status code alike discreet f g hframe =>
    cases status with
    | pending | done => rfl
    | suspended =>
      have hstep := discreet.resume hframe s.state
      simp only [Visit.exit, withStatus, if_true, Session.update_eq, interrupt_eq,
        secondSuspension_node]
      generalize code.resume f s.state = out at hstep ⊢
      generalize code.resume g s.state = out' at hstep ⊢
      cases hstep with
      | finished state => rfl
      | raised e state => rfl
      | @suspended override f' g' hframe' state =>
        have hstop := discreet.interrupt hframe' state
        dsimp only
        generalize code.interrupt f' state = out at hstop ⊢
        generalize code.interrupt g' state = out' at hstop ⊢
        cases hstop with
        | finished state' =>
          have hlocation := Value.Reencoded.location site.node none
          simp only [seen, Except.mapError, Fault.sight, site.node.kind, site.path, hlocation]
        | raised e state' => rfl
        | suspended _ _ state' => rfl
  | ended site status code => cases status <;> rfl
  | spent site status => cases status <;> rfl

theorem closeNotes_alike : (x.closeNotes s).map Note.sight = (y.closeNotes s).map Note.sight := by
  cases h with
  | routine site status discreet hframe =>
    have hstop := (discreet.interrupt hframe s.state).outcome
    cases status <;> simp [closeNotes, Note.sight, site.sight, hstop]
  | callbacks _ status _ _ | ended _ status _ | spent _ status => cases status <;> rfl

theorem abandon_alike [Described ε] : x.abandon s = y.abandon s := by
  cases h with
  | @routine a b site status code alike discreet f g hframe =>
    cases status with
    | pending | done => rfl
    | suspended =>
      have hstop := discreet.interrupt hframe s.state
      simp only [abandon, close, interrupt_eq, site.node.kind]
      generalize code.interrupt f s.state = out at hstop ⊢
      generalize code.interrupt g s.state = out' at hstop ⊢
      cases hstop <;> rfl
  | callbacks _ status _ _ | ended _ status _ | spent _ status => cases status <;> rfl

end

end Visit

namespace Outline

mutual

inductive Reencoded : Outline ε → Outline ε → Prop
  | mk {n m : Node} (node : SameNode n m) {children others : List (Edge × Outline ε)}
      (below : ReencodedAll children others) (failure : Option ε) :
      Reencoded (.mk n children failure) (.mk m others failure)

inductive ReencodedAll : List (Edge × Outline ε) → List (Edge × Outline ε) → Prop
  | nil : ReencodedAll [] []
  | cons (edge : Edge) {child other : Outline ε} {rest others : List (Edge × Outline ε)}
      (first : Reencoded child other) (below : ReencodedAll rest others) :
      ReencodedAll ((edge, child) :: rest) ((edge, other) :: others)

end

end Outline

theorem Strategy.outline_reencoded {n m : Node} (hacc : Acc (all : Strategy ε).IsChild n)
    (hacc' : Acc (all : Strategy ε).IsChild m) (h : SameNode n m)
    : ((all : Strategy ε).outline n hacc).Reencoded (all.outline m hacc') := by
  induction hacc generalizing m with
  | intro n hbelow ih =>
    rw [outline_of_descends all_descends, outline_of_descends all_descends]
    refine .mk h ?_ none
    have hall : ∀ {entries others : List (Edge × Node)}, List.Forall₂ SameChild entries others →
        (∀ entry ∈ entries, entry ∈ n.value.children) →
        Outline.ReencodedAll
          (entries.map fun entry =>
            (entry.1, (all : Strategy ε).outline entry.2 (all_descends.acc entry.2)))
          (others.map fun entry => (entry.1, all.outline entry.2 (all_descends.acc entry.2))) := by
      intro entries others hentries hsub
      induction hentries with
      | nil => exact .nil
      | @cons entry other _ _ hentry _ ihrest =>
        obtain ⟨e, c⟩ := entry
        obtain ⟨e', c'⟩ := other
        obtain ⟨rfl, hchild⟩ := hentry
        have hmem := hsub (e, c) (List.mem_cons_self ..)
        refine .cons e (ih c ⟨e, hmem⟩ _ hchild) (ihrest ?_)
        exact fun entry hentry => hsub entry (List.mem_cons_of_mem _ hentry)
    exact hall (Value.Reencoded.children h) fun _ hentry => hentry

structure Occurrence.Alike (x y : Occurrence) : Prop where
  route : x.route = y.route
  path : x.path.sight = y.path.sight
  node : SameNode x.node y.node

mutual

theorem Outline.Reencoded.preorder {outline other : Outline ε} {path path' : Path} (route : Route)
    : outline.Reencoded other → path.sight = path'.sight →
      List.Forall₂ Occurrence.Alike (outline.preorder path route) (other.preorder path' route)
  | .mk node below failure, hpath => by
    rw [preorder_mk, preorder_mk]
    exact .cons ⟨rfl, hpath, node⟩ (below.preorderAll route 0 node hpath)

theorem Outline.ReencodedAll.preorderAll {children others : List (Edge × Outline ε)}
    {path path' : Path} {n m : Node} (route : Route) (i : Nat)
    : ReencodedAll children others → SameNode n m → path.sight = path'.sight →
      List.Forall₂ Occurrence.Alike (preorderAll children path route n i)
        (preorderAll others path' route m i)
  | .nil, _, _ => .nil
  | .cons edge first below, hnode, hpath => by
    rw [preorderAll_cons, preorderAll_cons]
    exact List.rel_append (first.preorder (i :: route) (Path.sight_descend hpath hnode edge))
      (below.preorderAll route (i + 1) hnode hpath)

end

namespace Walk

variable [Described ε] {v : Visitor σ φ κ ε}

mutual

theorem visit_reencoded (discreet : v.Discreet) {outline other : Outline ε} {path path' : Path}
    (context : κ) (route : Route) (s : Session σ)
    : outline.Reencoded other → path.sight = path'.sight →
      seen (visit v context path outline s) = seen (visit v context path' other s)
      ∧ (history v context path route outline s).map Event.sight =
          (history v context path' route other s).map Event.sight
  | @Outline.Reencoded.mk _ n m node children others below failure, hpath => by
    have hsite : Site.Alike ⟨n, context, path⟩ ⟨m, context, path'⟩ := ⟨node, rfl, hpath⟩
    have hlength := Path.length_of_sight hpath
    have hnote := Visit.startNote_alike discreet hsite (s.arrive path'.length)
    simp only [visit, history, hlength, List.map_cons, sight_onRoute, hnote]
    rcases Visit.start_alike discreet hsite (s.arrive path'.length) with
      ⟨fault, s', hstart, hstart'⟩ | ⟨x, y, s', hstart, hstart', hvisit⟩
    · rw [hstart, hstart']
      exact ⟨rfl, rfl⟩
    · rw [hstart, hstart']
      simp only [List.map_cons, sight_onRoute, Visit.enterNote_alike hvisit s']
      rcases Visit.enter_alike hvisit s' with
        ⟨fault, x', y', s₁, henter, henter'⟩ | ⟨override, x', y', s₁, henter, henter', hentered⟩
      · rw [henter, henter']
        exact ⟨rfl, rfl⟩
      · rw [henter, henter']
        obtain ⟨hall, hevents⟩ := visitAll_reencoded discreet (override.apply context) route 0
          failure s₁ below hsite
        dsimp only at hall hevents ⊢
        simp only [List.map_append, hevents]
        rcases seen_cases hall with ⟨fault, fault', s₂, hout, hout', hsight⟩ | ⟨s₂, hout, hout'⟩
        · have hclose := map_sight_onRoute (Visit.closeNotes_alike hentered s₂) route
          rw [hout, hout']
          dsimp only
          rw [hclose, Visit.abandon_alike hentered s₂]
          refine ⟨?_, rfl⟩
          rw [seen, seen, Except.mapError, Except.mapError, hsight]
        · have hexit := map_sight_onRoute (Visit.exitNotes_alike hentered s₂) route
          rw [hout, hout']
          dsimp only
          rw [hexit]
          exact ⟨Visit.exit_alike hentered s₂, rfl⟩

theorem visitAll_reencoded (discreet : v.Discreet) {children others : List (Edge × Outline ε)}
    {site site' : Site κ} (context : κ) (route : Route) (i : Nat) (failure : Option ε)
    (s : Session σ)
    : Outline.ReencodedAll children others → site.Alike site' →
      seen (visitAll v context site.path site.node children failure s) =
          seen (visitAll v context site'.path site'.node others failure s)
      ∧ (historyAll v site context route i children failure s).map Event.sight =
          (historyAll v site' context route i others failure s).map Event.sight
  | .nil, hsite => by
    constructor
    · cases failure <;> rfl
    · simp only [historyAll, List.map_cons, List.map_nil, Event.sight, Note.sight, hsite.sight]
  | .cons edge first below, hsite => by
    obtain ⟨hchild, hevents⟩ := visit_reencoded discreet context (i :: route) s first
      (Path.sight_descend hsite.path hsite.node edge)
    simp only [visitAll, historyAll, List.map_append, hevents]
    rcases seen_cases hchild with ⟨fault, fault', s', hout, hout', hsight⟩ | ⟨s', hout, hout'⟩
    · rw [hout, hout']
      refine ⟨?_, rfl⟩
      rw [seen, seen, Except.mapError, Except.mapError, hsight]
    · obtain ⟨hrest, hevents'⟩ := visitAll_reencoded discreet context route (i + 1) failure s' below
        hsite
      rw [hout, hout']
      dsimp only
      rw [hevents']
      exact ⟨hrest, rfl⟩

end

variable {root twin : Node} (h : SameNode root twin)

include h

theorem walk_seen (discreet : v.Discreet) (context : κ) (s : Session σ)
    : seen (walk v .all root.value (Strategy.all_finiteFrom _) context s) =
        seen (walk v .all twin.value (Strategy.all_finiteFrom _) context s) := by
  have hpath : Path.sight [] = Path.sight [] := rfl
  have hvisit := (visit_reencoded discreet context [] (s.restart.record (.walkStarted root.kind))
    (Strategy.outline_reencoded (Strategy.all_descends.acc root) (Strategy.all_descends.acc twin) h)
    hpath).1
  rw [walk_eq_visit, walk_eq_visit, ← h.kind, Strategy.unfolding, Strategy.unfolding]
  rcases seen_cases hvisit with ⟨fault, fault', s', hout, hout', hsight⟩ | ⟨s', hout, hout'⟩
  · rw [hout, hout']
    simp only [seen, Except.mapError, closingEntry, hsight, Fault.name_of_sight hsight]
  · rw [hout, hout']

theorem events_seen (discreet : v.Discreet) (context : κ) (s : Session σ)
    : (events v .all root (Strategy.all_finiteFrom _) context s).map Event.sight =
        (events v .all twin (Strategy.all_finiteFrom _) context s).map Event.sight := by
  rw [events, events, ← h.kind]
  exact (visit_reencoded discreet context [] _ (Strategy.outline_reencoded _ _ h) rfl).2

theorem census_reencoded
    : census (.all : Strategy ε) root.value (Strategy.all_finiteFrom _) =
        census .all twin.value (Strategy.all_finiteFrom _) := by
  have hdiscreet : (Census.visitor : Visitor Census Unit Unit ε).Discreet := by
    refine .callbacks ?_ (fun _ => rfl)
    intro a b hsight
    have hkind : a.node.kind = b.node.kind := congrArg Site.Sight.kind hsight
    have hlength := Path.length_of_sight (congrArg Site.Sight.path hsight)
    rw [hkind, hlength]
  have hroot : root.value.isNode = true := by rw [Value.isNode, root.kind_eq]; rfl
  have hok : (walk (Census.visitor : Visitor Census Unit Unit ε) .all root.value
      (Strategy.all_finiteFrom _) () { state := {} }).1 = .ok () :=
    walk_ok Census.compliant_visitor hroot
  rw [census, census]
  rcases seen_cases (walk_seen h hdiscreet () { state := {} }) with
    ⟨fault, fault', s, hout, hout', hsight⟩ | ⟨s, hout, hout'⟩
  · rw [hout] at hok
    contradiction
  · rw [hout, hout']

omit h in
/--
The forms of records do not matter. If each record of a tree is given in any form, with the same
fields in the same order, then the tree is walked as before: a discreet visitor sees the same events
and comes back in the same way, the walk has the same end, and it leaves the same state, counters
and log. The census is the same, and occurrences at the same place have the same locations. On both
trees, the events are those which the visitor can record itself.
-/
theorem walk_reencoded (discreet : v.Discreet) (root : Node) {other : Value}
    (h : root.value.Reencoded other) (context : κ) (s : Session σ)
    : ∃ twin : Node, twin.value = other
        ∧ (events v .all root (Strategy.all_finiteFrom _) context s).map Event.sight =
            (events v .all twin (Strategy.all_finiteFrom _) context s).map Event.sight
        ∧ seen (walk v .all root.value (Strategy.all_finiteFrom _) context s) =
            seen (walk v .all twin.value (Strategy.all_finiteFrom _) context s)
        ∧ census (.all : Strategy ε) root.value (Strategy.all_finiteFrom _) =
            census .all twin.value (Strategy.all_finiteFrom _)
        ∧ List.Forall₂
            (fun x y => x.route = y.route ∧ x.node.kind = y.node.kind ∧ x.path.sight = y.path.sight
              ∧ ∀ file, Location.ofValue? x.node.value file = Location.ofValue? y.node.value file)
            (((.all : Strategy ε).unfolding root (Strategy.all_finiteFrom _)).preorder [] [])
            (((.all : Strategy ε).unfolding twin (Strategy.all_finiteFrom _)).preorder [] [])
        ∧ ∀ n ∈ [root, twin],
            walk v.recording .all n.value (Strategy.all_finiteFrom _) context (s.recording []) =
              ((walk v .all n.value (Strategy.all_finiteFrom _) context s).1,
                (walk v .all n.value (Strategy.all_finiteFrom _) context s).2.recording
                  (recorded (events v .all n (Strategy.all_finiteFrom _) context s))) := by
  obtain ⟨twin, rfl, _⟩ := h.node
  have hpath : Path.sight [] = Path.sight [] := rfl
  have hpreorder := (Strategy.outline_reencoded (ε := ε) (Strategy.all_descends.acc root)
    (Strategy.all_descends.acc twin) h).preorder [] hpath
  refine ⟨twin, rfl, events_seen h discreet context s, walk_seen h discreet context s,
    census_reencoded h, hpreorder.imp ?_, fun n _ => walk_recording v .all n _ context s⟩
  intro x y hxy
  exact ⟨hxy.route, hxy.node.kind, hxy.path, fun file => Value.Reencoded.location hxy.node file⟩

end Walk

inductive Visitor.Frame.Alike {β : Type} : Frame κ β → Frame κ β → Prop
  | before {a b : Site κ} (h : a.sight = b.sight) : Alike (.before a) (.before b)
  | between {a b : Site κ} (h : a.sight = b.sight) (kept : β) :
      Alike (.between a kept) (.between b kept)

theorem Visitor.discreet_twoPhase {β : Type} {enter : Site κ → σ → Except ε (Override κ × β) × σ}
    {exit : Site κ → β → σ → Except ε Unit × σ}
    (enter_eq : ∀ {a b}, a.sight = b.sight → enter a = enter b)
    (exit_eq : ∀ {a b}, a.sight = b.sight → exit a = exit b)
    : Discreet (.twoPhase enter exit) := by
  refine .procedure Frame.Alike ⟨?_, fun _ s => .finished s⟩
    fun hsight s => .frame (.before hsight) s
  intro f g hframe s
  cases hframe with
  | @before a b hsight =>
    dsimp only [twoPhaseRoutine]
    rw [enter_eq hsight]
    obtain ⟨result, state⟩ := enter b s
    cases result with
    | error e => exact .raised e state
    | ok handed => exact .suspended handed.1 (.between hsight handed.2) state
  | @between a b hsight kept =>
    dsimp only [twoPhaseRoutine]
    rw [exit_eq hsight]
    obtain ⟨result, state⟩ := exit b kept s
    cases result with
    | error e => exact .raised e state
    | ok u => exact .finished state

namespace Walk

def sampleRecords : Node :=
  ⟨.record 0 .map [("type", .str "Program"), ("body", .list [
    .record 1 .map [("type", .str "Name"), ("loc", .record 2 .map [
      ("start", .record 3 .map [("line", .int 1), ("column", .int 0)])])]])], "Program", rfl⟩

def sampleRecordsOutline : Outline Script.Failure :=
  .mk sampleRecords
    [(⟨"body", some 0⟩, .mk ⟨.record 1 .map [("type", .str "Name"), ("loc", .record 2 .map [
      ("start", .record 3 .map [("line", .int 1), ("column", .int 0)])])], "Name", rfl⟩ [] none)]
    none

theorem unfolding_sampleRecords
    : Strategy.all.unfolding sampleRecords (Strategy.all_finiteFrom _) = sampleRecordsOutline := by
  cbv

def sampleObjects : Value :=
  .record 4 .bag [("type", .str "Program"), ("body", .list [
    .record 5 (.slotted "Name") [("type", .str "Name"), ("loc", .record 6 (.declared "Span") [
      ("start", .record 7 .view [("line", .int 1), ("column", .int 0)])])]])]

theorem sampleObjects_reencoded : sampleRecords.value.Reencoded sampleObjects := by
  refine .record _ _ rfl rfl (by decide) (.cons _ (.refl _) (.cons _ (.list (.cons ?_ .nil)) .nil))
  refine .record _ _ rfl rfl (by decide) (.cons _ (.refl _) (.cons _ ?_ .nil))
  refine .record _ _ rfl rfl (by decide) (.cons _ ?_ .nil)
  exact .record _ _ rfl rfl (by decide) (.cons _ (.refl _) (.cons _ (.refl _) .nil))

def kindEnter (site : Site Value) (kinds : List String) :
    Except Script.Failure (Override Value × Unit) × List String :=
  (.ok (.replace (.str site.node.kind), ()), kinds ++ [site.node.kind])

def kindExit (_ : Site Value) (_ : Unit) (kinds : List String) :
    Except Script.Failure Unit × List String :=
  (.ok (), kinds)

theorem walk_reencoded_sample
    : (walk (.twoPhase kindEnter kindExit) .all sampleRecords.value (Strategy.all_finiteFrom _)
          .null { state := [] }).2.state = ["Program", "Name"]
      ∧ ∃ twin : Node, twin.value = sampleObjects
        ∧ seen (walk (.twoPhase kindEnter kindExit) .all sampleRecords.value
            (Strategy.all_finiteFrom _) .null { state := [] }) =
          seen (walk (.twoPhase kindEnter kindExit) .all twin.value (Strategy.all_finiteFrom _)
            .null { state := [] }) := by
  have hdiscreet : Visitor.Discreet (.twoPhase kindEnter kindExit) := by
    refine Visitor.discreet_twoPhase ?_ fun _ => rfl
    intro a b hsight
    have hkind : a.node.kind = b.node.kind := congrArg Site.Sight.kind hsight
    funext kinds
    rw [kindEnter, kindEnter, hkind]
  obtain ⟨twin, hvalue, _, hseen, _⟩ := walk_reencoded hdiscreet sampleRecords
    sampleObjects_reencoded .null { state := [] }
  refine ⟨?_, twin, hvalue, hseen⟩
  rw [walk_eq_visit, unfolding_sampleRecords]
  rfl

end Walk

end Arbor
