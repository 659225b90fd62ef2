import Arbor.Proofs.Walk.Path

/-!
This module is about walks that leave out some of the children. Where the code of a visitor comes
back in a way that depends on the site only, the notes of a walk that succeeds can be foretold from
its outline (`visit_foretold`). Leaving out children takes away the notes of what is below them and
changes no other. Main statement: the walk over the remaining children is the part of the walk over
all children that keeps to them (`walk_pruned`).
-/

namespace Arbor

open Walk

section Prune

variable {ε : Type} (p : Value → Edge → Value → Bool)

def Path.keeps : Path → Value → Bool
  | [], _ => true
  | step :: rest, target =>
    p step.node step.toEdge ((rest.head?.map (·.node)).getD target) && keeps rest target

theorem Path.keeps_descend (path : Path) (n : Node) (e : Edge) (target : Value)
    : (path.descend n e).keeps p target = (path.keeps p n.value && p n.value e target) := by
  induction path with
  | nil => simp [descend, keeps]
  | cons step rest ih =>
    have hhead : ((Path.descend rest n e).head?.map (·.node)).getD target =
        (rest.head?.map (·.node)).getD n.value := by
      cases rest <;> rfl
    have hcons : Path.descend (step :: rest) n e = step :: Path.descend rest n e := rfl
    rw [hcons, keeps, ih, hhead, keeps, Bool.and_assoc]

def Strategy.pruned : Strategy ε :=
  fun n => ⟨n.value.children.filter fun (e, c) => p n.value e c.value, none⟩

theorem Strategy.pruned_descends : (pruned p : Strategy ε).Descends := by
  intro n e c h
  exact Value.sizeOf_child_lt (List.mem_of_mem_filter h)

theorem Strategy.pruned_finiteFrom (root : Value) : (pruned p : Strategy ε).FiniteFrom root :=
  (pruned_descends p).finiteFrom root

namespace Outline

mutual

def prune : Outline ε → Outline ε
  | .mk node children failure => .mk node (pruneAll node children) failure

def pruneAll (parent : Node) : List (Edge × Outline ε) → List (Edge × Outline ε)
  | [] => []
  | (e, child) :: rest =>
    if p parent.value e child.node.value then (e, prune child) :: pruneAll parent rest
    else pruneAll parent rest

end

end Outline

theorem Strategy.outline_pruned (n : Node) (h : Acc (all : Strategy ε).IsChild n)
    (h' : Acc (pruned p : Strategy ε).IsChild n)
    : (pruned p).outline n h' = (all.outline n h).prune p := by
  induction h with
  | intro n hacc ih =>
    rw [outline_of_descends (pruned_descends p), outline_of_descends all_descends, Outline.prune]
    congr 1
    have hentries : ∀ entries : List (Edge × Node), (∀ entry ∈ entries, entry ∈ n.value.children) →
        (entries.filter fun (e, c) => p n.value e c.value).map
            (fun (e, c) => (e, (pruned p : Strategy ε).outline c ((pruned_descends p).acc c))) =
          Outline.pruneAll p n
            (entries.map fun (e, c) => (e, (all : Strategy ε).outline c (all_descends.acc c))) := by
      intro entries hsub
      induction entries with
      | nil => rfl
      | cons entry rest ihrest =>
        obtain ⟨e, c⟩ := entry
        have hchild := hsub (e, c) (List.mem_cons_self ..)
        have hnode : ((all : Strategy ε).outline c (all_descends.acc c)).node = c := by
          rw [outline_eq_mk]
          rfl
        have hrest := ihrest fun entry h => hsub entry (List.mem_cons_of_mem _ h)
        have hown := ih c ⟨e, hchild⟩ ((pruned_descends p).acc c)
        rw [List.map_cons, Outline.pruneAll, hnode, List.filter_cons]
        dsimp only
        split
        · rw [List.map_cons, hrest, hown]
        · exact hrest
    exact hentries _ fun _ h => h

end Prune

variable {σ φ κ ε : Type}

/--
A visitor whose code comes back from each phase in a way that depends on the site only, whatever
state it finds: what it hands over, whether it is suspended, and whether and how it fails.
-/
structure Visitor.Steady (v : Visitor σ φ κ ε) (plan : Phase → Site κ → Outcome κ ε) : Prop where
  start : ∀ site s, (Visit.startNote v site s).outcome = plan .start site
  enter : ∀ site s s' current, Visit.start v site s = (.ok current, s') →
    ∀ t, (current.enterNote t).outcome = plan .enter site
  exit : ∀ site s s' current, Visit.start v site s = (.ok current, s') →
    ∀ t t' override entered, current.enter t = (.ok override, entered, t') →
    ∀ u, ∀ note ∈ entered.exitNotes u, note.phase = .exit → note.outcome = plan .exit site

namespace Walk

def Note.passes (note : Note κ ε) : Bool :=
  note.fault?.isNone && !(note.phase = .exit && note.outcome.isSuspended)

def passAll (notes : List (Note κ ε)) : Prop :=
  ∀ note ∈ notes, note.passes = true

mutual

def foretold (plan : Phase → Site κ → Outcome κ ε) (context : κ) (path : Path) :
    Outline ε → List (Note κ ε)
  | .mk node children failure =>
    let site : Site κ := ⟨node, context, path⟩
    ⟨.start, site, plan .start site⟩ :: ⟨.enter, site, plan .enter site⟩ ::
      (foretoldAll plan site ((plan .enter site).override?.getD context) failure children ++
        if (plan .enter site).isOpen then [⟨.exit, site, plan .exit site⟩] else [])

def foretoldAll (plan : Phase → Site κ → Outcome κ ε) (site : Site κ) (context : κ)
    (failure : Option ε) : List (Edge × Outline ε) → List (Note κ ε)
  | [] => [⟨.listing, site, .ofListing failure⟩]
  | (edge, child) :: rest =>
    foretold plan context (site.path.descend site.node edge) child ++
      foretoldAll plan site context failure rest

end

theorem passAll_cons {note : Note κ ε} {notes : List (Note κ ε)}
    : passAll (note :: notes) ↔ note.passes = true ∧ passAll notes :=
  List.forall_mem_cons

theorem passAll_append {notes later : List (Note κ ε)}
    : passAll (notes ++ later) ↔ passAll notes ∧ passAll later :=
  List.forall_mem_append

theorem passAll_filter {notes : List (Note κ ε)} (keep : Note κ ε → Bool) (h : passAll notes)
    : passAll (notes.filter keep) :=
  fun note hnote => h note (List.mem_of_mem_filter hnote)

theorem toNote_onRoute (notes : List (Note κ ε)) (route : Route)
    : (notes.map (·.onRoute route)).map (·.toNote) = notes := by
  rw [List.map_map]
  exact List.map_id notes

theorem not_passes_raised {phase : Phase} {site : Site κ} {e : ε}
    (h : phase ≠ .close ∧ phase ≠ .stop)
    : (Note.mk phase site (.raised e)).passes = false := by
  cases phase <;> first | rfl | simp at h

def Note.isKept (p : Value → Edge → Value → Bool) (note : Note κ ε) : Bool :=
  note.site.path.keeps p note.site.node.value

section Filter

variable (plan : Phase → Site κ → Outcome κ ε) (p : Value → Edge → Value → Bool)

theorem filter_foretoldAll_dropped (site : Site κ) (failure : Option ε)
    (children : List (Edge × Outline ε))
    (ih : ∀ entry ∈ children, ∀ context (path : Path), path.keeps p entry.2.node.value = false →
      (foretold plan context path entry.2).filter (Note.isKept p) = [])
    (context : κ) (h : site.path.keeps p site.node.value = false)
    : (foretoldAll plan site context failure children).filter (Note.isKept p) = [] := by
  induction children with
  | nil => simp [foretoldAll, Note.isKept, h]
  | cons entry rest ihrest =>
    obtain ⟨edge, child⟩ := entry
    have hchild : (site.path.descend site.node edge).keeps p child.node.value = false := by
      rw [Path.keeps_descend, h, Bool.false_and]
    rw [foretoldAll, List.filter_append, ih (edge, child) (List.mem_cons_self ..) _ _ hchild,
      ihrest fun entry h => ih entry (List.mem_cons_of_mem _ h)]
    rfl

theorem filter_foretold_dropped (outline : Outline ε) (context : κ) (path : Path)
    (h : path.keeps p outline.node.value = false)
    : (foretold plan context path outline).filter (Note.isKept p) = [] := by
  induction outline using Outline.induct generalizing context path with
  | mk node children failure ih =>
    rw [Outline.node] at h
    have hall := filter_foretoldAll_dropped plan p ⟨node, context, path⟩ failure children ih
      ((plan .enter ⟨node, context, path⟩).override?.getD context) h
    simp only [foretold, List.filter_cons, List.filter_append, hall, Note.isKept, h]
    cases (plan .enter ⟨node, context, path⟩).isOpen <;> simp [Note.isKept, h]

theorem filter_foretoldAll (site : Site κ) (failure : Option ε)
    (children : List (Edge × Outline ε))
    (ih : ∀ entry ∈ children, ∀ context (path : Path), path.keeps p entry.2.node.value = true →
      (foretold plan context path entry.2).filter (Note.isKept p) =
        foretold plan context path (entry.2.prune p))
    (context : κ) (h : site.path.keeps p site.node.value = true)
    : (foretoldAll plan site context failure children).filter (Note.isKept p) =
        foretoldAll plan site context failure (Outline.pruneAll p site.node children) := by
  induction children with
  | nil => simp [foretoldAll, Outline.pruneAll, Note.isKept, h]
  | cons entry rest ihrest =>
    obtain ⟨edge, child⟩ := entry
    have hchild : (site.path.descend site.node edge).keeps p child.node.value =
        p site.node.value edge child.node.value := by
      rw [Path.keeps_descend, h, Bool.true_and]
    have hrest := ihrest fun entry h => ih entry (List.mem_cons_of_mem _ h)
    rw [foretoldAll, List.filter_append, hrest, Outline.pruneAll]
    split
    next hp =>
      rw [ih (edge, child) (List.mem_cons_self ..) _ _ (hchild.trans hp), foretoldAll]
    next hp =>
      rw [filter_foretold_dropped plan p child _ _ (hchild.trans (by simpa using hp))]
      rfl

theorem filter_foretold (outline : Outline ε) (context : κ) (path : Path)
    (h : path.keeps p outline.node.value = true)
    : (foretold plan context path outline).filter (Note.isKept p) =
        foretold plan context path (outline.prune p) := by
  induction outline using Outline.induct generalizing context path with
  | mk node children failure ih =>
    rw [Outline.node] at h
    have hall := filter_foretoldAll plan p ⟨node, context, path⟩ failure children ih
      ((plan .enter ⟨node, context, path⟩).override?.getD context) h
    simp only [foretold, Outline.prune, List.filter_cons, List.filter_append, hall, Note.isKept, h]
    cases (plan .enter ⟨node, context, path⟩).isOpen <;> simp [Note.isKept, h]

end Filter

theorem exiting_foretold {site : Site κ} {opened : Bool} {notes : List (Note κ ε)}
    {outcome : Outcome κ ε} (h : Visit.Exiting site opened notes)
    (hsingle : ∀ note, notes = [note] → note.outcome.isSuspended = false)
    (houtcome : ∀ note ∈ notes, note.phase = .exit → note.outcome = outcome)
    : (Note.result notes = .ok () ↔ passAll (if opened then [⟨.exit, site, outcome⟩] else []))
      ∧ (Note.result notes = .ok () → notes = if opened then [⟨.exit, site, outcome⟩] else []) := by
  cases h with
  | ended => simp [Note.result, passAll]
  | once outcome' =>
    obtain rfl : outcome' = outcome := houtcome _ (List.mem_singleton_self _) rfl
    have hsuspended : outcome'.isSuspended = false := hsingle _ rfl
    cases outcome' with
    | suspended override => contradiction
    | _ => simp [Note.result, Note.fault?, passAll, Note.passes, Outcome.isSuspended]
  | twice override outcome' fault hfault =>
    -- a second suspension does not pass, whatever comes of interrupting it
    obtain rfl : .suspended override = outcome := houtcome _ (List.mem_cons_self ..) rfl
    have hexit : Note.fault? (⟨.exit, site, .suspended override⟩ : Note κ ε) = none := rfl
    have hresult : Note.result [⟨.exit, site, .suspended override⟩, ⟨.stop, site, outcome'⟩] =
        .error fault := by
      rw [Note.result, List.findSome?_cons, hexit, List.findSome?_cons, hfault]
    rw [hresult]
    simp [passAll, Note.passes, Outcome.isSuspended]

variable [Described ε] {v : Visitor σ φ κ ε} {plan : Phase → Site κ → Outcome κ ε}

theorem visitAll_foretold (site : Site κ) (context : κ) (route : Route) (failure : Option ε)
    (children : List (Edge × Outline ε))
    (ih : ∀ entry ∈ children, ∀ context path route (s : Session σ),
      ((visit v context path entry.2 s).1 = .ok () ↔ passAll (foretold plan context path entry.2))
      ∧ ((visit v context path entry.2 s).1 = .ok () →
        (history v context path route entry.2 s).map (·.toNote) =
          foretold plan context path entry.2))
    (i : Nat) (s : Session σ)
    : ((visitAll v context site.path site.node children failure s).1 = .ok () ↔
        passAll (foretoldAll plan site context failure children))
      ∧ ((visitAll v context site.path site.node children failure s).1 = .ok () →
        (historyAll v site context route i children failure s).map (·.toNote) =
          foretoldAll plan site context failure children) := by
  induction children generalizing i s with
  | nil => cases failure <;> simp [visitAll, historyAll, foretoldAll, passAll, Note.passes,
      Outcome.ofListing, Note.fault?]
  | cons entry rest ihrest =>
    obtain ⟨edge, child⟩ := entry
    obtain ⟨hiff, hnotes⟩ := ih (edge, child) (List.mem_cons_self ..) context
      (site.path.descend site.node edge) (i :: route) s
    rw [visitAll, historyAll, foretoldAll, passAll_append, ← hiff]
    generalize visit v context (site.path.descend site.node edge) child s = out at hnotes ⊢
    obtain ⟨result, s'⟩ := out
    cases result with
    | error fault => simp
    | ok u =>
      obtain ⟨hiff', hnotes'⟩ := ihrest (fun entry h => ih entry (List.mem_cons_of_mem _ h))
        (i + 1) s'
      refine ⟨by simpa using hiff', ?_⟩
      intro hok
      dsimp only at hok hnotes ⊢
      rw [List.map_append, hnotes rfl, hnotes' hok]

theorem visit_foretold (steady : v.Steady plan) (outline : Outline ε) (context : κ) (path : Path)
    (route : Route) (s : Session σ)
    : ((visit v context path outline s).1 = .ok () ↔ passAll (foretold plan context path outline))
      ∧ ((visit v context path outline s).1 = .ok () →
        (history v context path route outline s).map (·.toNote) =
          foretold plan context path outline) := by
  induction outline using Outline.induct generalizing context path route s with
  | mk node children failure ih =>
    have hstart := steady.start ⟨node, context, path⟩ (s.arrive path.length)
    simp only [visit, history, foretold, passAll_cons, passAll_append]
    rcases Visit.start_cases v ⟨node, context, path⟩ (s.arrive path.length) with
      ⟨e, s', heq, hnote, _⟩ | ⟨current, s', called, heq, hnote, hcalled, hsite, hfresh, _⟩
    · rw [hnote] at hstart
      rw [heq, ← hstart]
      simp [not_passes_raised]
    · have henter := steady.enter _ _ _ _ heq s'
      have hexit := steady.exit _ _ _ _ heq
      rw [hnote] at hstart
      rw [heq, ← hstart, hnote]
      have hpasses : (Note.mk .start ⟨node, context, path⟩ called).passes = true := by
        cases called <;> first | rfl | contradiction
      simp only [hpasses, true_and]
      rcases Visit.enter_cases hfresh s' with
        ⟨e, current', s₁, heq', hnote', _⟩ |
        ⟨override, current', s₁, outcome, heq', hnote', hsite', hentered, _⟩
      · rw [hnote'] at henter
        rw [heq', ← henter]
        simp [not_passes_raised]
      · rw [hnote'] at henter
        have hexit := hexit _ _ _ _ heq'
        rw [heq', ← henter, hnote', hsite, ← hentered.apply context]
        have hpasses : (Note.mk .enter ⟨node, context, path⟩ outcome).passes = true := by
          cases hentered <;> rfl
        obtain ⟨hiff, hnotes⟩ := visitAll_foretold ⟨node, context, path⟩ (override.apply context)
          route failure children ih 0 s₁
        simp only [hpasses, true_and, ← hiff]
        generalize visitAll v (override.apply context) path node children failure s₁ = out
          at hnotes ⊢
        obtain ⟨result, s₂⟩ := out
        cases result with
        | error fault => simp
        | ok u =>
          obtain ⟨hresult, hexiting, _⟩ := Visit.exit_eq_result hentered s₂
          rw [hsite', hsite] at hexiting
          obtain ⟨hiff', hnotes'⟩ := exiting_foretold hexiting
            (fun _ => Visit.not_suspended_of_exitNotes) (hexit s₂)
          dsimp only at hnotes ⊢
          rw [hresult]
          refine ⟨by simpa using hiff', ?_⟩
          intro hok
          rw [List.map_cons, List.map_cons, List.map_append, toNote_onRoute, hnotes rfl,
            hnotes' hok]
          rfl

/--
Walks over some of the children. If a steady visitor gets through the walk over all children, it
gets through the walk over those that satisfy a condition. The notes of this walk, with their sites
and outcomes, are those notes of the other walk, in the same order, that are about occurrences which
are reached through children that satisfy the condition.
-/
theorem walk_pruned (steady : v.Steady plan) (p : Value → Edge → Value → Bool) (root : Node)
    (context : κ) (s s' : Session σ)
    (sound : (walk v .all root.value (Strategy.all_finiteFrom _) context s).1 = .ok ())
    : (walk v (.pruned p) root.value (Strategy.pruned_finiteFrom p _) context s').1 = .ok ()
      ∧ (events v (.pruned p) root (Strategy.pruned_finiteFrom p _) context s').map (·.toNote) =
          ((events v .all root (Strategy.all_finiteFrom _) context s).map (·.toNote)).filter
            (Note.isKept p)
      ∧ walk v.recording .all root.value (Strategy.all_finiteFrom _) context (s.recording []) =
          (.ok (), (walk v .all root.value (Strategy.all_finiteFrom _) context s).2.recording
            (recorded (events v .all root (Strategy.all_finiteFrom _) context s)))
      ∧ walk v.recording (.pruned p) root.value (Strategy.pruned_finiteFrom p _) context
            (s'.recording []) =
          (.ok (),
            (walk v (.pruned p) root.value (Strategy.pruned_finiteFrom p _) context s').2.recording
              (recorded
                (events v (.pruned p) root (Strategy.pruned_finiteFrom p _) context s'))) := by
  have hrecording := walk_recording v .all root (Strategy.all_finiteFrom _) context s
  rw [sound] at hrecording
  rw [walk_eq_visit] at sound
  have hall := visit_foretold steady (Strategy.all.unfolding root (Strategy.all_finiteFrom _))
    context [] [] (s.restart.record (.walkStarted root.kind))
  have hpruned := visit_foretold steady
    (Strategy.unfolding (.pruned p) root (Strategy.pruned_finiteFrom p _)) context [] []
    (s'.restart.record (.walkStarted root.kind))
  have houtline : Strategy.unfolding (.pruned p) root (Strategy.pruned_finiteFrom p _) =
      (Strategy.all.unfolding root (Strategy.all_finiteFrom _)).prune (ε := ε) p :=
    Strategy.outline_pruned p root _ _
  -- what is foretold of the remaining children passes, since it is a part of what has passed
  have hfilter := filter_foretold plan p
    (Strategy.all.unfolding root (Strategy.all_finiteFrom _)) context [] rfl
  rw [← houtline] at hfilter
  have hpass := passAll_filter (Note.isKept p) (hall.1.1 sound)
  rw [hfilter] at hpass
  have hok := hpruned.1.2 hpass
  have hwalk : (walk v (.pruned p) root.value (Strategy.pruned_finiteFrom p _) context s').1 =
      .ok () := by
    rw [walk_eq_visit]
    exact hok
  refine ⟨hwalk, ?_, hrecording, ?_⟩
  · rw [events, events, hpruned.2 hok, hall.2 sound]
    exact hfilter.symm
  · rw [walk_recording, hwalk]

end Walk

def Visitor.twoPhasePlan (first : Site κ → Except ε (Override κ)) (last : Site κ → Except ε Unit) :
    Phase → Site κ → Outcome κ ε
  | .start, _ => .ready
  | .enter, site =>
    match first site with
    | .ok override => .suspended override
    | .error e => .raised e
  | .exit, site => .ofExit (last site)
  | _, _ => .idle

theorem Visitor.steady_twoPhase {β : Type} {enter : Site κ → σ → Except ε (Override κ × β) × σ}
    {exit : Site κ → β → σ → Except ε Unit × σ} {first : Site κ → Except ε (Override κ)}
    {last : Site κ → Except ε Unit} (henter : ∀ site s, (enter site s).1.map (·.1) = first site)
    (hexit : ∀ site kept s, (exit site kept s).1 = last site)
    : Steady (.twoPhase enter exit) (twoPhasePlan first last) := by
  refine ⟨fun _ _ => rfl, ?_, ?_⟩
  · intro site s s' current hstart t
    cases hstart
    simp only [Visit.enterNote, twoPhaseRoutine, twoPhasePlan]
    rw [← henter site t.state]
    obtain ⟨result, state⟩ := enter site t.state
    cases result <;> rfl
  · intro site s s' current hstart t t' override entered hentered u note hnote _
    cases hstart
    simp only [Visit.enter, Session.update_eq, twoPhaseRoutine] at hentered
    generalize enter site t.state = out at hentered
    obtain ⟨result, state⟩ := out
    cases result with
    | error e => simp at hentered
    | ok handed =>
      simp only [Prod.mk.injEq] at hentered
      obtain ⟨-, rfl, -⟩ := hentered
      simp only [Visit.exitNotes, Visit.withStatus, Visit.withBody] at hnote
      rw [twoPhasePlan, ← hexit site handed.2 u.state]
      generalize exit site handed.2 u.state = out at hnote ⊢
      obtain ⟨result, state'⟩ := out
      cases result <;> rw [List.mem_singleton.1 hnote] <;> rfl

namespace Walk

def sampleNested : Node :=
  ⟨.record 0 .map [("type", .str "Program"), ("body", .list [
    .record 1 .map [("type", .str "Block"), ("name", .record 2 .map [("type", .str "Name")])],
    .record 3 .map [("type", .str "Name")]])], "Program", rfl⟩

def countingEnter (site : Site Value) (visits : Nat) :
    Except Script.Failure (Override Value × Unit) × Nat :=
  (.ok (.replace (.str site.node.kind), ()), visits + 1)

def countingExit (_ : Site Value) (_ : Unit) (visits : Nat) : Except Script.Failure Unit × Nat :=
  (.ok (), visits + 1)

def outsideBlocks (_ : Value) (_ : Edge) (child : Value) : Bool :=
  child.kind? ≠ some "Block"

def sampleNestedOutline : Outline Script.Failure :=
  .mk sampleNested
    [(⟨"body", some 0⟩, .mk ⟨.record 1 .map [("type", .str "Block"),
      ("name", .record 2 .map [("type", .str "Name")])], "Block", rfl⟩
      [(⟨"name", none⟩, .mk ⟨.record 2 .map [("type", .str "Name")], "Name", rfl⟩ [] none)] none),
    (⟨"body", some 1⟩, .mk ⟨.record 3 .map [("type", .str "Name")], "Name", rfl⟩ [] none)] none

theorem unfolding_sampleNested
    : Strategy.all.unfolding sampleNested (Strategy.all_finiteFrom _) = sampleNestedOutline := by
  cbv

theorem unfolding_pruned_sampleNested
    : (Strategy.pruned outsideBlocks).unfolding sampleNested (Strategy.pruned_finiteFrom _ _) =
        sampleNestedOutline.prune outsideBlocks := by
  rw [← unfolding_sampleNested]
  exact Strategy.outline_pruned _ _ _ _

theorem walk_pruned_sample
    : (walk (.twoPhase countingEnter countingExit) .all sampleNested.value
          (Strategy.all_finiteFrom _) .null { state := 0 }).1 = .ok ()
      ∧ ((events (.twoPhase countingEnter countingExit) (.pruned outsideBlocks) sampleNested
          (Strategy.pruned_finiteFrom _ _) .null { state := 0 }).map
            fun e => (e.phase, e.site.node.kind, e.site.context)) =
        [(.start, "Program", .null), (.enter, "Program", .null),
          (.start, "Name", .str "Program"), (.enter, "Name", .str "Program"),
          (.listing, "Name", .str "Program"), (.exit, "Name", .str "Program"),
          (.listing, "Program", .null), (.exit, "Program", .null)]
      ∧ ((events (.twoPhase countingEnter countingExit) (.pruned outsideBlocks) sampleNested
          (Strategy.pruned_finiteFrom _ _) .null { state := 0 }).map (·.toNote)) =
        ((events (.twoPhase countingEnter countingExit) .all sampleNested
          (Strategy.all_finiteFrom _) .null { state := 0 }).map (·.toNote)).filter
            (Note.isKept outsideBlocks) := by
  have hsound : (walk (.twoPhase countingEnter countingExit) .all sampleNested.value
      (Strategy.all_finiteFrom _) .null { state := 0 }).1 = .ok () := by
    rw [walk_eq_visit, unfolding_sampleNested]
    rfl
  refine ⟨hsound, by rw [events, unfolding_pruned_sampleNested]; rfl, ?_⟩
  have hsteady : Visitor.Steady (.twoPhase countingEnter countingExit)
      (Visitor.twoPhasePlan (fun site => .ok (.replace (.str site.node.kind))) fun _ => .ok ()) :=
    Visitor.steady_twoPhase (fun _ _ => rfl) (fun _ _ _ => rfl)
  exact (walk_pruned hsteady outsideBlocks sampleNested .null { state := 0 } { state := 0 }
    hsound).2.1

end Walk

end Arbor
