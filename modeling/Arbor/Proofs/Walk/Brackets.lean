import Arbor.Proofs.Walk.Abort

/-!
This module is about the order of visits. Where no phase fails, the phases of a walk are the
brackets of the outline: occurrences are started and entered in pre-order and left in post-order,
and between the two lies all that is below an occurrence and nothing else. An occurrence whose
visit is over after its first phase has no closing bracket.
-/

namespace Arbor

open Walk

namespace Outline

variable {ε : Type}

def opening (x : Occurrence) : List (Phase × Occurrence) :=
  [(.start, x), (.enter, x)]

def closing (opened : Route → Bool) (x : Occurrence) : List (Phase × Occurrence) :=
  if opened x.route then [(.exit, x)] else []

def brackets (opened : Route → Bool) (outline : Outline ε) (path : Path) (route : Route) :
    List (Phase × Occurrence) :=
  outline.collect opening (closing opened) path route

def bracketsAll (opened : Route → Bool) (children : List (Edge × Outline ε)) (path : Path)
    (route : Route) (parent : Node) (i : Nat) : List (Phase × Occurrence) :=
  collectAll opening (closing opened) path route parent i children

theorem brackets_mk (opened : Route → Bool) (node : Node) (children : List (Edge × Outline ε))
    (failure : Option ε) (path : Path) (route : Route)
    : (Outline.mk node children failure).brackets opened path route =
        (.start, ⟨route, path, node⟩) :: (.enter, ⟨route, path, node⟩) ::
          (bracketsAll opened children path route node 0 ++
            closing opened ⟨route, path, node⟩) := by
  rfl

theorem bracketsAll_cons (opened : Route → Bool) (edge : Edge) (child : Outline ε)
    (rest : List (Edge × Outline ε)) (path : Path) (route : Route) (parent : Node) (i : Nat)
    : bracketsAll opened ((edge, child) :: rest) path route parent i =
        child.brackets opened (path.descend parent edge) (i :: route) ++
          bracketsAll opened rest path route parent (i + 1) := by
  rfl

theorem brackets_enter (opened : Route → Bool) (outline : Outline ε) (path : Path) (route : Route)
    : (outline.brackets opened path route).filterMap
        (fun m => if m.1 = .enter then some m.2 else none) = outline.preorder path route := by
  rw [brackets, collect_filterMap, preorder]
  congr 1
  funext x
  by_cases h : opened x.route <;> simp [closing, h]

theorem brackets_exit (opened : Route → Bool) (outline : Outline ε) (path : Path) (route : Route)
    : (outline.brackets opened path route).filterMap
        (fun m => if m.1 = .exit then some m.2 else none) =
        (outline.postorder path route).filter (fun x => opened x.route) := by
  rw [brackets, collect_filterMap, postorder, ← List.filterMap_eq_filter, collect_filterMap]
  congr 1
  funext x
  by_cases h : opened x.route <;> simp [closing, h]

theorem mem_brackets {opened : Route → Bool} {outline : Outline ε} {path : Path} {route : Route}
    {m : Phase × Occurrence} (h : m ∈ outline.brackets opened path route)
    : m.2 ∈ outline.preorder path route := by
  obtain ⟨x, hx, hfirst | hlast⟩ := mem_collect.1 h
  · have : m.2 = x := by
      simp only [opening, List.mem_cons, List.not_mem_nil, or_false] at hfirst
      rcases hfirst with rfl | rfl <;> rfl
    rwa [this]
  · have : m.2 = x := by
      rw [closing, List.mem_ite_nil_right, List.mem_singleton] at hlast
      rw [hlast.2]
    rwa [this]

theorem mem_bracketsAll {opened : Route → Bool} {children : List (Edge × Outline ε)} {path : Path}
    {route : Route} {parent : Node} {i : Nat} {m : Phase × Occurrence}
    (h : m ∈ bracketsAll opened children path route parent i)
    : ∃ k, i ≤ k ∧ k :: route <:+ m.2.route := by
  induction children generalizing i with
  | nil => contradiction
  | cons entry rest ih =>
    obtain ⟨edge, child⟩ := entry
    rw [bracketsAll_cons, List.mem_append] at h
    rcases h with h | h
    · exact ⟨i, Nat.le_refl i, route_preorder (mem_brackets h)⟩
    · obtain ⟨k, hk, hsuffix⟩ := ih h
      exact ⟨k, by omega, hsuffix⟩

def Encloses (x : Occurrence) (marks : List (Phase × Occurrence)) : Prop :=
  ∃ before inner after, marks = before ++ (.enter, x) :: (inner ++ (.exit, x) :: after)
    ∧ (∀ m ∈ inner, x.route ∈ m.2.route.ancestors)
    ∧ (∀ m ∈ before ++ after, x.route ∉ m.2.route.ancestors)

theorem Encloses.pad {x : Occurrence} {marks : List (Phase × Occurrence)} (h : Encloses x marks)
    (before after : List (Phase × Occurrence))
    (hbefore : ∀ m ∈ before, x.route ∉ m.2.route.ancestors)
    (hafter : ∀ m ∈ after, x.route ∉ m.2.route.ancestors)
    : Encloses x (before ++ (marks ++ after)) := by
  obtain ⟨first, inner, last, rfl, hinner, houter⟩ := h
  refine ⟨before ++ first, inner, last ++ after, by simp, hinner, ?_⟩
  intro m hm
  simp only [List.mem_append] at hm houter
  rcases hm with (hm | hm) | (hm | hm)
  · exact hbefore m hm
  · exact houter m (.inl hm)
  · exact houter m (.inr hm)
  · exact hafter m hm

theorem encloses_bracketsAll {opened : Route → Bool} {children : List (Edge × Outline ε)}
    (ih : ∀ entry ∈ children, ∀ path route x, x ∈ entry.2.preorder path route →
      opened x.route = true → Encloses x (entry.2.brackets opened path route))
    {path : Path} {route : Route} {parent : Node} {i : Nat} {x : Occurrence}
    (hx : x ∈ preorderAll children path route parent i) (hopened : opened x.route = true)
    : Encloses x (bracketsAll opened children path route parent i) := by
  induction children generalizing i with
  | nil => contradiction
  | cons entry rest ihrest =>
    obtain ⟨edge, child⟩ := entry
    rw [bracketsAll_cons]
    -- what belongs to another child is not below x
    have apart : ∀ {j k : Nat} {r : Route}, j ≠ k → j :: route <:+ x.route → k :: route <:+ r →
        x.route ∉ r.ancestors := by
      intro j k r hne hj hk hmem
      have := (Route.mem_ancestors.1 hmem).1
      exact hne (Route.eq_of_cons_suffix (hj.trans this) hk)
    rw [preorderAll_cons, List.mem_append] at hx
    rcases hx with hx | hx
    · have h := ih (edge, child) (List.mem_cons_self ..) _ _ x hx hopened
      apply h.pad [] _ (by simp)
      intro m hm
      obtain ⟨k, hk, hsuffix⟩ := mem_bracketsAll hm
      exact apart (by omega) (route_preorder hx) hsuffix
    · have h := ihrest (fun entry h => ih entry (List.mem_cons_of_mem _ h)) hx
      obtain ⟨k, hk, hsuffix⟩ := route_preorderAll hx
      have hbefore : ∀ m ∈ child.brackets opened (path.descend parent edge) (i :: route),
          x.route ∉ m.2.route.ancestors := by
        intro m hm
        exact apart (by omega) hsuffix (route_preorder (mem_brackets hm))
      simpa using h.pad _ [] hbefore (by simp)

theorem encloses_brackets {opened : Route → Bool} {outline : Outline ε} {path : Path}
    {route : Route} {x : Occurrence} (hx : x ∈ outline.preorder path route)
    (hopened : opened x.route = true) : Encloses x (outline.brackets opened path route) := by
  induction outline using Outline.induct generalizing path route x with
  | mk node children failure ih =>
    rw [brackets_mk]
    rw [preorder_mk, List.mem_cons] at hx
    rcases hx with rfl | hx
    · refine ⟨[(.start, ⟨route, path, node⟩)], bracketsAll opened children path route node 0, [],
        ?_, ?_, ?_⟩
      · rw [closing, if_pos hopened]
        rfl
      · intro m hm
        obtain ⟨k, _, hsuffix⟩ := mem_bracketsAll hm
        exact Route.mem_ancestors.2 (Route.suffix_of_cons_suffix hsuffix)
      · simp [Route.mem_ancestors]
    · have h := encloses_bracketsAll (fun entry h _ _ _ => ih entry h) hx hopened
      obtain ⟨k, _, hsuffix⟩ := route_preorderAll hx
      have own : x.route ∉ route.ancestors := by
        intro hmem
        have := hsuffix.trans (Route.mem_ancestors.1 hmem).1
        exact Route.not_cons_suffix_self k route this
      apply h.pad (opening ⟨route, path, node⟩)
      · simp [opening, own]
      · intro m hm
        rw [closing, List.mem_ite_nil_right, List.mem_singleton] at hm
        rw [hm.2]
        exact own

theorem preorder_block {outline : Outline ε} {path : Path} {route : Route} {x : Occurrence}
    (hx : x ∈ outline.preorder path route)
    : ∃ before inner after, outline.preorder path route = before ++ x :: (inner ++ after)
      ∧ (∀ y ∈ inner, x.route ∈ y.route.ancestors)
      ∧ (∀ y ∈ before ++ after, x.route ∉ y.route.ancestors) := by
  have hencloses : Encloses x (outline.brackets (fun _ => true) path route) :=
    encloses_brackets hx rfl
  obtain ⟨before, inner, after, heq, hinner, houter⟩ := hencloses
  have hmem : ∀ {marks : List (Phase × Occurrence)} {y : Occurrence},
      y ∈ marks.filterMap (fun m => if m.1 = .enter then some m.2 else none) →
      ∃ m ∈ marks, m.2 = y := by
    intro marks y hy
    obtain ⟨m, hm, hy⟩ := List.mem_filterMap.1 hy
    rw [Option.ite_none_right_eq_some, Option.some.injEq] at hy
    exact ⟨m, hm, hy.2⟩
  rw [← brackets_enter (fun _ => true), heq]
  simp only [List.filterMap_append, List.filterMap_cons, if_true, reduceCtorEq, if_false]
  refine ⟨_, _, _, rfl, ?_, ?_⟩
  · intro y hy
    obtain ⟨m, hm, rfl⟩ := hmem hy
    exact hinner m hm
  · intro y hy
    rw [← List.filterMap_append] at hy
    obtain ⟨m, hm, rfl⟩ := hmem hy
    exact houter m hm

theorem mem_before {outline : Outline ε} {path : Path} {route : Route} {x y : Occurrence}
    {before after : List Occurrence} (h : outline.preorder path route = before ++ x :: after)
    (hy : y ∈ outline.preorder path route) (hmem : y.route ∈ x.route.ancestors) : y ∈ before := by
  obtain ⟨earlier, inner, later, hblock, _, houter⟩ := preorder_block hy
  have hnodup := (outline.nodup_preorder path route).of_map
  rw [h, List.mem_append, List.mem_cons] at hy
  rcases hy with hy | rfl | hy
  · exact hy
  · exact absurd rfl (Route.mem_ancestors.1 hmem).2
  · -- else the occurrence would stand before all that is below the other
    obtain ⟨middle, rest, rfl⟩ := List.append_of_mem hy
    have hsplit : outline.preorder path route = (before ++ x :: middle) ++ y :: rest := by
      rw [h]
      simp
    rw [hsplit, List.nodup_middle, List.nodup_cons, List.mem_append, not_or] at hnodup
    rw [hsplit, List.append_cons_inj_of_notMem hnodup.1.1 hnodup.1.2] at hblock
    refine absurd hmem (houter x (List.mem_append_left _ ?_))
    rw [← hblock.1]
    simp

/-- Brackets that are opened and closed in order. Only a bracket that was left open is closed. -/
inductive Nested (opened : Route → Bool) : List (Phase × Occurrence) → Prop where
  | nil : Nested opened []
  | closed (x : Occurrence) {inner rest : List (Phase × Occurrence)} (h : opened x.route = true) :
      Nested opened inner → Nested opened rest →
      Nested opened ((.start, x) :: (.enter, x) :: (inner ++ (.exit, x) :: rest))
  | single (x : Occurrence) {inner rest : List (Phase × Occurrence)} (h : opened x.route = false) :
      Nested opened inner → Nested opened rest →
      Nested opened ((.start, x) :: (.enter, x) :: (inner ++ rest))

theorem Nested.append {opened : Route → Bool} {marks later : List (Phase × Occurrence)}
    (h : Nested opened marks) (hlater : Nested opened later) : Nested opened (marks ++ later) := by
  induction h with
  | nil => exact hlater
  | closed x hx hinner hrest ihinner ihrest =>
    simp only [List.cons_append, List.append_assoc]
    exact .closed x hx hinner ihrest
  | single x hx hinner hrest ihinner ihrest =>
    simp only [List.cons_append, List.append_assoc]
    exact .single x hx hinner ihrest

theorem nested_bracketsAll (opened : Route → Bool) (children : List (Edge × Outline ε))
    (ih : ∀ entry ∈ children, ∀ path route, Nested opened (entry.2.brackets opened path route))
    (path : Path) (route : Route) (parent : Node) (i : Nat)
    : Nested opened (bracketsAll opened children path route parent i) := by
  induction children generalizing i with
  | nil => exact .nil
  | cons entry rest ihrest =>
    obtain ⟨edge, child⟩ := entry
    rw [bracketsAll_cons]
    apply Nested.append
    · exact ih (edge, child) (List.mem_cons_self ..) _ _
    · exact ihrest (fun entry h => ih entry (List.mem_cons_of_mem _ h)) _

theorem nested_brackets (opened : Route → Bool) (outline : Outline ε) (path : Path) (route : Route)
    : Nested opened (outline.brackets opened path route) := by
  induction outline using Outline.induct generalizing path route with
  | mk node children failure ih =>
    have h := nested_bracketsAll opened children ih path route node 0
    rw [brackets_mk, closing]
    by_cases hopened : opened route = true
    · rw [if_pos hopened]
      exact .closed _ hopened h .nil
    · rw [if_neg hopened]
      exact .single _ (by simpa using hopened) h .nil

end Outline

namespace Walk

variable {σ φ κ ε : Type}

def trace (events : List (Event κ ε)) : List (Phase × Occurrence) :=
  (events.filter (·.phase ≠ .listing)).map fun e => (e.phase, e.occurrence)

theorem trace_append (events later : List (Event κ ε))
    : trace (events ++ later) = trace events ++ trace later := by
  simp [trace]

theorem occurrencesIn_eq_trace {phase : Phase} (h : phase ≠ .listing) (events : List (Event κ ε))
    : occurrencesIn phase events =
        (trace events).filterMap fun m => if m.1 = phase then some m.2 else none := by
  induction events with
  | nil => rfl
  | cons e events ih =>
    have htrace : trace (e :: events) = trace [e] ++ trace events := trace_append [e] events
    rw [occurrencesIn_cons, ih, htrace, List.filterMap_append]
    by_cases hphase : e.phase = phase
    · simp [trace, hphase, h]
    · by_cases hlisting : e.phase = .listing
      · simp [trace, hlisting, h.symm]
      · simp [trace, hphase, hlisting]

theorem trace_exitNotes {site : Site κ} {route : Route} {opened : Route → Bool}
    {outcome : Outcome κ ε} {notes : List (Note κ ε)} (hexiting : Visit.Exiting site outcome.isOpen notes)
    (hok : Note.result notes = .ok ()) (hopened : opened route = outcome.isOpen)
    : trace (notes.map (·.onRoute route)) =
        Outline.closing opened ⟨route, site.path, site.node⟩ := by
  rw [← hopened] at hexiting
  unfold Outline.closing
  dsimp only
  generalize opened route = b at hexiting ⊢
  cases hexiting with
  | ended => rfl
  | once outcome => rfl
  | twice again outcome fault hfault =>
    -- a routine that is suspended twice is a fault, whatever comes of interrupting it
    have hexit : Note.fault? (⟨.exit, site, .suspended again⟩ : Note κ ε) = none := rfl
    rw [Note.result, List.findSome?_cons, hexit, List.findSome?_cons, hfault] at hok
    contradiction

def isOpenAt (events : List (Event κ ε)) (r : Route) : Bool :=
  events.any fun e => e.phase = .enter && e.route = r && e.outcome.isOpen

variable [Described ε]

theorem isOpenAt_history {v : Visitor σ φ κ ε} {context : κ} {path : Path} {route : Route}
    {outline : Outline ε} {s : Session σ} {e : Event κ ε}
    (he : e ∈ history v context path route outline s) (hphase : e.phase = .enter)
    : isOpenAt (history v context path route outline s) e.route = e.outcome.isOpen := by
  rw [Bool.eq_iff_iff, isOpenAt, List.any_eq_true]
  simp only [Bool.and_eq_true, decide_eq_true_eq]
  constructor
  · -- an occurrence is entered once
    rintro ⟨e', he', ⟨hphase', hroute⟩, hopen⟩
    rwa [enter_unique he hphase he' hphase' hroute.symm]
  · intro hopen
    exact ⟨e, he, ⟨hphase, rfl⟩, hopen⟩

theorem trace_historyAll (opened : Route → Bool) (v : Visitor σ φ κ ε) (site : Site κ) (context : κ)
    (route : Route) (i : Nat) (children : List (Edge × Outline ε)) (failure : Option ε)
    (s : Session σ)
    (ih : ∀ entry ∈ children, ∀ context path route (s : Session σ),
      (visit v context path entry.2 s).1 = .ok () →
      (∀ e ∈ history v context path route entry.2 s, e.phase = .enter →
        opened e.route = e.outcome.isOpen) →
      trace (history v context path route entry.2 s) = entry.2.brackets opened path route)
    (hok : (visitAll v context site.path site.node children failure s).1 = .ok ())
    (hopened : ∀ e ∈ historyAll v site context route i children failure s, e.phase = .enter →
      opened e.route = e.outcome.isOpen)
    : trace (historyAll v site context route i children failure s) =
        Outline.bracketsAll opened children site.path route site.node i := by
  induction children generalizing i s with
  | nil => rfl
  | cons entry rest ihrest =>
    obtain ⟨edge, child⟩ := entry
    rw [Outline.bracketsAll_cons]
    rw [visitAll] at hok
    rw [historyAll] at hopened ⊢
    have hchild := ih (edge, child) (List.mem_cons_self ..) context
      (site.path.descend site.node edge) (i :: route) s
    generalize visit v context (site.path.descend site.node edge) child s = out
      at hok hopened hchild ⊢
    obtain ⟨result, s'⟩ := out
    cases result with
    | error fault => contradiction
    | ok u =>
      dsimp only at hok hopened ⊢
      rw [trace_append]
      rw [hchild rfl (fun e he => hopened e (List.mem_append_left _ he))]
      rw [ihrest (i + 1) s' (fun entry h => ih entry (List.mem_cons_of_mem _ h)) hok
        (fun e he => hopened e (List.mem_append_right _ he))]

theorem trace_history (opened : Route → Bool) (v : Visitor σ φ κ ε) (context : κ) (path : Path)
    (route : Route) (outline : Outline ε) (s : Session σ)
    (hok : (visit v context path outline s).1 = .ok ())
    (hopened : ∀ e ∈ history v context path route outline s, e.phase = .enter →
      opened e.route = e.outcome.isOpen)
    : trace (history v context path route outline s) = outline.brackets opened path route := by
  induction outline using Outline.induct generalizing context path route s with
  | mk node children failure ih =>
    rw [Outline.brackets_mk]
    have hcourse := course_visit v context path route node children failure s
    generalize history v context path route (.mk node children failure) s = events
      at hcourse hopened ⊢
    generalize visit v context path (.mk node children failure) s = out at hcourse hok
    cases hcourse with
    | startFails error s' log => contradiction
    | enterFails called error s' hcalled log => contradiction
    | abandoned called outcome override current s₁ s₂ fault hcalled hsite entered log hbelow =>
      contradiction
    | completed called outcome override current s₁ s₂ hcalled hsite entered log hbelow =>
      have hown : opened route = outcome.isOpen :=
        hopened ⟨⟨.enter, ⟨node, context, path⟩, outcome⟩, route⟩ (by simp) rfl
      have hall := trace_historyAll opened v ⟨node, context, path⟩ (override.apply context) route 0
        children failure s₁ ih (by rw [hbelow]) (fun e he => hopened e (by simp [he]))
      obtain ⟨hresult, hexiting, _⟩ := Visit.exit_eq_result entered s₂
      have hexit := trace_exitNotes hexiting (hresult.symm.trans hok) hown
      rw [hsite] at hexit
      rw [← hexit, ← hall, ← trace_append]
      rfl

structure Orderly (outline : Outline ε) (events : List (Event κ ε)) : Prop where
  enters : occurrencesIn .enter events = outline.preorder [] []
  exits : occurrencesIn .exit events =
    (outline.postorder [] []).filter fun x => isOpenAt events x.route
  exitsAll : (∀ e ∈ events, e.phase = .enter → e.outcome.isOpen = true) →
    occurrencesIn .exit events = outline.postorder [] []
  same : (outline.postorder [] []).Perm (outline.preorder [] [])
  once : ((outline.preorder [] []).map (·.route)).Nodup
  nested : Outline.Nested (isOpenAt events) (trace events)
  encloses : ∀ x ∈ outline.preorder [] [], isOpenAt events x.route = true →
    Outline.Encloses x (trace events)

theorem orderly_history {v : Visitor σ φ κ ε} {context : κ} {outline : Outline ε} {s : Session σ}
    (hok : (visit v context [] outline s).1 = .ok ())
    : Orderly outline (history v context [] [] outline s) := by
  have hopen := fun e => @isOpenAt_history _ _ _ _ _ v context [] [] outline s e
  have htrace := trace_history _ v context [] [] outline s hok hopen
  generalize history v context [] [] outline s = events at hopen htrace ⊢
  have henters : occurrencesIn .enter events = outline.preorder [] [] := by
    rw [occurrencesIn_eq_trace (by simp), htrace, Outline.brackets_enter]
  have hexits : occurrencesIn .exit events =
      (outline.postorder [] []).filter fun x => isOpenAt events x.route := by
    rw [occurrencesIn_eq_trace (by simp), htrace, Outline.brackets_exit]
  have hsame := outline.postorder_perm [] []
  refine ⟨henters, hexits, ?_, hsame, outline.nodup_preorder [] [], ?_, ?_⟩
  · intro hall
    rw [hexits, List.filter_eq_self]
    intro x hx
    have hmem : x ∈ occurrencesIn .enter events := by
      rw [henters]
      exact hsame.mem_iff.1 hx
    obtain ⟨e, he, rfl⟩ := List.mem_map.1 hmem
    rw [List.mem_filter, decide_eq_true_eq] at he
    exact (hopen e he.1 he.2).trans (hall e he.1 he.2)
  · rw [htrace]
    exact outline.nested_brackets _ [] []
  · intro x hx hx'
    rw [htrace]
    exact Outline.encloses_brackets hx hx'

/--
The order of visits in a walk where nothing fails. Occurrences are told apart by their routes, so a
node that is shared takes part once for each way to it.
-/
theorem walk_orderly (v : Visitor σ φ κ ε) (strategy : Strategy ε) (root : Node)
    (finite : strategy.FiniteFrom root.value) (context : κ) (s : Session σ)
    (sound : ∀ e ∈ events v strategy root finite context s, e.fault? = none)
    : walk v.recording strategy root.value finite context (s.recording []) =
        (.ok (), (walk v strategy root.value finite context s).2.recording
          (recorded (events v strategy root finite context s)))
      ∧ Orderly (strategy.unfolding root finite) (events v strategy root finite context s) := by
  have hok : (walk v strategy root.value finite context s).1 = .ok () := by
    rw [(tells_walk v strategy root finite context s).result_eq]
    apply Note.result_ok
    intro note hnote
    obtain ⟨e, he, rfl⟩ := List.mem_map.1 hnote
    exact sound e he
  refine ⟨?_, ?_⟩
  · rw [walk_recording, hok]
  · rw [walk_eq_visit] at hok
    exact orderly_history hok

def sampleStop : List (Script.Rule Unit) :=
  [{ condition := { kind := some (.str "Leaf") }, stop := some fun _ => (.null, ()) }]

theorem walk_orderly_sample
    : (trace (sampleEvents sampleStop)).map (fun m => (m.1, m.2.route)) =
        [(.start, []), (.enter, []), (.start, [0]), (.enter, [0]), (.exit, [])]
      ∧ Orderly (Strategy.all.unfolding sampleRoot sampleFinite) (sampleEvents sampleStop) := by
  have hsound : (sampleEvents sampleStop).all (fun e => e.fault?.isNone) = true := by
    rw [sampleEvents, events, unfolding_sampleRoot]
    rfl
  refine ⟨?_, ?_⟩
  · rw [sampleEvents, events, unfolding_sampleRoot]
    rfl
  · apply And.right
    apply walk_orderly
    intro e he
    exact Option.isNone_iff_eq_none.1 (List.all_eq_true.1 hsound e he)

end Walk

end Arbor
