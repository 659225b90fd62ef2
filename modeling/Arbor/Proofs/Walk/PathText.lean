import Arbor.Proofs.Number.Spelling
import Arbor.Proofs.SExpr.Reader
import Arbor.Proofs.Scope.Resolution
import Arbor.Proofs.Walk.Path
import Arbor.Proofs.Walk.SecondSuspension

/-!
This module is about the texts of paths. Where no name of a field holds one of the two marks that a
path is written with, its edges can be read off its text, whatever the kind of the root looks like.
So the text of a path, be it shown in an error or with a reference, leads to one occurrence only
(`path_text_denotes`).
-/

namespace Arbor

open Walk

namespace Edge

def isPlain (e : Edge) : Bool :=
  e.key.toList.all fun c => c ≠ '.' && c ≠ '['

def placeText (e : Edge) : List Char :=
  match e.index with
  | none => []
  | some i => '[' :: ((toString i).toList ++ [']'])

theorem toList_text (e : Edge) : e.text.toList = e.key.toList ++ e.placeText := by
  unfold text placeText
  cases e.index with
  | none => simp
  | some i => simp [String.toList_append, toString]

theorem toString_injective {i j : Int} (h : toString i = toString j) : i = j := by
  have hread := congrArg String.toInt? h
  rw [toInt?_toString, toInt?_toString] at hread
  exact Option.some.inj hread

theorem index_eq_of_placeText {e f : Edge} (h : e.placeText = f.placeText)
    : e.index = f.index := by
  unfold placeText at h
  cases he : e.index with
  | none =>
    cases hf : f.index with
    | none => rfl
    | some j =>
      rw [he, hf] at h
      contradiction
  | some i =>
    cases hf : f.index with
    | none =>
      rw [he, hf] at h
      contradiction
    | some j =>
      rw [he, hf] at h
      have hdigits := List.append_cancel_right (List.cons.inj h).2
      rw [toString_injective (String.toList_injective hdigits)]

theorem takeWhile_text {e : Edge} (h : e.isPlain = true)
    : e.text.toList.takeWhile (· ≠ '[') = e.key.toList := by
  rw [toList_text, List.takeWhile_append_of_pos]
  · unfold placeText
    cases e.index with
    | none => simp
    | some i => simp
  · intro c hc
    have hplain := List.all_eq_true.1 h c hc
    rw [Bool.and_eq_true] at hplain
    exact hplain.2

theorem text_injective {e f : Edge} (he : e.isPlain = true) (hf : f.isPlain = true)
    (h : e.text = f.text) : e = f := by
  have hchars : e.text.toList = f.text.toList := by rw [h]
  have hkey : e.key = f.key := by
    apply String.toList_injective
    rw [← takeWhile_text he, hchars, takeWhile_text hf]
  have hindex : e.index = f.index := by
    apply index_eq_of_placeText
    rw [toList_text, toList_text, hkey] at hchars
    exact List.append_cancel_left hchars
  cases e
  cases f
  dsimp only at hkey hindex
  rw [hkey, hindex]

theorem dot_notMem_text {e : Edge} (h : e.isPlain = true) : '.' ∉ e.text.toList := by
  rw [toList_text, List.mem_append]
  rintro (hkey | hplace)
  · have hplain := List.all_eq_true.1 h '.' hkey
    contradiction
  · unfold placeText at hplace
    cases hindex : e.index with
    | none =>
      rw [hindex] at hplace
      contradiction
    | some i =>
      rw [hindex] at hplace
      have hdigit : '.' ∈ (toString i).toList := by simpa using hplace
      rcases SExpr.mem_numeral hdigit with h | h <;> contradiction

theorem texts_injective {edges others : List Edge} (h : ∀ e ∈ edges, e.isPlain = true)
    (h' : ∀ e ∈ others, e.isPlain = true)
    (htexts : edges.map (·.text.toList) = others.map (·.text.toList)) : edges = others := by
  induction edges generalizing others with
  | nil => exact (List.map_eq_nil_iff.1 htexts.symm).symm
  | cons e rest ih =>
    cases others with
    | nil => contradiction
    | cons f rest' =>
      rw [List.forall_mem_cons] at h h'
      rw [List.map_cons, List.map_cons, List.cons.injEq] at htexts
      rw [text_injective h.1 h'.1 (String.toList_injective htexts.1), ih h.2 h'.2 htexts.2]

end Edge

namespace Path

theorem toList_join (kind : String) {edges : List Edge} (h : edges ≠ [])
    : (join kind edges).toList =
        kind.toList ++ '.' :: ['.'].intercalate (edges.map (·.text.toList)) := by
  obtain ⟨e, rest, rfl⟩ := List.exists_cons_of_ne_nil h
  rw [join, String.toList_intercalate, List.map_cons, List.map_map, List.map_cons,
    List.intercalate_cons_cons]
  simp [Function.comp_def]

theorem splitOn_texts {edges : List Edge} (hne : edges ≠ [])
    (hplain : ∀ e ∈ edges, e.isPlain = true)
    : (['.'].intercalate (edges.map (·.text.toList))).splitOn '.' =
        edges.map (·.text.toList) := by
  apply List.splitOn_intercalate
  · intro text htext
    obtain ⟨e, he, rfl⟩ := List.mem_map.1 htext
    exact Edge.dot_notMem_text (hplain e he)
  · simpa using hne

theorem join_injective {kind : String} {edges others : List Edge} (hne : edges ≠ [])
    (hne' : others ≠ []) (hplain : ∀ e ∈ edges, e.isPlain = true)
    (hplain' : ∀ e ∈ others, e.isPlain = true) (h : join kind edges = join kind others)
    : edges = others := by
  have hchars : (join kind edges).toList = (join kind others).toList := by rw [h]
  rw [toList_join kind hne, toList_join kind hne'] at hchars
  apply Edge.texts_injective hplain hplain'
  rw [← splitOn_texts hne hplain, (List.cons.inj (List.append_cancel_left hchars)).2,
    splitOn_texts hne' hplain']

theorem join_ne_rootLabel (kind : String) {edges : List Edge} (hne : edges ≠ [])
    : join kind edges ≠ rootLabel := by
  intro h
  have hdot : '.' ∈ (join kind edges).toList := by
    rw [toList_join kind hne]
    exact List.mem_append_right _ (List.mem_cons_self ..)
  rw [h] at hdot
  contradiction

def fullText (kind : String) (edges : List Edge) : String :=
  if edges = [] then rootLabel else join kind edges

theorem fullText_injective {kind : String} {edges others : List Edge}
    (hplain : ∀ e ∈ edges, e.isPlain = true) (hplain' : ∀ e ∈ others, e.isPlain = true)
    (h : fullText kind edges = fullText kind others) : edges = others := by
  unfold fullText at h
  split at h
  next hnil =>
    split at h
    next hnil' => rw [hnil, hnil']
    next hne' => exact absurd h.symm (join_ne_rootLabel kind hne')
  next hne =>
    split at h
    next hnil' => exact absurd h (join_ne_rootLabel kind hne)
    next hne' => exact join_injective hne hne' hplain hplain' h

theorem render_eq {p : Path} {root : Node} (h : ∀ step ∈ p.head?, step.node = root.value)
    : p.render = .ok (fullText root.kind p.edges) := by
  cases p with
  | nil => rfl
  | cons first rest =>
    have hfirst : first.node = root.value := h first rfl
    unfold render
    dsimp only
    rw [hfirst, root.kindValue_eq]
    rfl

end Path

def Value.hasPlainNames (v : Value) : Bool :=
  v.fields.all fun (key, _) => Edge.isPlain ⟨key, none⟩

theorem Value.isPlain_edge {v : Value} {e : Edge} {c : Node} (hplain : v.hasPlainNames = true)
    (h : (e, c) ∈ v.children) : e.isPlain = true := by
  obtain ⟨key, value, hfield, ⟨rfl, _⟩ | ⟨i, rfl, _⟩⟩ := exists_of_mem_children h
  · exact List.all_eq_true.1 hplain (key, value) hfield
  · exact List.all_eq_true.1 hplain (key, value) hfield

theorem Strategy.isPlain_preorder {ε : Type} {n : Node} {h : Acc (all : Strategy ε).IsChild n}
    {path : Path} {route : Route} {x : Occurrence}
    (hplain : n.value.everywhere Value.hasPlainNames = true)
    (hpath : ∀ e ∈ path.edges, e.isPlain = true)
    (hx : x ∈ (all.outline n h).preorder path route) : ∀ e ∈ x.path.edges, e.isPlain = true := by
  induction h generalizing path route with
  | intro n _ ih =>
    rcases mem_preorder_all.1 hx with rfl | ⟨k, e, c, hc, hk, hx⟩
    · exact hpath
    · have hchild : (e, c) ∈ n.value.children := List.mem_of_getElem? hk
      have hedge := Value.isPlain_edge (Value.everywhere_self hplain) hchild
      refine ih c ⟨e, hchild⟩ (Value.everywhere_child hplain hchild) ?_ hx
      rw [Path.edges_descend, List.forall_mem_append, List.forall_mem_singleton]
      exact ⟨hpath, hedge⟩

def Node.occurrences (ε : Type) (root : Node) : List Occurrence :=
  ((Strategy.all : Strategy ε).unfolding root (Strategy.all_finiteFrom root.value)).preorder [] []

/-- A text is that of the path to an occurrence, and of the path to no other one. -/
structure Path.Denotes (text : String) (xs : List Occurrence) (x : Occurrence) : Prop where
  mem : x ∈ xs
  render : x.path.render = .ok text
  only : ∀ y ∈ xs, y.path.render = .ok text → y = x

section

variable {ε : Type} {root : Node}
  (distinct : root.value.everywhere Value.hasDistinctNames = true)
  (plain : root.value.everywhere Value.hasPlainNames = true)

include distinct

theorem Path.render_occurrence {x : Occurrence} (hx : x ∈ root.occurrences ε)
    : x.path.render = .ok (fullText root.kind x.path.edges) :=
  render_eq (Strategy.connects_preorder distinct (.nil _) hx).first

include plain

theorem Path.eq_of_render_eq {x y : Occurrence} (hx : x ∈ root.occurrences ε)
    (hy : y ∈ root.occurrences ε) (h : x.path.render = y.path.render) : x = y := by
  rw [render_occurrence distinct hx, render_occurrence distinct hy] at h
  have hedges : x.path.edges = y.path.edges :=
    fullText_injective (Strategy.isPlain_preorder plain (by simp [edges]) hx)
      (Strategy.isPlain_preorder plain (by simp [edges]) hy) (Except.ok.inj h)
  have hroute := Strategy.route_eq_of_edges_eq distinct hx hy hedges
  exact List.inj_on_of_nodup_map (Outline.nodup_preorder _ [] []) hx hy hroute

theorem Path.denotes_occurrence {x : Occurrence} (hx : x ∈ root.occurrences ε)
    : Denotes (fullText root.kind x.path.edges) (root.occurrences ε) x := by
  have hrender := render_occurrence distinct hx
  refine ⟨hx, hrender, ?_⟩
  intro y hy h
  exact eq_of_render_eq distinct plain hy hx (h.trans hrender.symm)

end

namespace Walk

variable {σ φ κ ε : Type} [Described ε]

theorem exists_fault? {v : Visitor σ φ κ ε} {strategy : Strategy ε} {root : Node}
    {finite : strategy.FiniteFrom root.value} {context : κ} {s : Session σ} {fault : Fault ε}
    (h : (walk v strategy root.value finite context s).1 = .error fault)
    : ∃ e ∈ events v strategy root finite context s, e.fault? = some fault := by
  rw [(tells_walk v strategy root finite context s).result_eq, Note.result] at h
  split at h
  next found hfound =>
    cases h
    obtain ⟨note, hnote, hfault⟩ := List.exists_of_findSome?_eq_some hfound
    obtain ⟨e, he, rfl⟩ := List.mem_map.1 hnote
    exact ⟨e, he, hfault⟩
  next => contradiction

omit [Described ε] in
theorem Note.path_diagnostic {note : Note κ ε} {fault : Fault ε} {d : Diagnostic}
    (hfault : note.fault? = some fault) (hdiagnostic : fault.diagnostic? = some d)
    : d.path = some note.site.path := by
  unfold fault? at hfault
  split at hfault
  next => contradiction
  next =>
    cases hfault
    cases hdiagnostic
    rfl
  next =>
    cases hfault
    contradiction
  next =>
    cases hfault
    contradiction
  next => contradiction

end Walk

theorem Reference.exists_standsAt {place : Route → Option Occurrence} {ks : List Scope.Key}
    {xs : List Occurrence} {references : List Reference}
    (h : List.Forall₂ (StandsAt place ks) xs references) {r : Reference} (hr : r ∈ references)
    : ∃ x ∈ xs, StandsAt place ks x r := by
  induction h with
  | nil => contradiction
  | cons hfirst _ ih =>
    rcases List.mem_cons.1 hr with rfl | hr
    · exact ⟨_, List.mem_cons_self .., hfirst⟩
    · obtain ⟨x, hx, hstand⟩ := ih hr
      exact ⟨x, List.mem_cons_of_mem _ hx, hstand⟩

theorem Reference.exists_occurrence {root : Node} {free : List Reference} {log : Log}
    (h : freeReferences root.value = (.ok free, log)) {r : Reference} (hr : r ∈ free)
    : ∃ x ∈ root.occurrences Value.NotIterable, r.path = x.path ∧ r.node = x.node.value := by
  obtain ⟨hok, rfl⟩ := freeReferences_collection.1 ⟨log, h⟩
  have hinitial : Gathered (Analysis.outline root).at? []
      ((Analysis.fresh hooks).restart hooks root.value) :=
    ⟨[], List.Sublist.refl [], .nil⟩
  obtain ⟨_, ys, hsub, hstands⟩ := Analysis.run_keeps keeps_gathered hinitial hok
  obtain ⟨x, hx, hstand⟩ := exists_standsAt hstands (List.mem_of_mem_filter hr)
  exact ⟨x, hsub.subset hx, hstand.path, hstand.node⟩

namespace Walk

variable {σ φ κ ε : Type} [Described ε]

/--
The texts of the paths in a tree whose fields have plain names. A walk over all children shows paths
that have a text, and different occurrences, the root among them, have different texts. So a text
denotes one occurrence: the one that is reported where a visitor breaks the protocol, and the one
where a reference that is free stands.
-/
theorem path_text_denotes (v : Visitor σ φ κ ε) (root : Node) (context : κ) (s : Session σ)
    (distinct : root.value.everywhere Value.hasDistinctNames = true)
    (plain : root.value.everywhere Value.hasPlainNames = true)
    : walk v.recording .all root.value (Strategy.all_finiteFrom _) context (s.recording []) =
        ((walk v .all root.value (Strategy.all_finiteFrom _) context s).1,
          (walk v .all root.value (Strategy.all_finiteFrom _) context s).2.recording
            (recorded (events v .all root (Strategy.all_finiteFrom _) context s)))
      ∧ ((walk v .all root.value (Strategy.all_finiteFrom _) context s).1 = .ok () →
          occurrencesIn .enter (events v .all root (Strategy.all_finiteFrom _) context s) =
            root.occurrences ε)
      ∧ (∀ e ∈ events v .all root (Strategy.all_finiteFrom _) context s,
          ∃ text, Path.Denotes text (root.occurrences ε) e.occurrence)
      ∧ (∀ e ∈ events v .all root (Strategy.all_finiteFrom _) context s,
          ∀ e' ∈ events v .all root (Strategy.all_finiteFrom _) context s,
          e.route ≠ e'.route → e.site.path.render ≠ e'.site.path.render)
      ∧ (∀ fault d, (walk v .all root.value (Strategy.all_finiteFrom _) context s).1 =
          .error fault → fault.diagnostic? = some d →
          ∃ text x, d.path = some x.path ∧ d.pathText = .ok (some text)
            ∧ Path.Denotes text (root.occurrences ε) x)
      ∧ (∀ free log, freeReferences root.value = (.ok free, log) →
          ∀ r ∈ free, ∃ text x, r.path = x.path ∧ r.node = x.node.value
            ∧ r.path.render = .ok text
            ∧ Path.Denotes text (root.occurrences Value.NotIterable) x) := by
  refine ⟨walk_recording v .all root _ context s, ?_, ?_, ?_, ?_, ?_⟩
  · intro hok
    rw [walk_eq_visit] at hok
    exact (orderly_history hok).enters
  · intro e he
    exact ⟨_, Path.denotes_occurrence distinct plain (occurrence_history he)⟩
  · intro e he e' he' hroute h
    apply hroute
    have hsame := Path.eq_of_render_eq distinct plain (occurrence_history he)
      (occurrence_history he') h
    exact congrArg Occurrence.route hsame
  · intro fault d hfault hdiagnostic
    obtain ⟨e, he, hcause⟩ := exists_fault? hfault
    have hdenotes := Path.denotes_occurrence distinct plain (occurrence_history he)
    have hpath : d.path = some e.site.path := Note.path_diagnostic hcause hdiagnostic
    refine ⟨_, e.occurrence, hpath, ?_, hdenotes⟩
    rw [Diagnostic.pathText, hpath]
    exact congrArg (Except.map some) hdenotes.render
  · intro free log h r hr
    obtain ⟨x, hx, hpath, hnode⟩ := Reference.exists_occurrence h hr
    have hdenotes := Path.denotes_occurrence distinct plain hx
    refine ⟨_, x, hpath, hnode, ?_, hdenotes⟩
    rw [hpath]
    exact hdenotes.render

theorem path_text_denotes_sample
    : ∃ fault d x, (walk (scripted (sampleAgain false)) .all sampleRoot.value sampleFinite .null
          sampleSession).1 = .error fault
      ∧ fault.diagnostic? = some d
      ∧ d.pathText = .ok (some "Program.body[1]")
      ∧ Path.Denotes "Program.body[1]" (sampleRoot.occurrences Script.Failure) x := by
  have hfault : (walk (scripted (sampleAgain false)) .all sampleRoot.value sampleFinite .null
      sampleSession).1 = .error (.suspendedTwice "Leaf" sampleLeaf.value sampleLeafSite.path) := by
    rw [walk_eq_visit, unfolding_sampleRoot]
    rfl
  obtain ⟨_, _, _, _, hreports, _⟩ := path_text_denotes (scripted (sampleAgain false)) sampleRoot
    .null sampleSession (by decide) (by decide)
  obtain ⟨text, x, _, htext, hdenotes⟩ := hreports _ _ hfault rfl
  have hshown : (Path.render sampleLeafSite.path).map some = .ok (some "Program.body[1]") := by
    rfl
  have hsame : Except.ok (some "Program.body[1]") = Except.ok (some text) := hshown.symm.trans htext
  cases hsame
  exact ⟨_, _, x, hfault, rfl, htext, hdenotes⟩

end Walk

end Arbor
