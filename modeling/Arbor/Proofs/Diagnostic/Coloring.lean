import Arbor.Proofs.Diagnostic.EscapeSequence
import Arbor.Proofs.SExpr.Pairing
import Arbor.Proofs.Walk.PathText

/-!
This module is about the coloured form of diagnostics. A message, the name of a file and a path may
end in the middle of an escape sequence, but what follows them, an escape, the end of the line or
nothing, never completes it in one form only. Main statement: a diagnostic in colour is the plain one
with escape sequences put in, and leaves what the plain one leaves when all sequences are taken out
(`render_colored`).
-/

namespace Arbor

theorem notMem_intercalate {c : Char} {separator : List Char} {parts : List (List Char)}
    (hseparator : c ∉ separator) (h : ∀ part ∈ parts, c ∉ part)
    : c ∉ separator.intercalate parts := by
  cases parts with
  | nil => simp
  | cons first rest =>
    rw [List.forall_mem_cons] at h
    rw [SExpr.intercalate_cons, List.mem_append, List.mem_flatMap]
    rintro (hfirst | ⟨part, hpart, hmem⟩)
    · exact h.1 hfirst
    · rcases List.mem_append.1 hmem with hmem | hmem
      · exact hseparator hmem
      · exact h.2 part hpart hmem

theorem escape_notMem_toString (n : Int) : '\x1b' ∉ (toString n).toList := by
  intro h
  rcases SExpr.mem_numeral h with h | h <;> contradiction

theorem Ordinal.escape_notMem_text (o : Ordinal) : '\x1b' ∉ o.text.toList := by
  cases o with
  | int n => exact escape_notMem_toString n
  | bool b => cases b <;> decide

theorem Location.escape_notMem_text {l : Location} (h : '\x1b' ∉ l.file.toList)
    : '\x1b' ∉ l.text.toList := by
  have hline := l.line.escape_notMem_text
  have hcolumn := l.column.escape_notMem_text
  simp [text, toString, h, hline, hcolumn]

theorem Edge.escape_notMem_text {e : Edge} (h : '\x1b' ∉ e.key.toList)
    : '\x1b' ∉ e.text.toList := by
  rw [toList_text, List.mem_append, not_or]
  refine ⟨h, ?_⟩
  unfold placeText
  cases e.index with
  | none => simp
  | some i => simpa using escape_notMem_toString i

namespace Path

def names (p : Path) : List String :=
  (p.head?.bind (·.node.kind?)).toList ++ p.map (·.key)

theorem escape_notMem_fullText {kind : String} {edges : List Edge} (hkind : '\x1b' ∉ kind.toList)
    (hedges : ∀ e ∈ edges, '\x1b' ∉ e.key.toList) : '\x1b' ∉ (fullText kind edges).toList := by
  unfold fullText
  split
  next => simp [rootLabel]
  next hne =>
    have htexts : '\x1b' ∉ ['.'].intercalate (edges.map (·.text.toList)) := by
      apply notMem_intercalate (by decide)
      intro text htext
      obtain ⟨e, he, rfl⟩ := List.mem_map.1 htext
      exact Edge.escape_notMem_text (hedges e he)
    rw [toList_join kind hne, List.mem_append, List.mem_cons]
    rintro (h | h | h)
    · exact hkind h
    · contradiction
    · exact htexts h

theorem exists_render {p : Path} (h : ∀ step ∈ p.head?, step.node.isNode = true)
    : ∃ text, p.render = .ok text
      ∧ ((∀ name ∈ p.names, '\x1b' ∉ name.toList) → '\x1b' ∉ text.toList) := by
  cases p with
  | nil => exact ⟨rootLabel, rfl, fun _ => by simp [rootLabel]⟩
  | cons first rest =>
    obtain ⟨kind, hkind⟩ := Option.isSome_iff_exists.1 (h first rfl)
    have hfirst : ∀ step ∈ List.head? (first :: rest),
        step.node = (⟨first.node, kind, hkind⟩ : Node).value := by
      intro step hstep
      cases hstep
      rfl
    refine ⟨_, render_eq hfirst, ?_⟩
    intro hnames
    apply escape_notMem_fullText
    · apply hnames
      simp [names, hkind]
    · intro e he
      obtain ⟨step, hstep, rfl⟩ := List.mem_map.1 he
      apply hnames
      exact List.mem_append_right _ (List.mem_map_of_mem hstep)

end Path

namespace Diagnostic

open Ansi

def title (d : Diagnostic) (colored : Bool) : List Char :=
  paint colored [.bold, .red] s!"error[{d.code.text}]".toList ++
    paint colored [.bold] s!": {d.message}".toList

def note (colored : Bool) (label text : String) : List Char :=
  paint colored [.bold, .blue] label.toList ++ text.toList

theorem lines_eq (d : Diagnostic) (colored : Bool) (pathText : Option String)
    : d.lines colored pathText =
        d.title colored :: (((d.location.map Location.text).map (note colored " --> ")).toList ++
          (pathText.map (note colored " at ")).toList) := by
  rw [Option.map_map]
  rfl

theorem escape_notMem_code (code : Code) : '\x1b' ∉ s!"error[{code.text}]".toList := by
  cases code <;> simp [Code.text, toString]

theorem colors_title (d : Diagnostic) : Colors (d.title false) (d.title true) where
  inserted := (inserted_paint ..).append (inserted_paint ..)
  strip_eq := by
    have hcode : ∀ rest, Parted s!"error[{d.code.text}]".toList rest :=
      Parted.of_notMem (escape_notMem_code d.code)
    have hmessage : ∀ colored, strip (paint colored [.bold] s!": {d.message}".toList) =
        strip s!": {d.message}".toList := by
      intro colored
      have hpainted := strip_paint colored [.bold] (Parted.nil_right s!": {d.message}".toList)
      rwa [List.append_nil, strip_nil, List.append_nil] at hpainted
    unfold title
    rw [strip_paint true _ (hcode _), strip_paint false _ (hcode _), hmessage, hmessage]

theorem opens_title (d : Diagnostic) : "\x1b[".toList <+: d.title true := by
  rw [title, paint_cons, List.append_assoc]
  exact (isSequence_code .bold).opens _

theorem colors_note {label : String} (h : '\x1b' ∉ label.toList) (text : String)
    : Colors (note false label text) (note true label text) where
  inserted := (inserted_paint ..).append (Inserted.refl _)
  strip_eq := by
    unfold note
    rw [strip_paint true _ (Parted.of_notMem h _), strip_paint false _ (Parted.of_notMem h _)]

theorem colors_notes {label : String} (h : '\x1b' ∉ label.toList) (text : Option String)
    : List.Forall₂ Colors (text.map (note false label)).toList
        (text.map (note true label)).toList := by
  cases text with
  | none => exact .nil
  | some text => exact .cons (colors_note h text) .nil

theorem colors_lines (d : Diagnostic) (pathText : Option String)
    : List.Forall₂ Colors (d.lines false pathText) (d.lines true pathText) := by
  rw [lines_eq, lines_eq]
  apply List.Forall₂.cons (colors_title d)
  apply List.rel_append
  · exact colors_notes (by decide) _
  · exact colors_notes (by decide) _

def texts (d : Diagnostic) : List String :=
  d.message :: ((d.location.map (·.file)).toList ++ (d.path.map Path.names).getD [])

theorem escape_notMem_notes {label : String} {text : Option String} (h : '\x1b' ∉ label.toList)
    (htext : ∀ t ∈ text, '\x1b' ∉ t.toList)
    : ∀ line ∈ (text.map (note false label)).toList, '\x1b' ∉ line := by
  intro line hline
  obtain ⟨t, ht, rfl⟩ := Option.map_eq_some_iff.1 (Option.mem_toList.1 hline)
  exact List.not_mem_append h (htext t ht)

theorem escape_notMem_lines {d : Diagnostic} {pathText : Option String}
    (hmessage : '\x1b' ∉ d.message.toList) (hlocation : ∀ l ∈ d.location, '\x1b' ∉ l.file.toList)
    (hpath : ∀ text ∈ pathText, '\x1b' ∉ text.toList)
    : ∀ line ∈ d.lines false pathText, '\x1b' ∉ line := by
  rw [lines_eq, List.forall_mem_cons, List.forall_mem_append]
  refine ⟨?_, escape_notMem_notes (by decide) ?_, escape_notMem_notes (by decide) hpath⟩
  · apply List.not_mem_append (escape_notMem_code d.code)
    simp [paint, toString, hmessage]
  · intro text htext
    obtain ⟨l, hl, rfl⟩ := Option.map_eq_some_iff.1 htext
    exact Location.escape_notMem_text (hlocation l hl)

theorem exists_pathText {d : Diagnostic}
    (h : ∀ path ∈ d.path, ∀ step ∈ path.head?, step.node.isNode = true)
    : ∃ pathText, d.pathText = .ok pathText
      ∧ ((∀ text ∈ d.texts, '\x1b' ∉ text.toList) → ∀ text ∈ pathText, '\x1b' ∉ text.toList) := by
  unfold pathText
  cases hpath : d.path with
  | none => exact ⟨none, rfl, by simp⟩
  | some path =>
    obtain ⟨text, hrender, hclean⟩ := Path.exists_render (h path hpath)
    refine ⟨some text, congrArg (Except.map some) hrender, ?_⟩
    intro htexts shown hshown
    cases hshown
    apply hclean
    intro name hname
    apply htexts
    simp [texts, hpath, hname]

/--
Colour adds nothing but escape sequences. Whatever its texts hold, a diagnostic whose path starts at
a node is shown in colour and without. Its coloured text starts with a sequence and is the plain text
with sequences put in, and both leave the same when all sequences are taken out. Where no text holds
an escape, that is the plain text.
-/
theorem render_colored (d : Diagnostic)
    (h : ∀ path ∈ d.path, ∀ step ∈ path.head?, step.node.isNode = true)
    : ∃ colored, d.render true = .ok colored ∧ d.render false = .ok d.text
      ∧ "\x1b[".toList <+: colored.toList
      ∧ Inserted d.text.toList colored.toList
      ∧ strip colored.toList = strip d.text.toList
      ∧ ((∀ text ∈ d.texts, '\x1b' ∉ text.toList) → strip colored.toList = d.text.toList) := by
  obtain ⟨pathText, hpathText, hclean⟩ := exists_pathText h
  have hrender : ∀ colored, d.render colored =
      .ok (String.ofList (['\n'].intercalate (d.lines colored pathText))) := by
    intro colored
    rw [render, hpathText]
    rfl
  have htext : d.text = String.ofList (['\n'].intercalate (d.lines false pathText)) := by
    rw [text, hrender]
  have hcolors := Colors.lines (colors_lines d pathText)
  refine ⟨_, hrender true, by rw [hrender, htext], ?_⟩
  rw [htext]
  simp only [String.toList_ofList]
  refine ⟨?_, hcolors.inserted, hcolors.strip_eq, ?_⟩
  · rw [lines_eq, SExpr.intercalate_cons]
    exact (opens_title d).trans (List.prefix_append _ _)
  · intro htexts
    rw [hcolors.strip_eq]
    apply strip_eq_self
    apply notMem_intercalate (by decide)
    apply escape_notMem_lines
    · exact htexts d.message (by simp [texts])
    · intro l hl
      apply htexts
      simp [texts, Option.mem_def.1 hl]
    · exact hclean htexts

def sampleReport (message : String) : Diagnostic where
  code := .protocolViolation
  message := message
  location := some ⟨"m.js", .int 2, .int 1, .zero, .zero, .zero, .zero⟩
  path := some [⟨⟨"body", some 0⟩, Walk.sampleRoot.value⟩]

/-- A message that breaks off in the middle of a sequence, and one without escapes. -/
theorem render_colored_sample
    : (∃ colored, (sampleReport "cut \x1b[3").render true = .ok colored
        ∧ strip colored.toList = strip (sampleReport "cut \x1b[3").text.toList)
      ∧ ∃ colored, (sampleReport "twice").render true = .ok colored
        ∧ strip colored.toList =
          "error[W0002]: twice\n --> m.js:2:1\n at Program.body[0]".toList := by
  have hnode : ∀ message, ∀ path ∈ (sampleReport message).path, ∀ step ∈ path.head?,
      step.node.isNode = true := by
    intro message path hpath step hstep
    cases hpath
    cases hstep
    rfl
  obtain ⟨cut, hcut, _, _, _, hstrip, _⟩ := render_colored _ (hnode "cut \x1b[3")
  obtain ⟨twice, htwice, _, _, _, _, hclean⟩ := render_colored _ (hnode "twice")
  refine ⟨⟨cut, hcut, hstrip⟩, twice, htwice, ?_⟩
  rw [hclean (by decide)]
  rfl

end Diagnostic

end Arbor
