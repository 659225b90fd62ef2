import Arbor.SExpr.Layout
import Mathlib.Data.List.Forall2

/-!
This module reads S-expressions back from their texts. The reader goes through the characters once
and knows nothing of the page they were laid out on: outside of strings, blanks and line breaks only
end atoms. Main statement: what is read from a layout is what was laid out, up to the spelling of
numbers (`read_layout`).
-/

namespace Arbor.SExpr

inductive Mode where
  | between
  | atom (seen : List Char)
  | quoted (seen : List Char)
  | escaped (seen : List Char)

/-- A reader keeps the items of the innermost open form and of those around it, latest first. -/
structure Reader where
  mode : Mode
  items : List SExpr
  outer : List (List SExpr)

def marks : List Char :=
  [' ', '\n', '(', ')', '[', ']', '"']

def isBlank (c : Char) : Bool :=
  c = ' ' || c = '\n'

namespace Reader

def settle (r : Reader) : Reader :=
  match r.mode with
  | .atom seen => ⟨.between, .symbol (String.ofList seen.reverse) :: r.items, r.outer⟩
  | _ => r

def openForm (r : Reader) : Reader :=
  ⟨.between, [], r.items :: r.outer⟩

def closeForm (make : List SExpr → SExpr) (r : Reader) : Reader :=
  match r.outer with
  | [] => r
  | items :: outer => ⟨.between, make r.items.reverse :: items, outer⟩

def mark? (c : Char) : Option (Reader → Reader) :=
  if isBlank c then some id
  else if c = '(' ∨ c = '[' then some openForm
  else if c = ')' then some (closeForm .list)
  else if c = ']' then some (closeForm .brackets)
  else if c = '"' then some fun r => { r with mode := .quoted [] }
  else none

def outside (r : Reader) (seen : List Char) (c : Char) : Reader :=
  match mark? c with
  | some act => act r.settle
  | none => { r with mode := .atom (c :: seen) }

def step (r : Reader) (c : Char) : Reader :=
  match r.mode with
  | .between => r.outside [] c
  | .atom seen => r.outside seen c
  | .quoted seen =>
    if c = '"' then ⟨.between, .str (String.ofList seen.reverse) :: r.items, r.outer⟩
    else if c = '\\' then { r with mode := .escaped seen }
    else { r with mode := .quoted (c :: seen) }
  | .escaped seen => { r with mode := .quoted (c :: seen) }

def run (r : Reader) (text : List Char) : Reader :=
  text.foldl step r

theorem run_append (r : Reader) (text rest : List Char)
    : r.run (text ++ rest) = (r.run text).run rest := by
  apply List.foldl_append

theorem mark?_eq_none {c : Char} (h : c ∉ marks) : mark? c = none := by
  simp only [marks, List.mem_cons, List.not_mem_nil, or_false, not_or] at h
  obtain ⟨hblank, hline, hopen, hclose, hopen', hclose', hquote⟩ := h
  simp [mark?, isBlank, *]

theorem settle_settle (r : Reader) : r.settle.settle = r.settle := by
  obtain ⟨mode, items, outer⟩ := r
  cases mode <;> rfl

theorem step_mark {r : Reader} (hr : r.settle.mode = .between) {c : Char} {act : Reader → Reader}
    (hc : mark? c = some act) : r.step c = act r.settle := by
  obtain ⟨mode, items, outer⟩ := r
  cases mode with
  | between | atom seen =>
    dsimp only [step, outside]
    rw [hc]
  | quoted seen | escaped seen => contradiction

theorem run_atom (seen : List Char) (items : List SExpr) (outer : List (List SExpr))
    {text : List Char} (htext : ∀ c ∈ text, c ∉ marks)
    : run ⟨.atom seen, items, outer⟩ text = ⟨.atom (text.reverse ++ seen), items, outer⟩ := by
  induction text generalizing seen with
  | nil => rfl
  | cons c text ih =>
    rw [List.forall_mem_cons] at htext
    have hstep : step ⟨.atom seen, items, outer⟩ c = ⟨.atom (c :: seen), items, outer⟩ := by
      dsimp only [step, outside]
      rw [mark?_eq_none htext.1]
    rw [run, List.foldl_cons, hstep, ← run, ih _ htext.2]
    simp

theorem run_quoted (seen : List Char) (items : List SExpr) (outer : List (List SExpr))
    (text : List Char)
    : run ⟨.quoted seen, items, outer⟩
          (text.flatMap fun c => if c = '\\' ∨ c = '"' then ['\\', c] else [c]) =
        ⟨.quoted (text.reverse ++ seen), items, outer⟩ := by
  induction text generalizing seen with
  | nil => rfl
  | cons c text ih =>
    have hchar : run ⟨.quoted seen, items, outer⟩
        (if c = '\\' ∨ c = '"' then ['\\', c] else [c]) = ⟨.quoted (c :: seen), items, outer⟩ := by
      split
      next => rfl
      next h =>
        rw [not_or] at h
        simp [run, step, h]
    rw [List.flatMap_cons, run_append, hchar, ih]
    simp

theorem run_blanks {r : Reader} (hr : r.settle.mode = .between) {gap : List Char} (hgap : gap ≠ [])
    (hblank : ∀ c ∈ gap, isBlank c = true) : r.run gap = r.settle := by
  induction gap generalizing r with
  | nil => contradiction
  | cons c gap ih =>
    rw [List.forall_mem_cons] at hblank
    have hstep : r.step c = r.settle := step_mark hr (if_pos hblank.1)
    rw [run, List.foldl_cons, hstep, ← run]
    by_cases hrest : gap = []
    · rw [hrest]
      rfl
    · rw [ih (by rw [settle_settle, hr]) hrest hblank.2, settle_settle]

end Reader

open Reader

/-- The reader finds some expressions in a text, whatever it has read before. -/
def Reads (es : List SExpr) (text : List Char) : Prop :=
  ∀ items outer,
    (run ⟨.between, items, outer⟩ text).settle = ⟨.between, es.reverse ++ items, outer⟩

theorem reads_nil : Reads [] [] :=
  fun _ _ => rfl

theorem reads_atom {name : List Char} (hne : name ≠ []) (hname : ∀ c ∈ name, c ∉ marks)
    : Reads [.symbol (String.ofList name)] name := by
  intro items outer
  cases name with
  | nil => contradiction
  | cons c rest =>
    rw [List.forall_mem_cons] at hname
    have hstep : step ⟨.between, items, outer⟩ c = ⟨.atom [c], items, outer⟩ := by
      dsimp only [step, outside]
      rw [mark?_eq_none hname.1]
    rw [run, List.foldl_cons, hstep, ← run, run_atom _ _ _ hname.2]
    simp [settle]

theorem reads_quoted (s : List Char) : Reads [.str (String.ofList s)] (quoted s) := by
  intro items outer
  have hstart : step ⟨.between, items, outer⟩ '"' = ⟨.quoted [], items, outer⟩ := rfl
  rw [quoted, List.cons_append, run, List.foldl_cons, hstart, ← run, run_append, run_quoted]
  simp [run, step, settle]

namespace Reads

variable {es fs : List SExpr} {text rest gap : List Char}

theorem append_blanks (h : Reads es text) (hblank : ∀ c ∈ gap, isBlank c = true)
    : Reads es (text ++ gap) := by
  intro items outer
  by_cases hgap : gap = []
  · rw [hgap, List.append_nil]
    exact h items outer
  · rw [run_append, run_blanks (by rw [h]) hgap hblank, settle_settle]
    exact h items outer

theorem append (h : Reads es text) (hrest : Reads fs rest) (hgap : gap ≠ [])
    (hblank : ∀ c ∈ gap, isBlank c = true) : Reads (es ++ fs) (text ++ gap ++ rest) := by
  intro items outer
  rw [run_append, run_append, run_blanks (by rw [h]) hgap hblank, h, hrest]
  simp

theorem intercalate {groups : List (List SExpr)} {lines : List (List Char)}
    (h : List.Forall₂ Reads groups lines) (hgap : gap ≠ [])
    (hblank : ∀ c ∈ gap, isBlank c = true) : Reads groups.flatten (gap.intercalate lines) := by
  induction h with
  | nil => exact reads_nil
  | @cons es line groups lines hline hlines ih =>
    cases hlines with
    | nil => simpa using hline
    | cons =>
      rw [List.flatten_cons, List.intercalate_cons_cons]
      exact hline.append ih hgap hblank

theorem enclose {first last : Char} {make : List SExpr → SExpr} (h : Reads es text)
    (hfirst : mark? first = some openForm) (hlast : mark? last = some (closeForm make))
    : Reads [make es] (first :: (text ++ [last])) := by
  intro items outer
  have hopen : step ⟨.between, items, outer⟩ first = ⟨.between, [], items :: outer⟩ :=
    step_mark rfl hfirst
  have hinner := h [] (items :: outer)
  have hclose : (run ⟨.between, [], items :: outer⟩ text).step last =
      ⟨.between, make es :: items, outer⟩ := by
    rw [step_mark (by rw [hinner]) hlast, hinner]
    simp [closeForm]
  rw [run, List.foldl_cons, hopen, ← run, run_append]
  show (step _ last).settle = _
  rw [hclose]
  rfl

end Reads

def ReadsEach : List SExpr → List Block → Prop :=
  List.Forall₂ fun e part => Reads [e] part.text

section Layout

variable {p : Page} (hpage : ∀ c ∈ p.indentText, isBlank c = true) {es : List SExpr}
  {parts : List Block}

theorem blank_ne_nil : blank.text ≠ [] :=
  by simp [blank]

theorem isBlank_blank : ∀ c ∈ blank.text, isBlank c = true := by
  simp [blank, isBlank]

theorem lineBreak_ne_nil (p : Page) (level : Int) : (lineBreak p level).text ≠ [] := by
  simp [lineBreak]

include hpage in
theorem isBlank_lineBreak (level : Int) : ∀ c ∈ (lineBreak p level).text, isBlank c = true := by
  intro c hc
  rw [lineBreak, Block.text_ofChars, List.mem_cons] at hc
  rcases hc with rfl | hc
  · rfl
  · rw [Page.indent, List.mem_flatten] at hc
    obtain ⟨one, hone, hc⟩ := hc
    rw [List.eq_of_mem_replicate hone] at hc
    exact hpage c hc

theorem reads_join {gap : Block} (h : ReadsEach es parts) (hgap : gap.text ≠ [])
    (hblank : ∀ c ∈ gap.text, isBlank c = true) : Reads es (Block.join gap parts).text := by
  have hgroups : List.Forall₂ Reads (es.map fun e => [e]) (parts.map Block.text) := by
    rw [List.forall₂_map_left_iff, List.forall₂_map_right_iff]
    exact h
  have hreads := Reads.intercalate hgroups hgap hblank
  rw [Block.text_join]
  simpa [← List.flatMap_def] using hreads

theorem readsEach_pairLines (h : ReadsEach es parts)
    : ∃ groups, groups.flatten = es
      ∧ List.Forall₂ Reads groups ((pairLines parts).map Block.text) := by
  fun_induction pairLines parts generalizing es with
  | case1 =>
    cases h
    exact ⟨[], rfl, .nil⟩
  | case2 part =>
    obtain ⟨e, _, hpart, hnil, rfl⟩ := List.forall₂_cons_right_iff.1 h
    cases hnil
    exact ⟨[[e]], rfl, .cons hpart .nil⟩
  | case3 part value rest hkeyword ih =>
    obtain ⟨e, _, hpart, htail, rfl⟩ := List.forall₂_cons_right_iff.1 h
    obtain ⟨f, fs, hvalue, hrest, rfl⟩ := List.forall₂_cons_right_iff.1 htail
    obtain ⟨groups, rfl, hgroups⟩ := ih hrest
    refine ⟨[e, f] :: groups, rfl, .cons ?_ hgroups⟩
    rw [Block.text_append, Block.text_append, ← List.append_assoc]
    exact hpart.append hvalue blank_ne_nil isBlank_blank
  | case4 part value rest hkeyword ih =>
    obtain ⟨e, fs, hpart, htail, rfl⟩ := List.forall₂_cons_right_iff.1 h
    obtain ⟨groups, rfl, hgroups⟩ := ih htail
    exact ⟨[e] :: groups, rfl, .cons hpart hgroups⟩

include hpage

theorem reads_layoutBrackets (level : Int) (h : ReadsEach es parts)
    : Reads [.brackets es] (layoutBrackets p level parts).text := by
  unfold layoutBrackets
  dsimp only
  split <;> rw [Block.text_enclose]
  · exact (reads_join h blank_ne_nil isBlank_blank).enclose rfl rfl
  · exact (reads_join h (lineBreak_ne_nil p _) (isBlank_lineBreak hpage _)).enclose rfl rfl

theorem reads_layoutList (level : Int) (h : ReadsEach es parts)
    : Reads [.list es] (layoutList p level parts).text := by
  unfold layoutList
  split
  next =>
    cases h
    rw [Block.text_ofChars]
    exact reads_nil.enclose rfl rfl
  next head rest =>
    dsimp only
    split <;> rw [Block.text_enclose]
    · exact (reads_join h blank_ne_nil isBlank_blank).enclose rfl rfl
    · obtain ⟨e, _, hhead, hrest, rfl⟩ := List.forall₂_cons_right_iff.1 h
      obtain ⟨groups, rfl, hgroups⟩ := readsEach_pairLines hrest
      have hlines := Reads.intercalate (.cons hhead hgroups) (lineBreak_ne_nil p (level + 1))
        (isBlank_lineBreak hpage _)
      rw [Block.text_append, Block.text_join]
      exact (hlines.append_blanks (isBlank_lineBreak hpage level)).enclose rfl rfl

end Layout

def isUnmarked (name : String) : Bool :=
  name.toList.all fun c => !marks.contains c

def isAtom (name : String) : Bool :=
  name != "" && isUnmarked name

theorem isUnmarked_iff {name : String}
    : isUnmarked name = true ↔ ∀ c ∈ name.toList, c ∉ marks := by
  simp [isUnmarked]

theorem isAtom_iff {name : String}
    : isAtom name = true ↔ name ≠ "" ∧ ∀ c ∈ name.toList, c ∉ marks := by
  rw [isAtom, Bool.and_eq_true, bne_iff_ne, isUnmarked_iff]

mutual

def isLegible : SExpr → Bool
  | .symbol name => isAtom name
  | .str _ | .int _ | .bool _ => true
  | .list items | .brackets items => areLegible items
  | .float _ | .verbatim _ => false

def areLegible : List SExpr → Bool
  | [] => true
  | item :: rest => isLegible item && areLegible rest

end

mutual

def spelled : SExpr → SExpr
  | .int n => .symbol (toString n)
  | .bool b => .symbol (if b then "true" else "false")
  | .list items => .list (spelledAll items)
  | .brackets items => .brackets (spelledAll items)
  | e => e

def spelledAll : List SExpr → List SExpr
  | [] => []
  | item :: rest => spelled item :: spelledAll rest

end

@[simp]
theorem spelled_symbol (name : String) : (symbol name).spelled = symbol name := by
  rfl

theorem reads_symbol {name : String} (h : isAtom name = true)
    : Reads [.symbol name] name.toList := by
  obtain ⟨hne, hname⟩ := isAtom_iff.1 h
  have hreads := reads_atom (mt String.toList_eq_nil_iff.1 hne) hname
  rwa [String.ofList_toList] at hreads

theorem mem_numeral {n : Int} {c : Char} (h : c ∈ (toString n).toList)
    : c.isDigit = true ∨ c = '-' := by
  have hdigits : ∀ m : Nat, c ∈ m.repr.toList → c.isDigit = true := by
    intro m hm
    rw [Nat.repr_eq_ofList_toDigits, String.toList_ofList] at hm
    exact Nat.isDigit_of_mem_toDigits (by decide) (by decide) hm
  rw [Int.toString_eq_repr, Int.repr_eq_if] at h
  split at h
  · exact .inl (hdigits _ h)
  · rw [String.toList_append, List.mem_append] at h
    rcases h with h | h
    · exact .inr (List.mem_singleton.1 h)
    · exact .inl (hdigits _ h)

theorem isAtom_toString (n : Int) : isAtom (toString n) = true := by
  rw [isAtom_iff]
  constructor
  · rw [Int.toString_eq_repr, Int.repr_eq_if]
    split
    · exact Nat.repr_ne_empty
    · simp
  · intro c hc hmark
    have hmarks : ∀ c ∈ marks, ¬ (c.isDigit = true ∨ c = '-') := by
      simp [marks]
    exact hmarks c hmark (mem_numeral hc)

mutual

theorem reads_layout {p : Page} (hpage : ∀ c ∈ p.indentText, isBlank c = true) (level : Int)
    : (e : SExpr) → e.isLegible = true → Reads [e.spelled] (layout p level e).text
  | .symbol name, h => by
    rw [layout, Block.text_ofChars]
    exact reads_symbol h
  | .str s, _ => by
    have hreads := reads_quoted s.toList
    rw [String.ofList_toList] at hreads
    rwa [layout, Block.text_ofChars]
  | .int n, _ => by
    rw [layout, Block.text_ofChars]
    exact reads_symbol (isAtom_toString n)
  | .bool b, _ => by
    rw [layout, Block.text_ofChars]
    cases b <;> exact reads_symbol (by decide)
  | .list items, h => by
    rw [layout]
    exact reads_layoutList hpage level (readsEach_layoutAll hpage (level + 1) items h)
  | .brackets items, h => by
    rw [layout]
    exact reads_layoutBrackets hpage level (readsEach_layoutAll hpage (level + 1) items h)
  | .float _, h | .verbatim _, h => Bool.noConfusion h

theorem readsEach_layoutAll {p : Page} (hpage : ∀ c ∈ p.indentText, isBlank c = true) (level : Int)
    : (items : List SExpr) → areLegible items = true →
      ReadsEach (spelledAll items) (layoutAll p level items)
  | [], _ => .nil
  | item :: rest, h => by
    rw [areLegible, Bool.and_eq_true] at h
    exact .cons (reads_layout hpage level item h.1) (readsEach_layoutAll hpage level rest h.2)

end

def read (text : List Char) : Option SExpr :=
  match (run ⟨.between, [], []⟩ text).settle with
  | ⟨.between, [e], []⟩ => some e
  | _ => none

theorem read_layout {p : Page} (hpage : ∀ c ∈ p.indentText, isBlank c = true) (level : Int)
    {e : SExpr} (h : e.isLegible = true) : read (layout p level e).text = some e.spelled := by
  rw [read, reads_layout hpage level e h]
  rfl

end Arbor.SExpr
