import Arbor.SExpr.Layout
import Mathlib.Data.List.Basic

/-!
This module says when a form is broken into lines. Whether a form fits is decided on its parts as
they are laid out, each by a decision of its own, so a part that is broken breaks the forms around
it. Main statement: a list of items is laid out on one line if and only if its flat text fits on
one, and then it is laid out as that text (`pretty_oneLine_iff`).
-/

namespace Arbor.SExpr

def formText (first last : Char) (parts : List (List Char)) : List Char :=
  first :: (joinBlank parts ++ [last])

mutual

def flat : SExpr → List Char
  | .symbol name => name.toList
  | .str s => quoted s.toList
  | .int n => (toString n).toList
  | .float x => x.text.toList
  | .bool b => if b then "true".toList else "false".toList
  | .list items => formText '(' ')' (flatAll items)
  | .brackets items => formText '[' ']' (flatAll items)
  | .verbatim text => text.toList

def flatAll : List SExpr → List (List Char)
  | [] => []
  | item :: rest => flat item :: flatAll rest

end

def Page.Holds (p : Page) (text : List Char) : Prop :=
  (text.length : Int) ≤ p.width ∧ '\n' ∉ text

theorem Page.Holds.sublist {p : Page} {text part : List Char} (h : p.Holds text)
    (hpart : part.Sublist text) : p.Holds part := by
  obtain ⟨hlength, hbreak⟩ := h
  have hle := hpart.length_le
  constructor
  · omega
  · intro hmem
    apply hbreak
    apply hpart.subset hmem

theorem sublist_intercalate (separator : List Char) {parts : List (List Char)} {part : List Char}
    (h : part ∈ parts) : part.Sublist (separator.intercalate parts) := by
  induction parts with
  | nil => contradiction
  | cons first rest ih =>
    cases rest with
    | nil =>
      rw [List.mem_singleton.1 h, List.intercalate_singleton]
    | cons second rest =>
      rw [List.intercalate_cons_cons, List.append_assoc]
      rcases List.mem_cons.1 h with heq | hrest
      · rw [heq]
        apply List.sublist_append_left
      · have hlater := ih hrest
        apply hlater.trans
        rw [← List.append_assoc]
        apply List.sublist_append_right

theorem sublist_formText (first last : Char) {parts : List (List Char)} {part : List Char}
    (h : part ∈ parts) : part.Sublist (formText first last parts) := by
  unfold formText joinBlank
  apply List.Sublist.cons
  apply (sublist_intercalate [' '] h).trans
  apply List.sublist_append_left

theorem text_form (first last : Char) (parts : List Block)
    : ((Block.join blank parts).enclose first last).text =
        formText first last (parts.map Block.text) := by
  simp [formText, joinBlank, blank]

section Parts

variable {p : Page} {level : Int} {parts : List Block}

theorem fits_form {first last : Char}
    : p.fits ((Block.join blank parts).enclose first last) = true ↔
        p.Holds (formText first last (parts.map Block.text)) := by
  rw [Page.fits_iff, text_form, Page.Holds]

theorem layoutBrackets_of_holds (h : p.Holds (formText '[' ']' (parts.map Block.text)))
    : (layoutBrackets p level parts).text = formText '[' ']' (parts.map Block.text) := by
  unfold layoutBrackets
  dsimp only
  rw [if_pos (fits_form.2 h), text_form]

theorem layoutList_of_holds (h : p.Holds (formText '(' ')' (parts.map Block.text)))
    : (layoutList p level parts).text = formText '(' ')' (parts.map Block.text) := by
  unfold layoutList
  split
  next => simp [formText, joinBlank]
  next head rest =>
    dsimp only
    rw [if_pos (fits_form.2 h), text_form]

theorem layoutBrackets_of_oneLine (h : '\n' ∉ (layoutBrackets p level parts).text)
    : (layoutBrackets p level parts).text = formText '[' ']' (parts.map Block.text) := by
  unfold layoutBrackets at h ⊢
  dsimp only at h ⊢
  split
  next => rw [text_form]
  next hfits =>
    rw [if_neg hfits] at h
    -- only a form of at most one part can be broken without a line break
    match parts with
    | [] => rfl
    | [part] => simp [Block.join, formText, joinBlank]
    | first :: second :: rest =>
      refine absurd ?_ h
      simp [Block.join, lineBreak]

theorem layoutList_of_oneLine (h : '\n' ∉ (layoutList p level parts).text)
    : (layoutList p level parts).text = formText '(' ')' (parts.map Block.text)
      ∧ (parts = [] ∨ p.Holds (formText '(' ')' (parts.map Block.text))) := by
  cases parts with
  | nil => exact ⟨by simp [layoutList, formText, joinBlank], .inl rfl⟩
  | cons head rest =>
    have hholds : p.Holds (formText '(' ')' ((head :: rest).map Block.text)) := by
      by_contra hover
      unfold layoutList at h
      dsimp only at h
      rw [if_neg (mt fits_form.1 hover)] at h
      simp [lineBreak] at h
    exact ⟨layoutList_of_holds hholds, .inr hholds⟩

end Parts

mutual

theorem layout_of_holds {p : Page} (level : Int)
    : (e : SExpr) → p.Holds e.flat → (layout p level e).text = e.flat
  | .list items, h => by
    have hitems := layoutAll_of_holds (level + 1) items fun part hpart =>
      h.sublist (sublist_formText '(' ')' hpart)
    rw [flat, ← hitems] at h ⊢
    rw [layout]
    apply layoutList_of_holds h
  | .brackets items, h => by
    have hitems := layoutAll_of_holds (level + 1) items fun part hpart =>
      h.sublist (sublist_formText '[' ']' hpart)
    rw [flat, ← hitems] at h ⊢
    rw [layout]
    apply layoutBrackets_of_holds h
  | .symbol _, _ | .str _, _ | .int _, _ | .float _, _ | .bool _, _ | .verbatim _, _ => by
    rw [layout, flat, Block.text_ofChars]

theorem layoutAll_of_holds {p : Page} (level : Int)
    : (items : List SExpr) → (∀ part ∈ flatAll items, p.Holds part) →
      (layoutAll p level items).map Block.text = flatAll items
  | [], _ => rfl
  | item :: rest, h => by
    rw [flatAll, List.forall_mem_cons] at h
    rw [layoutAll, flatAll, List.map_cons, layout_of_holds level item h.1,
      layoutAll_of_holds level rest h.2]

end

mutual

theorem layout_of_oneLine {p : Page} {level : Int}
    : (e : SExpr) → '\n' ∉ (layout p level e).text → (layout p level e).text = e.flat
  | .list items, h => by
    rw [layout] at h ⊢
    have hform := (layoutList_of_oneLine h).1
    rw [hform] at h ⊢
    rw [flat, layoutAll_of_oneLine items fun part hpart hbreak =>
      h ((sublist_formText '(' ')' hpart).subset hbreak)]
  | .brackets items, h => by
    rw [layout] at h ⊢
    have hform := layoutBrackets_of_oneLine h
    rw [hform] at h ⊢
    rw [flat, layoutAll_of_oneLine items fun part hpart hbreak =>
      h ((sublist_formText '[' ']' hpart).subset hbreak)]
  | .symbol _, _ | .str _, _ | .int _, _ | .float _, _ | .bool _, _ | .verbatim _, _ => by
    rw [layout, flat, Block.text_ofChars]

theorem layoutAll_of_oneLine {p : Page} {level : Int}
    : (items : List SExpr) → (∀ part ∈ (layoutAll p level items).map Block.text, '\n' ∉ part) →
      (layoutAll p level items).map Block.text = flatAll items
  | [], _ => rfl
  | item :: rest, h => by
    rw [layoutAll, List.map_cons, List.forall_mem_cons] at h
    rw [layoutAll, flatAll, List.map_cons, layout_of_oneLine item h.1,
      layoutAll_of_oneLine rest h.2]

end

theorem holds_of_oneLine {p : Page} {level : Int} {item : SExpr} {items : List SExpr}
    (h : '\n' ∉ (layout p level (.list (item :: items))).text)
    : p.Holds (flat (.list (item :: items))) := by
  have hflat := layout_of_oneLine _ h
  rw [layout] at h hflat
  obtain ⟨hform, hnil | hholds⟩ := layoutList_of_oneLine h
  · contradiction
  · rwa [← hflat, hform]

/--
A list with items is laid out on one line if and only if its flat text has no line break and is no
longer than the page is wide. Then it is laid out as its flat text, whatever the indentation.
-/
theorem pretty_oneLine_iff (p : Page) (level : Int) (item : SExpr) (items : List SExpr)
    : ('\n' ∉ (pretty (.list (item :: items)) p level).toList ↔
        '\n' ∉ flat (.list (item :: items)) ∧ (flat (.list (item :: items))).length ≤ p.width)
      ∧ ('\n' ∉ (pretty (.list (item :: items)) p level).toList →
          ∀ indentText level', pretty (.list (item :: items)) { p with indentText } level' =
            String.ofList (flat (.list (item :: items)))) := by
  simp only [pretty, String.toList_ofList]
  refine ⟨⟨?_, ?_⟩, ?_⟩
  · intro h
    obtain ⟨hlength, hbreak⟩ := holds_of_oneLine h
    exact ⟨hbreak, hlength⟩
  · rintro ⟨hbreak, hlength⟩
    rwa [layout_of_holds level _ ⟨hlength, hbreak⟩]
  · intro h indentText level'
    obtain ⟨hlength, hbreak⟩ := holds_of_oneLine h
    rw [layout_of_holds (p := { p with indentText }) level' _ ⟨hlength, hbreak⟩]

/-- The form `(a [b])`. The brackets in it are too long for narrow pages, but never broken. -/
def sampleForm : SExpr :=
  .list [.symbol "a", .brackets [.symbol "b"]]

theorem pretty_oneLine_iff_sample
    : '\n' ∉ (sampleForm.pretty { width := 7 } 3).toList
      ∧ sampleForm.pretty { indentText := ['\t'], width := 7 } (-2) = "(a [b])"
      ∧ ¬ '\n' ∉ (sampleForm.pretty { width := 2 } 0).toList
      ∧ sampleForm.pretty { width := 2 } 0 = "(a\n  [b]\n)" := by
  obtain ⟨hwide, hflat⟩ :=
    pretty_oneLine_iff { width := 7 } 3 (.symbol "a") [.brackets [.symbol "b"]]
  obtain ⟨hnarrow, _⟩ :=
    pretty_oneLine_iff { width := 2 } 0 (.symbol "a") [.brackets [.symbol "b"]]
  have hsingle := hwide.2 (by decide)
  exact ⟨hsingle, hflat hsingle ['\t'] (-2), mt hnarrow.1 (by decide), by decide⟩

end Arbor.SExpr
