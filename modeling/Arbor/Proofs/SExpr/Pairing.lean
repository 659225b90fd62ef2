import Arbor.Proofs.Number.Spelling
import Arbor.Proofs.SExpr.Fitting
import Arbor.Proofs.SExpr.Reader

/-!
This module is about lists with keywords. Their parts are keywords with values, behind a first part
that is no keyword or right from the start. A list on one line has a blank between all its parts. In
a list that is broken into lines a keyword shares its line with its value; only a keyword that is
the first part is parted from its value by a line break (`layoutList_keyed`).
-/

namespace Arbor.SExpr

def IsGap (gap : List Char) : Prop :=
  gap ≠ [] ∧ ∀ c ∈ gap, isBlank c = true

def IsSolid (text : List Char) : Prop :=
  ∃ c rest, text = c :: rest ∧ isBlank c = false ∧ c ≠ ':'

/-- What stands before the parts of a list, but for the first one, and before its end. -/
inductive Spacing (p : Page) (level : Int) : List Char → List Char → Prop where
  | line : Spacing p level [' '] []
  | lines : Spacing p level (lineBreak p (level + 1)).text (lineBreak p level).text

section Spacing

variable {p : Page} {level : Int} {gap close : List Char}
  (hpage : ∀ c ∈ p.indentText, isBlank c = true)

include hpage

theorem Spacing.isGap (h : Spacing p level gap close) : IsGap gap := by
  cases h with
  | line => exact ⟨blank_ne_nil, isBlank_blank⟩
  | lines => exact ⟨lineBreak_ne_nil p _, isBlank_lineBreak hpage _⟩

theorem Spacing.isBlank_close (h : Spacing p level gap close) : ∀ c ∈ close, isBlank c = true := by
  cases h with
  | line => simp
  | lines => exact isBlank_lineBreak hpage _

end Spacing

def pairParts (pairs : List (Block × Block)) : List Block :=
  pairs.flatMap fun pair => [pair.1, pair.2]

def pairTexts (gap : List Char) (pairs : List (Block × Block)) : List Char :=
  pairs.flatMap fun pair => gap ++ pair.1.text ++ ' ' :: pair.2.text

theorem intercalate_cons (gap first : List Char) (rest : List (List Char))
    : gap.intercalate (first :: rest) = first ++ rest.flatMap (gap ++ ·) := by
  induction rest generalizing first with
  | nil => simp
  | cons second rest ih =>
    rw [List.intercalate_cons_cons, ih, List.flatMap_cons]
    simp

theorem flatMap_pairParts (pairs : List (Block × Block))
    : (pairParts pairs).flatMap (fun part => ' ' :: part.text) = pairTexts [' '] pairs := by
  induction pairs with
  | nil => rfl
  | cons pair rest ih =>
    rw [pairParts, List.flatMap_cons, List.flatMap_append, ← pairParts, ih]
    simp [pairTexts]

theorem flatMap_pairLines (gap : List Char) {pairs : List (Block × Block)}
    (h : ∀ pair ∈ pairs, isKeyword pair.1 = true)
    : (pairLines (pairParts pairs)).flatMap (gap ++ ·.text) = pairTexts gap pairs := by
  induction pairs with
  | nil => rfl
  | cons pair rest ih =>
    rw [List.forall_mem_cons] at h
    have hlines : pairLines (pairParts (pair :: rest)) =
        pair.1.append (blank.append pair.2) :: pairLines (pairParts rest) :=
      if_pos h.1
    rw [hlines, List.flatMap_cons, ih h.2]
    simp [pairTexts, blank]

theorem pairLines_cons {part : Block} (h : isKeyword part = false) (rest : List Block)
    : pairLines (part :: rest) = part :: pairLines rest := by
  cases rest with
  | nil => rfl
  | cons second rest => exact if_neg (by simp [h])

theorem text_layoutList (p : Page) (level : Int) (head : Block) (rest : List Block)
    : ((layoutList p level (head :: rest)).text =
          '(' :: (head.text ++ rest.flatMap (' ' :: ·.text) ++ [')'])
        ∧ '\n' ∉ (layoutList p level (head :: rest)).text)
      ∨
      (layoutList p level (head :: rest)).text =
        '(' :: (head.text ++ (pairLines rest).flatMap ((lineBreak p (level + 1)).text ++ ·.text) ++
          (lineBreak p level).text ++ [')']) := by
  unfold layoutList
  dsimp only
  split
  next hfits =>
    left
    refine ⟨?_, ((p.fits_iff _).1 hfits).2⟩
    rw [text_form, formText, joinBlank, List.map_cons, intercalate_cons, List.flatMap_map]
    rfl
  next =>
    right
    rw [Block.text_enclose, Block.text_append, Block.text_join, List.map_cons, intercalate_cons,
      List.flatMap_map]

theorem text_layoutBrackets {p : Page} (hpage : ∀ c ∈ p.indentText, isBlank c = true) (level : Int)
    (parts : List Block)
    : ∃ gap, IsGap gap
      ∧ (layoutBrackets p level parts).text =
        '[' :: (gap.intercalate (parts.map Block.text) ++ [']']) := by
  unfold layoutBrackets
  dsimp only
  split
  · refine ⟨[' '], (Spacing.line : Spacing p level [' '] []).isGap hpage, ?_⟩
    rw [text_form]
    rfl
  · refine ⟨(lineBreak p (level + 1)).text, Spacing.lines.isGap hpage, ?_⟩
    rw [Block.text_enclose, Block.text_join]

theorem layoutList_headed (p : Page) (level : Int) (head : Block) {pairs : List (Block × Block)}
    (hkeywords : ∀ pair ∈ pairs, isKeyword pair.1 = true)
    : ∃ gap close, Spacing p level gap close
      ∧ (layoutList p level (head :: pairParts pairs)).text =
        '(' :: (head.text ++ pairTexts gap pairs ++ close ++ [')']) := by
  rcases text_layoutList p level head (pairParts pairs) with ⟨htext, _⟩ | htext
  · refine ⟨_, _, .line, ?_⟩
    rw [htext, flatMap_pairParts, List.append_nil]
  · refine ⟨_, _, .lines, ?_⟩
    rw [htext, flatMap_pairLines _ hkeywords]

theorem layoutList_keyed (p : Page) (level : Int) (key : Block) {value : Block}
    (hvalue : isKeyword value = false) {pairs : List (Block × Block)}
    (hkeywords : ∀ pair ∈ pairs, isKeyword pair.1 = true)
    : ∃ gap close, Spacing p level gap close
      ∧ (layoutList p level (key :: value :: pairParts pairs)).text =
        '(' :: (key.text ++ gap ++ value.text ++ pairTexts gap pairs ++ close ++ [')'])
      ∧ gap =
        if '\n' ∈ (layoutList p level (key :: value :: pairParts pairs)).text then
          (lineBreak p (level + 1)).text
        else [' '] := by
  rcases text_layoutList p level key (value :: pairParts pairs) with ⟨htext, hline⟩ | htext
  · refine ⟨_, _, .line, ?_, (if_neg hline).symm⟩
    rw [htext, List.flatMap_cons, flatMap_pairParts]
    simp
  · rw [pairLines_cons hvalue, List.flatMap_cons, flatMap_pairLines _ hkeywords] at htext
    refine ⟨_, _, .lines, ?_, (if_pos ?_).symm⟩
    · rw [htext]
      simp
    · rw [htext]
      simp [lineBreak]

theorem layoutAll_eq_map (p : Page) (level : Int) (items : List SExpr)
    : layoutAll p level items = items.map (layout p level) := by
  induction items with
  | nil => rfl
  | cons item rest ih => rw [layoutAll, ih, List.map_cons]

theorem text_keyword (p : Page) (level : Int) (key : String)
    : (layout p level (.keyword key)).text = ':' :: key.toList := by
  rw [keyword, layout, Block.text_ofChars, String.toList_append]
  rfl

theorem isKeyword_keyword (p : Page) (level : Int) (key : String)
    : isKeyword (layout p level (.keyword key)) = true := by
  rw [isKeyword, Block.head?_eq, text_keyword]
  rfl

theorem IsSolid.not_isKeyword {b : Block} (h : IsSolid b.text) : isKeyword b = false := by
  obtain ⟨c, rest, htext, _, hcolon⟩ := h
  rw [isKeyword, Block.head?_eq, htext]
  simpa using hcolon

theorem isSolid_cons {c : Char} (h : isBlank c = false ∧ c ≠ ':') (rest : List Char)
    : IsSolid (c :: rest) :=
  ⟨c, rest, rfl, h⟩

theorem isSolid_layoutList (p : Page) (level : Int) (parts : List Block)
    : IsSolid (layoutList p level parts).text := by
  cases parts with
  | nil =>
    rw [layoutList, Block.text_ofChars]
    apply isSolid_cons (by decide)
  | cons head rest =>
    rcases text_layoutList p level head rest with ⟨htext, _⟩ | htext
    · rw [htext]
      apply isSolid_cons (by decide)
    · rw [htext]
      apply isSolid_cons (by decide)

theorem isSolid_layoutBrackets (p : Page) (level : Int) (parts : List Block)
    : IsSolid (layoutBrackets p level parts).text := by
  unfold layoutBrackets
  dsimp only
  split
  · rw [Block.text_enclose]
    apply isSolid_cons (by decide)
  · rw [Block.text_enclose]
    apply isSolid_cons (by decide)

theorem isSolid_quoted (s : List Char) : IsSolid (quoted s) := by
  apply isSolid_cons (by decide)

theorem isSolid_of_spelled {text : List Char} (hne : text ≠ [])
    (h : ∀ c ∈ text, Binary64.isSpelling c = true) : IsSolid text := by
  obtain ⟨c, rest, rfl⟩ := List.exists_cons_of_ne_nil hne
  have hc : Binary64.isSpelling c = true := h c (List.mem_cons_self ..)
  apply isSolid_cons
  constructor
  · rw [← Bool.not_eq_true]
    intro hblank
    rw [isBlank, Bool.or_eq_true, decide_eq_true_eq, decide_eq_true_eq] at hblank
    rcases hblank with rfl | rfl
    · contradiction
    · contradiction
  · rintro rfl
    contradiction

theorem isSolid_toString (n : Int) : IsSolid (toString n).toList := by
  obtain ⟨hne, _⟩ := isAtom_iff.1 (isAtom_toString n)
  apply isSolid_of_spelled (mt String.toList_eq_nil_iff.1 hne)
  intro c hc
  rcases mem_numeral hc with hdigit | rfl
  · rw [Binary64.isSpelling, hdigit]
    rfl
  · rfl

end Arbor.SExpr
