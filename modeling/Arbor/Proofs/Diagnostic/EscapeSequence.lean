import Arbor.Diagnostic
import Mathlib.Data.List.Forall2
import Mathlib.Data.List.TakeWhile

/-!
This module is about texts with escape sequences. Sequences are found from left to right, so what
stands at the end of one text may become part of a sequence with what follows it, and texts may be
stripped one by one only where they are parted (`strip_append`). Main statements: painted or not, a
text leaves the same behind (`strip_paint`), and paint only puts sequences in (`inserted_paint`).
-/

namespace Arbor

namespace Ansi

def isParameter (c : Char) : Bool :=
  c.isDigit || c = ';'

def IsSequence (s : List Char) : Prop :=
  ∃ parameters, (∀ c ∈ parameters, isParameter c = true)
    ∧ s = '\x1b' :: '[' :: (parameters ++ ['m'])

theorem IsSequence.opens {s : List Char} (h : IsSequence s) (rest : List Char)
    : "\x1b[".toList <+: s ++ rest := by
  obtain ⟨parameters, _, rfl⟩ := h
  exact ⟨parameters ++ 'm' :: rest, by simp⟩

def afterSequence? : List Char → Option (List Char)
  | '\x1b' :: '[' :: text =>
    match text.dropWhile isParameter with
    | 'm' :: rest => some rest
    | _ => none
  | _ => none

theorem afterSequence?_eq_some {text rest : List Char}
    : afterSequence? text = some rest ↔ ∃ s, IsSequence s ∧ text = s ++ rest := by
  constructor
  · intro h
    unfold afterSequence? at h
    split at h
    next body =>
      split at h
      next after hbody =>
        cases h
        refine ⟨_, ⟨body.takeWhile isParameter, fun c => List.mem_takeWhile_imp, rfl⟩, ?_⟩
        have hparts := List.takeWhile_append_dropWhile (p := isParameter) (l := body)
        rw [hbody] at hparts
        simp [hparts]
      next => contradiction
    next => contradiction
  · rintro ⟨_, ⟨parameters, hparameters, rfl⟩, rfl⟩
    have hbody : (parameters ++ 'm' :: rest).dropWhile isParameter = 'm' :: rest := by
      rw [List.dropWhile_append_of_pos hparameters]
      rfl
    simp [afterSequence?, hbody]

theorem length_afterSequence? {text rest : List Char} (h : afterSequence? text = some rest)
    : rest.length < text.length := by
  obtain ⟨_, ⟨parameters, _, rfl⟩, rfl⟩ := afterSequence?_eq_some.1 h
  simp only [List.cons_append, List.append_assoc, List.length_cons, List.length_append]
  omega

/--
A text without its escape sequences, found from left to right. What is left is not looked through
again.
-/
def strip : List Char → List Char
  | [] => []
  | c :: text =>
    match _h : afterSequence? (c :: text) with
    | some rest => strip rest
    | none => c :: strip text
termination_by text => text.length
decreasing_by
  · exact length_afterSequence? _h
  · simp

theorem strip_nil : strip [] = [] := by
  unfold strip
  rfl

theorem strip_sequence {s : List Char} (h : IsSequence s) (text : List Char)
    : strip (s ++ text) = strip text := by
  have hafter : afterSequence? (s ++ text) = some text := afterSequence?_eq_some.2 ⟨s, h, rfl⟩
  obtain ⟨parameters, _, rfl⟩ := h
  rw [List.cons_append] at hafter ⊢
  rw [strip]
  split
  next rest hrest =>
    rw [hafter] at hrest
    cases hrest
    rfl
  next hnone =>
    rw [hafter] at hnone
    contradiction

theorem strip_cons {c : Char} {text : List Char} (h : afterSequence? (c :: text) = none)
    : strip (c :: text) = c :: strip text := by
  rw [strip]
  split
  next hsome =>
    rw [h] at hsome
    contradiction
  next => rfl

/-- No escape sequence lies across the border between two texts. -/
def Parted (left right : List Char) : Prop :=
  ∀ tail head, tail <:+ left → head <+: right → tail ≠ [] → head ≠ [] → ¬ IsSequence (tail ++ head)

namespace Parted

theorem of_suffix {left rest right : List Char} (h : Parted left right) (hrest : rest <:+ left)
    : Parted rest right :=
  fun tail head htail => h tail head (htail.trans hrest)

theorem nil_right (left : List Char) : Parted left [] :=
  fun _ _ _ hhead _ hne => absurd (List.prefix_nil.1 hhead) hne

theorem of_notMem {left : List Char} (h : '\x1b' ∉ left) (right : List Char)
    : Parted left right := by
  rintro tail head htail _ hne _ ⟨parameters, _, heq⟩
  obtain ⟨c, tail, rfl⟩ := List.exists_cons_of_ne_nil hne
  rw [List.cons_append, List.cons.injEq] at heq
  apply h
  rw [← heq.1]
  exact htail.subset (List.mem_cons_self ..)

theorem of_head (left : List Char) {c : Char} (right : List Char)
    (h : c ≠ '[' ∧ isParameter c = false ∧ c ≠ 'm') : Parted left (c :: right) := by
  rintro tail head _ hhead hne hne' ⟨parameters, hparameters, heq⟩
  obtain ⟨d, tail, rfl⟩ := List.exists_cons_of_ne_nil hne
  obtain ⟨e, head, rfl⟩ := List.exists_cons_of_ne_nil hne'
  have hc : e = c := (List.cons_prefix_cons.1 hhead).1
  subst hc
  rw [List.cons_append, List.cons.injEq] at heq
  have hmem : e ∈ '[' :: (parameters ++ ['m']) := by
    rw [← heq.2]
    exact List.mem_append_right _ (List.mem_cons_self ..)
  rw [List.mem_cons, List.mem_append, List.mem_singleton] at hmem
  obtain ⟨hbracket, hparameter, hletter⟩ := h
  rcases hmem with heq | hmem | heq
  · exact hbracket heq
  · rw [hparameters e hmem] at hparameter
    contradiction
  · exact hletter heq

theorem of_sequence (left : List Char) {s : List Char} (h : IsSequence s) (rest : List Char)
    : Parted left (s ++ rest) := by
  obtain ⟨parameters, _, rfl⟩ := h
  exact of_head left _ (by decide)

end Parted

theorem afterSequence?_append {left right : List Char} (h : Parted left right) (hne : left ≠ [])
    (hleft : afterSequence? left = none) : afterSequence? (left ++ right) = none := by
  rw [Option.eq_none_iff_forall_ne_some]
  intro rest hrest
  obtain ⟨s, hs, heq⟩ := afterSequence?_eq_some.1 hrest
  have hwhole : ∀ text, left ≠ s ++ text := by
    intro text heq
    rw [afterSequence?_eq_some.2 ⟨s, hs, heq⟩] at hleft
    contradiction
  -- The sequence lies across the border, or it ends on the left and was found there.
  rcases List.append_eq_append_iff.1 heq with ⟨head, rfl, rfl⟩ | ⟨text, heq, _⟩
  · refine h left head (List.suffix_refl left) (List.prefix_append head rest) hne ?_ hs
    rintro rfl
    exact hwhole [] (by simp)
  · exact hwhole text heq

theorem strip_append {left right : List Char} (h : Parted left right)
    : strip (left ++ right) = strip left ++ strip right := by
  fun_induction strip left with
  | case1 => rfl
  | case2 c text rest hrest ih =>
    obtain ⟨s, hs, heq⟩ := afterSequence?_eq_some.1 hrest
    rw [heq, List.append_assoc, strip_sequence hs]
    apply ih
    exact h.of_suffix ⟨s, heq.symm⟩
  | case3 c text hnone ih =>
    have hafter := afterSequence?_append h (List.cons_ne_nil c text) hnone
    rw [List.cons_append] at hafter ⊢
    rw [strip_cons hafter, ih (h.of_suffix (List.suffix_cons c text))]
    rfl

theorem strip_eq_self {text : List Char} (h : '\x1b' ∉ text) : strip text = text := by
  induction text with
  | nil => exact strip_nil
  | cons c text ih =>
    rw [List.mem_cons, not_or] at h
    have hnone : afterSequence? (c :: text) = none := by
      unfold afterSequence?
      split
      next heq =>
        cases heq
        exact absurd rfl h.1
      next => rfl
    rw [strip_cons hnone, ih h.2]

theorem strip_intercalate (lines : List (List Char))
    : strip (['\n'].intercalate lines) = ['\n'].intercalate (lines.map strip) := by
  induction lines with
  | nil => exact strip_nil
  | cons line rest ih =>
    cases rest with
    | nil => simp
    | cons next rest =>
      have hbreak : strip ['\n'] = ['\n'] := strip_eq_self (by decide)
      have hline : ∀ text, Parted line (['\n'] ++ text) := fun text =>
        Parted.of_head line text (by decide)
      rw [List.map_cons, List.map_cons, List.intercalate_cons_cons, List.intercalate_cons_cons,
        List.append_assoc, strip_append (hline _), strip_append (Parted.of_notMem (by decide) _),
        hbreak, ih, List.map_cons, List.append_assoc]

theorem isSequence_code (style : Style) : IsSequence style.code := by
  cases style with
  | bold => exact ⟨['1'], by simp [isParameter], by simp [Style.code]⟩
  | red => exact ⟨['3', '1'], by simp [isParameter], by simp [Style.code]⟩
  | blue => exact ⟨['3', '4'], by simp [isParameter], by simp [Style.code]⟩

theorem isSequence_reset : IsSequence reset :=
  ⟨['0'], by simp [isParameter], by simp [reset]⟩

theorem paint_cons (style : Style) (styles : List Style) (text : List Char)
    : paint true (style :: styles) text =
        style.code ++ (styles.flatMap Style.code ++ text ++ reset) := by
  simp [paint]

theorem strip_codes (styles : List Style) (text : List Char)
    : strip (styles.flatMap Style.code ++ text) = strip text := by
  induction styles with
  | nil => rfl
  | cons style rest ih =>
    rw [List.flatMap_cons, List.append_assoc, strip_sequence (isSequence_code style), ih]

theorem strip_paint (colored : Bool) (styles : List Style) {text rest : List Char}
    (h : Parted text rest) : strip (paint colored styles text ++ rest) = strip text ++ strip rest := by
  unfold paint
  split
  · rw [List.append_assoc, List.append_assoc, strip_codes,
      strip_append (Parted.of_sequence text isSequence_reset rest), strip_sequence isSequence_reset]
  · exact strip_append h

inductive Inserted : List Char → List Char → Prop where
  | nil : Inserted [] []
  | keep (c : Char) {plain colored : List Char} (h : Inserted plain colored) :
      Inserted (c :: plain) (c :: colored)
  | sequence {s plain colored : List Char} (hs : IsSequence s) (h : Inserted plain colored) :
      Inserted plain (s ++ colored)

namespace Inserted

theorem refl (text : List Char) : Inserted text text := by
  induction text with
  | nil => exact .nil
  | cons c text ih => exact .keep c ih

theorem append {plain colored plain' colored' : List Char} (h : Inserted plain colored)
    (h' : Inserted plain' colored') : Inserted (plain ++ plain') (colored ++ colored') := by
  induction h with
  | nil => exact h'
  | keep c _ ih => exact .keep c ih
  | sequence hs _ ih =>
    rw [List.append_assoc]
    exact .sequence hs ih

theorem intercalate (separator : List Char) {plain colored : List (List Char)}
    (h : List.Forall₂ Inserted plain colored)
    : Inserted (separator.intercalate plain) (separator.intercalate colored) := by
  induction h with
  | nil => exact .nil
  | cons hfirst hrest ih =>
    cases hrest with
    | nil => simpa using hfirst
    | cons _ _ =>
      rw [List.intercalate_cons_cons, List.intercalate_cons_cons]
      exact (hfirst.append (refl separator)).append ih

end Inserted

theorem inserted_codes (styles : List Style) : Inserted [] (styles.flatMap Style.code) := by
  induction styles with
  | nil => exact .nil
  | cons style rest ih => exact .sequence (isSequence_code style) ih

theorem inserted_paint (colored : Bool) (styles : List Style) (text : List Char)
    : Inserted text (paint colored styles text) := by
  have hreset : Inserted [] reset := by
    rw [← List.append_nil reset]
    exact .sequence isSequence_reset .nil
  unfold paint
  split
  · have hpainted := ((inserted_codes styles).append (Inserted.refl text)).append hreset
    rwa [List.nil_append, List.append_nil] at hpainted
  · exact Inserted.refl text

structure Colors (plain colored : List Char) : Prop where
  inserted : Inserted plain colored
  strip_eq : strip colored = strip plain

theorem Colors.lines {plain colored : List (List Char)} (h : List.Forall₂ Colors plain colored)
    : Colors (['\n'].intercalate plain) (['\n'].intercalate colored) where
  inserted := Inserted.intercalate ['\n'] (h.imp fun _ _ h => h.inserted)
  strip_eq := by
    have hstrip : colored.map strip = plain.map strip := by
      induction h with
      | nil => rfl
      | cons hfirst _ ih => rw [List.map_cons, List.map_cons, hfirst.strip_eq, ih]
    rw [strip_intercalate, strip_intercalate, hstrip]

end Ansi

end Arbor
