import Arbor.Proofs.Number.Spelling
import Arbor.Proofs.SExpr.Reader

/-!
This module is about expressions that can be told from their layouts: those whose symbols are atoms
and do not look like integers. What is read from a layout has all atoms as symbols; the numerals
among them are integers. Main statement: one reader recovers such an expression from every layout of
it, so no two of them have a layout in common (`readBack_pretty`).
-/

namespace Arbor.SExpr

def isNumeral (name : String) : Bool :=
  match name.toInt? with
  | some n => toString n = name
  | none => false

theorem isNumeral_iff {name : String} : isNumeral name = true ↔ ∃ n : Int, toString n = name := by
  unfold isNumeral
  constructor
  · intro h
    split at h
    next n _ => exact ⟨n, of_decide_eq_true h⟩
    next => contradiction
  · rintro ⟨n, rfl⟩
    rw [toInt?_toString]
    simp

theorem isNumeral_eq_false {name : String} {c : Char} (hc : c ∈ name.toList)
    (h : ¬ (c.isDigit = true ∨ c = '-')) : isNumeral name = false := by
  rw [← Bool.not_eq_true, isNumeral_iff]
  rintro ⟨n, rfl⟩
  apply h
  apply mem_numeral hc

def ofAtom (name : String) : SExpr :=
  if isNumeral name then .int (name.toInt?.getD 0) else .symbol name

theorem ofAtom_toString (n : Int) : ofAtom (toString n) = .int n := by
  unfold ofAtom
  rw [if_pos (isNumeral_iff.2 ⟨n, rfl⟩), toInt?_toString]
  rfl

theorem ofAtom_symbol {name : String} (h : isNumeral name = false) : ofAtom name = .symbol name := by
  unfold ofAtom
  rw [if_neg (by simp [h])]

mutual

def numbered : SExpr → SExpr
  | .symbol name => ofAtom name
  | .list items => .list (numberedAll items)
  | .brackets items => .brackets (numberedAll items)
  | e => e

def numberedAll : List SExpr → List SExpr
  | [] => []
  | item :: rest => numbered item :: numberedAll rest

end

mutual

def isExact : SExpr → Bool
  | .symbol name => isAtom name && !isNumeral name
  | .str _ | .int _ => true
  | .list items | .brackets items => areExact items
  | .float _ | .bool _ | .verbatim _ => false

def areExact : List SExpr → Bool
  | [] => true
  | item :: rest => isExact item && areExact rest

end

mutual

theorem isLegible_of_isExact : (e : SExpr) → e.isExact = true → e.isLegible = true
  | .symbol name, h => by
    rw [isExact, Bool.and_eq_true] at h
    exact h.1
  | .str _, _ | .int _, _ => rfl
  | .list items, h | .brackets items, h => areLegible_of_areExact items h
  | .float _, h | .bool _, h | .verbatim _, h => Bool.noConfusion h

theorem areLegible_of_areExact
    : (items : List SExpr) → areExact items = true → areLegible items = true
  | [], _ => rfl
  | item :: rest, h => by
    rw [areExact, Bool.and_eq_true] at h
    rw [areLegible, isLegible_of_isExact item h.1, areLegible_of_areExact rest h.2]
    rfl

end

mutual

theorem numbered_spelled : (e : SExpr) → e.isExact = true → e.spelled.numbered = e
  | .symbol name, h => by
    rw [isExact, Bool.and_eq_true, Bool.not_eq_true'] at h
    exact ofAtom_symbol h.2
  | .str _, _ => rfl
  | .int n, _ => ofAtom_toString n
  | .list items, h | .brackets items, h => by
    rw [spelled, numbered, numberedAll_spelledAll items h]
  | .float _, h | .bool _, h | .verbatim _, h => Bool.noConfusion h

theorem numberedAll_spelledAll
    : (items : List SExpr) → areExact items = true → numberedAll (spelledAll items) = items
  | [], _ => rfl
  | item :: rest, h => by
    rw [areExact, Bool.and_eq_true] at h
    rw [spelledAll, numberedAll, numbered_spelled item h.1, numberedAll_spelledAll rest h.2]

end

def readBack (text : String) : Option SExpr :=
  (read text.toList).map numbered

theorem readBack_layout {p : Page} (hpage : ∀ c ∈ p.indentText, c = ' ') (level : Int) {e : SExpr}
    (h : e.isExact = true) : readBack (e.pretty p level) = some e := by
  have hblank : ∀ c ∈ p.indentText, isBlank c = true := by
    intro c hc
    rw [hpage c hc]
    rfl
  rw [readBack, pretty, String.toList_ofList, read_layout hblank level (isLegible_of_isExact e h),
    Option.map_some, numbered_spelled e h]

/--
The reader recovers an expression from its layout on any page whose indentation is made of spaces,
at any level. So it reads the same from all layouts of an expression, and layouts of different
expressions are different.
-/
theorem readBack_pretty (e e' : SExpr) (he : e.isExact = true) (he' : e'.isExact = true)
    (p p' : Page) (hp : ∀ c ∈ p.indentText, c = ' ') (hp' : ∀ c ∈ p'.indentText, c = ' ')
    (level level' : Int)
    : readBack (e.pretty p level) = some e
      ∧ readBack (e.pretty p' level') = readBack (e.pretty p level)
      ∧ (e ≠ e' → e.pretty p level ≠ e'.pretty p' level') := by
  have hread := readBack_layout hp level he
  refine ⟨hread, ?_, ?_⟩
  · rw [hread]
    apply readBack_layout hp' level' he
  · intro hne hsame
    rw [hsame, readBack_layout hp' level' he'] at hread
    apply hne
    exact (Option.some.inj hread).symm

def sampleCall (last : SExpr) : SExpr :=
  .list [.symbol "Call", .keyword "name", .str "a\n\")] \\", .keyword "arguments",
    .brackets [.int (-5), .list [], .brackets [.symbol "nil"], last]]

theorem isExact_sampleCall {last : SExpr} (h : last.isExact = true)
    : (sampleCall last).isExact = true := by
  have hcall : isNumeral "Call" = false := isNumeral_eq_false (c := 'C') (by decide) (by decide)
  have hname : isNumeral ":name" = false := isNumeral_eq_false (c := ':') (by decide) (by decide)
  have harguments : isNumeral ":arguments" = false :=
    isNumeral_eq_false (c := ':') (by decide) (by decide)
  have hnil : isNumeral "nil" = false := isNumeral_eq_false (c := 'n') (by decide) (by decide)
  have hatoms : ["Call", ":name", ":arguments", "nil"].all isAtom = true := by decide
  simp_all [sampleCall, isExact, areExact, keyword]

theorem readBack_pretty_sample
    : (sampleCall (.int 7)).isExact = true
      ∧ (sampleCall (.str "7")).isExact = true
      ∧ (sampleCall (.int 7)).pretty { width := 10 } 1 =
        "(Call\n    :name \"a\n\\\")] \\\\\"\n    :arguments [-5\n      ()\n      [nil]\n      7]\n  )"
      ∧ readBack ((sampleCall (.int 7)).pretty { width := 10 } 1) = some (sampleCall (.int 7))
      ∧ (sampleCall (.int 7)).pretty { width := 10 } 1 ≠
        (sampleCall (.str "7")).pretty { indentText := [], width := 200 } 0 := by
  have hexact : (sampleCall (.int 7)).isExact = true := isExact_sampleCall rfl
  have hexact' : (sampleCall (.str "7")).isExact = true := isExact_sampleCall rfl
  obtain ⟨hread, _, hdiffer⟩ := readBack_pretty (sampleCall (.int 7)) (sampleCall (.str "7"))
    hexact hexact' { width := 10 } { indentText := [], width := 200 } (by simp) (by simp) 1 0
  refine ⟨hexact, hexact', by decide +kernel, hread, hdiffer ?_⟩
  simp [sampleCall]

end Arbor.SExpr
