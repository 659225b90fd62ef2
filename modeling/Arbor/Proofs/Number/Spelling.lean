import Mathlib
import Arbor.Number.Shortest

/-!
This module is about the texts of numbers. The text of an integer is read back as that integer; no
part of the library that is smaller than the whole has this. Main statement: the text of a double is
not empty, and made of digits, signs, points and a few letters (`text_spelled`).
-/

namespace Arbor

theorem toInt?_toString (n : Int) : (toString n).toInt? = some n := by
  rw [Int.toString_eq_repr, Int.toInt?_repr]

namespace Binary64

def isSpelling (c : Char) : Bool :=
  c.isDigit || "-+.einfa".toList.contains c

theorem isSpelling_toDigits (n : Nat) : ∀ c ∈ Nat.toDigits 10 n, isSpelling c = true := by
  intro c hc
  rw [isSpelling, Nat.isDigit_of_mem_toDigits (by decide) (by decide) hc]
  rfl

theorem isSpelling_zeros (n : Nat) : ∀ c ∈ List.replicate n '0', isSpelling c = true := by
  intro c hc
  rw [List.eq_of_mem_replicate hc]
  rfl

theorem isSpelling_shortest (m : Nat) (q : Int)
    : ∀ c ∈ (shortest m q).digits, isSpelling c = true := by
  intro c hc
  have hdropped : (shortest m q).digits ⊆ Nat.toDigits 10
      ((interval m q).search (interval m q).exponent 17).1 := by
    intro c hc
    apply List.mem_reverse.1
    apply (List.dropWhile_sublist _).subset
    apply List.mem_reverse.1 hc
  apply isSpelling_toDigits _ c (hdropped hc)

namespace Decimal

variable {d : Decimal} (h : ∀ c ∈ d.digits, isSpelling c = true)

include h

theorem isSpelling_take (n : Nat) : ∀ c ∈ d.digits.take n, isSpelling c = true :=
  fun c hc => h c (List.mem_of_mem_take hc)

theorem isSpelling_drop (n : Nat) : ∀ c ∈ d.digits.drop n, isSpelling c = true :=
  fun c hc => h c (List.mem_of_mem_drop hc)

theorem isSpelling_positional : ∀ c ∈ d.positional, isSpelling c = true := by
  unfold positional
  split
  · rw [List.forall_mem_cons, List.forall_mem_cons, List.forall_mem_append]
    exact ⟨rfl, rfl, isSpelling_zeros _, h⟩
  · dsimp only
    rw [List.forall_mem_append, List.forall_mem_append, List.forall_mem_cons]
    refine ⟨⟨isSpelling_take h _, isSpelling_zeros _⟩, rfl, ?_⟩
    split
    · simp [isSpelling]
    · exact isSpelling_drop h _

theorem isSpelling_scientific : ∀ c ∈ d.scientific, isSpelling c = true := by
  unfold scientific exponentText
  dsimp only
  rw [List.forall_mem_append, List.forall_mem_append, List.forall_mem_cons, List.forall_mem_cons,
    List.forall_mem_append]
  refine ⟨⟨isSpelling_take h 1, ?_⟩, rfl, ?_, isSpelling_zeros _, isSpelling_toDigits _⟩
  · split
    · simp
    · rw [List.forall_mem_cons]
      exact ⟨rfl, isSpelling_drop h 1⟩
  · split <;> rfl

theorem text_spelled : d.text ≠ [] ∧ ∀ c ∈ d.text, isSpelling c = true := by
  unfold text
  split
  · refine ⟨?_, isSpelling_positional h⟩
    unfold positional
    split <;> simp
  · refine ⟨?_, isSpelling_scientific h⟩
    simp [scientific, exponentText]

end Decimal

theorem text_spelled (x : Binary64)
    : x.text.toList ≠ [] ∧ ∀ c ∈ x.text.toList, isSpelling c = true := by
  unfold text
  cases x.classify with
  | nan => simp [isSpelling]
  | infinite negative => cases negative <;> simp [isSpelling]
  | finite negative m q =>
    have hbody : (if m = 0 then ['0', '.', '0'] else (shortest m q).text) ≠ []
        ∧ ∀ c ∈ if m = 0 then ['0', '.', '0'] else (shortest m q).text, isSpelling c = true := by
      split
      · simp [isSpelling]
      · exact Decimal.text_spelled (isSpelling_shortest m q)
    dsimp only
    rw [String.toList_ofList, List.forall_mem_append]
    refine ⟨?_, ?_, hbody.2⟩
    · intro hnil
      exact hbody.1 (List.append_eq_nil_iff.1 hnil).2
    · cases negative <;> simp [isSpelling]

end Binary64

end Arbor
