import Mathlib.Algebra.Order.Group.Int
import Mathlib.Algebra.Order.Group.Unbundled.Basic
import Mathlib.Data.List.Perm.Basic
import Mathlib.Data.Prod.Lex
import Mathlib.Data.String.Basic
import Arbor.Census
import Arbor.Proofs.Value.Parts

/-!
This module is about the report on a census. Its lines are sorted by a key that tells all kinds
apart, so it does not matter in which order the kinds were first seen. Main statement: the report
depends on the counts only, and its columns are aligned (`report_canonical`).
-/

namespace Arbor.Census

def rank (entry : String × Int) : Int ×ₗ String :=
  toLex (-entry.2, entry.1)

theorem rank_injective : Function.Injective rank := by
  intro a b h
  obtain ⟨hcount, hkind⟩ := Prod.mk.inj (toLex_inj.1 h)
  apply Prod.ext
  · apply hkind
  · apply neg_inj.1 hcount

theorem reportLE_iff {a b : String × Int} : reportLE a b = true ↔ rank a ≤ rank b := by
  simp only [reportLE, rank, Prod.Lex.toLex_le_toLex, Bool.or_eq_true, Bool.and_eq_true,
    decide_eq_true_eq, beq_iff_eq, Bool.not_eq_true', decide_eq_false_iff_not, not_lt,
    neg_lt_neg_iff, neg_inj]

theorem rank_lt_iff {a b : String × Int}
    : rank a < rank b ↔ b.2 < a.2 ∨ (a.2 = b.2 ∧ a.1 < b.1) := by
  simp only [rank, Prod.Lex.toLex_lt_toLex, neg_lt_neg_iff, neg_inj]

section Sorted

variable {kinds kinds' : List (String × Int)}

theorem pairwise_sorted (kinds : List (String × Int))
    : (kinds.mergeSort reportLE).Pairwise fun a b => rank a ≤ rank b := by
  have htrans : ∀ a b c, reportLE a b = true → reportLE b c = true → reportLE a c = true := by
    intro a b c
    rw [reportLE_iff, reportLE_iff, reportLE_iff]
    apply le_trans
  have htotal : ∀ a b, (reportLE a b || reportLE b a) = true := by
    intro a b
    rw [Bool.or_eq_true, reportLE_iff, reportLE_iff]
    apply le_total
  apply (List.pairwise_mergeSort htrans htotal kinds).imp
  intro a b h
  apply reportLE_iff.1 h

theorem pairwise_sorted_lt (hnodup : (kinds.map (·.1)).Nodup)
    : (kinds.mergeSort reportLE).Pairwise fun a b => rank a < rank b := by
  have hdistinct : (kinds.mergeSort reportLE).Nodup :=
    (List.mergeSort_perm _ _).nodup_iff.2 hnodup.of_map
  apply ((pairwise_sorted kinds).and hdistinct).imp
  rintro a b ⟨hle, hne⟩
  apply lt_of_le_of_ne hle
  apply rank_injective.ne hne

theorem sorted_perm (h : kinds.Perm kinds')
    : kinds.mergeSort reportLE = kinds'.mergeSort reportLE := by
  have hperm : (kinds.mergeSort reportLE).Perm (kinds'.mergeSort reportLE) :=
    (List.mergeSort_perm _ _).trans (h.trans (List.mergeSort_perm _ _).symm)
  apply hperm.eq_of_pairwise ?_ (pairwise_sorted kinds) (pairwise_sorted kinds')
  intro a b _ _ hab hba
  apply rank_injective
  apply le_antisymm hab hba

end Sorted

theorem perm_of_lookup_eq {kinds kinds' : List (String × Int)} (hnodup : (kinds.map (·.1)).Nodup)
    (hnodup' : (kinds'.map (·.1)).Nodup) (h : ∀ kind, kinds.lookup kind = kinds'.lookup kind)
    : kinds.Perm kinds' := by
  have hmem : ∀ {entries : List (String × Int)}, (entries.map (·.1)).Nodup → ∀ entry,
      entry ∈ entries ↔ entries.lookup entry.1 = some entry.2 := by
    intro entries hentries entry
    constructor
    · intro hentry
      apply lookup_of_nodup hentries hentry
    · intro hlookup
      obtain ⟨before, after, hsplit, _⟩ := List.lookup_eq_some_iff.1 hlookup
      rw [hsplit]
      apply List.mem_append_right
      apply List.mem_cons_self
  rw [List.perm_ext_iff_of_nodup hnodup.of_map hnodup'.of_map]
  intro entry
  rw [hmem hnodup, hmem hnodup', h]

def longest (kinds : List (String × Int)) : Nat :=
  (kinds.map (·.1.length)).max?.getD 0

theorem longest_eq_foldl (kinds : List (String × Int))
    : longest kinds = (kinds.map (·.1.length)).foldl max 0 := by
  unfold longest
  cases kinds with
  | nil => rfl
  | cons entry rest =>
    rw [List.map_cons, List.max?_cons', Option.getD_some, List.foldl_cons, Nat.zero_max]

theorem kindWidth_eq (kinds : List (String × Int)) : kindWidth kinds = longest kinds := by
  rw [longest_eq_foldl, List.foldl_map]
  rfl

theorem length_le_longest {kinds : List (String × Int)} {entry : String × Int} (h : entry ∈ kinds)
    : entry.1.length ≤ longest kinds := by
  have hmem : entry.1.length ∈ kinds.map (·.1.length) := List.mem_map_of_mem h
  cases hmax : (kinds.map (·.1.length)).max? with
  | none =>
    rw [List.max?_eq_none_iff] at hmax
    rw [hmax] at hmem
    contradiction
  | some m =>
    rw [longest, hmax]
    apply (List.max?_eq_some_iff.1 hmax).2 _ hmem

theorem longest_perm {kinds kinds' : List (String × Int)} (h : kinds.Perm kinds')
    : longest kinds = longest kinds' := by
  rw [longest_eq_foldl, longest_eq_foldl]
  apply (h.map _).foldl_op_eq

/--
A line of a report: a margin, the kind, and the count, which starts two places behind the column of
the kinds.
-/
def IsLine (width : Nat) (entry : String × Int) (line : String) : Prop :=
  ∃ gap, line.toList = [' ', ' '] ++ entry.1.toList ++ gap ++ (toString entry.2).toList
    ∧ (∀ c ∈ gap, c = ' ')
    ∧ ([' ', ' '] ++ entry.1.toList ++ gap).length = 2 + width + 2

theorem isLine_kindLine {width : Nat} {entry : String × Int} (h : entry.1.length ≤ width)
    : IsLine width entry (kindLine width entry) := by
  refine ⟨List.replicate (width - entry.1.length) ' ' ++ [' ', ' '], ?_, ?_, ?_⟩
  · simp [kindLine, pad, ToString.toString]
  · intro c hc
    rcases List.mem_append.1 hc with hc | hc
    · apply List.eq_of_mem_replicate hc
    · simpa using hc
  · have hlength : entry.1.toList.length = entry.1.length := String.length_toList
    simp only [List.length_append, List.length_replicate, hlength, List.length_cons,
      List.length_nil]
    omega

inductive IsReport (c : Census) : String → Prop
  | mk {entries : List (String × Int)} {lines : List String} (all : entries.Perm c.kinds)
      (once : (entries.map (·.1)).Nodup)
      (sorted : entries.Pairwise fun a b => b.2 < a.2 ∨ (a.2 = b.2 ∧ a.1 < b.1))
      (written : List.Forall₂ (IsLine (longest c.kinds)) entries lines) :
      IsReport c (String.intercalate "\n"
        (s!"nodes: {c.nodeCount}" :: s!"max depth: {c.maxDepth}" :: lines))

theorem isReport {c : Census} (distinct : (c.kinds.map (·.1)).Nodup) : c.IsReport c.report := by
  have hsorted : (c.kinds.mergeSort reportLE).Perm c.kinds := List.mergeSort_perm _ _
  rw [report, kindWidth_eq]
  refine .mk hsorted ?_ ?_ ?_
  · apply (hsorted.map _).nodup_iff.2 distinct
  · apply (pairwise_sorted_lt distinct).imp
    intro a b h
    apply rank_lt_iff.1 h
  · rw [List.forall₂_map_right_iff, List.forall₂_same]
    intro entry hentry
    apply isLine_kindLine
    apply length_le_longest (hsorted.mem_iff.1 hentry)

/--
The report on a census in which no kind has two entries. Two censuses with the same numbers have
the same report, in whatever order they have seen the kinds. Each kind has one line; higher counts
come first, and kinds with equal counts in the order of their characters. All counts start in the
column that is two places behind the longest kind.
-/
theorem report_canonical (c c' : Census) (distinct : (c.kinds.map (·.1)).Nodup)
    (distinct' : (c'.kinds.map (·.1)).Nodup) (hcount : c.nodeCount = c'.nodeCount)
    (hdepth : c.maxDepth = c'.maxDepth)
    (hkinds : ∀ kind, c.kinds.lookup kind = c'.kinds.lookup kind)
    : c.report = c'.report
      ∧ ∃ entries lines,
        c.report = String.intercalate "\n"
          (s!"nodes: {c.nodeCount}" :: s!"max depth: {c.maxDepth}" :: lines)
        ∧ entries.Perm c.kinds
        ∧ (entries.map (·.1)).Nodup
        ∧ (entries.Pairwise fun a b => b.2 < a.2 ∨ (a.2 = b.2 ∧ a.1 < b.1))
        ∧ List.Forall₂ (IsLine (longest c.kinds)) entries lines := by
  have hperm := perm_of_lookup_eq distinct distinct' hkinds
  constructor
  · rw [report, report, hcount, hdepth, kindWidth_eq, kindWidth_eq, sorted_perm hperm,
      longest_perm hperm]
  · generalize hreport : c.report = text
    have hwritten := isReport distinct
    rw [hreport] at hwritten
    cases hwritten with
    | mk all once sorted written => exact ⟨_, _, rfl, all, once, sorted, written⟩

def sampleKinds : List (String × Int) :=
  [("Name", 2), ("If", 2), ("Literal", 3)]

theorem report_canonical_sample
    : (sampleKinds.map (·.1)).Nodup
      ∧ (∀ kind, sampleKinds.lookup kind = sampleKinds.reverse.lookup kind)
      ∧ report ⟨7, 2, sampleKinds⟩ =
        "nodes: 7\nmax depth: 2\n  Literal  3\n  If       2\n  Name     2"
      ∧ report ⟨7, 2, sampleKinds⟩ = report ⟨7, 2, sampleKinds.reverse⟩ := by
  have hdistinct : (sampleKinds.map (·.1)).Nodup := by decide
  have hdistinct' : (sampleKinds.reverse.map (·.1)).Nodup := by decide
  have hlookup : ∀ kind, sampleKinds.lookup kind = sampleKinds.reverse.lookup kind := by
    intro kind
    by_cases hname : kind = "Name"
    · rw [hname]
      decide
    · by_cases hif : kind = "If"
      · rw [hif]
        decide
      · simp [sampleKinds, List.lookup_cons, beq_false_of_ne hname, beq_false_of_ne hif]
  have hperm : sampleKinds.Perm [("Literal", 3), ("If", 2), ("Name", 2)] := by decide
  have hsorted : sampleKinds.mergeSort reportLE = [("Literal", 3), ("If", 2), ("Name", 2)] := by
    rw [sorted_perm hperm]
    exact List.mergeSort_of_pairwise (by decide)
  refine ⟨hdistinct, hlookup, ?_, ?_⟩
  · rw [report, hsorted]
    decide +kernel
  · exact (report_canonical ⟨7, 2, sampleKinds⟩ ⟨7, 2, sampleKinds.reverse⟩ hdistinct hdistinct' rfl
      rfl hlookup).1

end Arbor.Census
