import Arbor.ChildRule
import Arbor.Proofs.Dump.Form
import Arbor.Script

/-!
This module is about what a dump leaves out. A strategy that lists some of the children of a node
leaves the others unvisited, and a form in their place says so; when all children are visited there
is no such form. Main statement: `dump_eq_form`.
-/

namespace Arbor

namespace SExpr

inductive Contains (part : SExpr) : SExpr → Prop where
  | self : Contains part part
  | list {items : List SExpr} {item : SExpr} (hitem : item ∈ items) (h : Contains part item) :
      Contains part (.list items)
  | brackets {items : List SExpr} {item : SExpr} (hitem : item ∈ items) (h : Contains part item) :
      Contains part (.brackets items)

end SExpr

namespace Dump

variable {ε : Type} {options : Options}

/-- Nothing is left out in a form. -/
def Complete (e : SExpr) : Prop :=
  ∀ kind, ¬ (unvisited kind).Contains e

theorem complete_list {items : List SExpr} (h : ∀ item ∈ items, Complete item)
    (hsecond : items[1]? ≠ some (.symbol "...")) : Complete (.list items) := by
  intro kind hcontains
  cases hcontains with
  | self => exact hsecond rfl
  | list hitem hcontains => exact h _ hitem kind hcontains

theorem complete_brackets {items : List SExpr} (h : ∀ item ∈ items, Complete item)
    : Complete (.brackets items) := by
  intro kind hcontains
  cases hcontains with
  | brackets hitem hcontains => exact h _ hitem kind hcontains

theorem complete_symbol (name : String) : Complete (.symbol name) := by
  intro kind hcontains
  cases hcontains

theorem scalarForm_ne_dots (v : Value) : scalarForm v ≠ .symbol "..." := by
  cases v with
  | bool b => cases b <;> simp [scalarForm]
  | record id form fields =>
    rw [scalarForm]
    split <;> simp
  | _ => simp [scalarForm]

theorem keyword_ne_dots (name : String) : SExpr.keyword name ≠ .symbol "..." := by
  intro h
  injection h with h
  have hchars := congrArg String.toList h
  rw [String.toList_append] at hchars
  injection hchars with hhead
  contradiction

mutual

theorem complete_scalarForm : (v : Value) → Complete (scalarForm v)
  | .list items | .tuple items => by
    rw [scalarForm]
    exact complete_brackets (complete_scalarForms items)
  | .record id form fields => by
    rw [scalarForm]
    split
    · apply complete_list (complete_memberForms fields)
      cases fields with
      | nil => simp [memberForms]
      | cons field rest =>
        rw [memberForms]
        simpa using scalarForm_ne_dots field.2
    · intro kind hcontains
      cases hcontains
  | .null | .bool _ | .int _ | .float _ | .str _ | .bytes _ | .keep | .symbol _ | .brackets _ => by
    intro kind hcontains
    simp only [scalarForm] at hcontains
    cases hcontains

theorem complete_scalarForms : (items : List Value) → ∀ e ∈ scalarForms items, Complete e
  | [] => by simp [scalarForms]
  | v :: rest => by
    rw [scalarForms, List.forall_mem_cons]
    exact ⟨complete_scalarForm v, complete_scalarForms rest⟩

theorem complete_memberForms : (fields : List (String × Value)) →
    ∀ e ∈ memberForms fields, Complete e
  | [] => by simp [memberForms]
  | (name, v) :: rest => by
    rw [memberForms, List.forall_mem_cons, List.forall_mem_cons]
    exact ⟨complete_symbol _, complete_scalarForm v, complete_memberForms rest⟩

end

theorem complete_locationForm (options : Options) (v : Value)
    : ∀ e ∈ locationForm options v, Complete e := by
  intro e he
  unfold locationForm at he
  split at he
  · split at he
    · rw [List.mem_pair] at he
      rcases he with rfl | rfl
      · exact complete_symbol _
      · intro kind hcontains
        cases hcontains
    · contradiction
  · contradiction

theorem second_ne_dots (options : Options) (keeps : Node → Edge → Bool) (n : Node) (f : Form)
    (fields : List (String × Value)) (v : Value)
    : (fieldForms options keeps n f fields ++ locationForm options v)[0]? ≠
        some (.symbol "...") := by
  induction fields with
  | nil =>
    rw [fieldForms, List.nil_append, locationForm]
    split
    · split
      · exact fun h => keyword_ne_dots _ (Option.some.inj h)
      · simp
    · simp
  | cons field rest ih =>
    rw [fieldForms_cons]
    split
    · exact fun h => keyword_ne_dots _ (Option.some.inj h)
    · exact ih

theorem complete_placed {v : Value} {own : SExpr} (h : Complete own)
    : Complete (placed true v own) := by
  unfold placed
  split
  · exact h
  · exact complete_scalarForm v

mutual

theorem complete_form : (v : Value) → Complete (form options keepsAll v)
  | .record id f fields => by
    rw [form]
    split
    next n _ =>
      apply complete_list
      · rw [List.cons_append, List.forall_mem_cons, List.forall_mem_append]
        exact ⟨complete_symbol n.kind, complete_fieldForms n f fields,
          complete_locationForm options n.value⟩
      · exact second_ne_dots options keepsAll n f fields n.value
    next => exact complete_scalarForm _
  | .list items => complete_scalarForm (.list items)
  | .tuple items => complete_scalarForm (.tuple items)
  | .null | .bool _ | .int _ | .float _ | .str _ | .bytes _ | .keep | .symbol _ | .brackets _ =>
    complete_scalarForm _

theorem complete_fieldForms (n : Node) (f : Form)
    : (fields : List (String × Value)) → ∀ e ∈ fieldForms options keepsAll n f fields, Complete e
  | [] => by simp [fieldForms]
  | (key, v) :: rest => by
    have hrest := complete_fieldForms n f rest
    have hplaced : Complete (placed true v (form options keepsAll v)) :=
      complete_placed (complete_form v)
    have hvalue : Complete (valueForm options keepsAll n key v) := by
      cases v with
      | list items | tuple items => exact complete_brackets (complete_itemForms n key 0 items)
      | _ => exact hplaced
    rw [fieldForms_cons]
    split
    · rw [List.forall_mem_cons, List.forall_mem_cons]
      exact ⟨complete_symbol _, hvalue, hrest⟩
    · exact hrest

theorem complete_itemForms (n : Node) (key : String)
    : (i : Nat) → (items : List Value) → ∀ e ∈ itemForms options keepsAll n key i items, Complete e
  | _, [] => by simp [itemForms]
  | i, v :: rest => by
    rw [itemForms, List.forall_mem_cons]
    exact ⟨complete_placed (complete_form v), complete_itemForms n key (i + 1) rest⟩

end

/--
A dump is the form of the tree, where a child is kept if the strategy lists it. When all children
are visited, no form stands for a node that was left out.
-/
theorem dump_eq_form [Described ε] (options : Options) (strategy : Strategy ε)
    (hselects : strategy.Selects) (root : Node)
    (hnames : root.value.everywhere Value.hasDistinctNames = true)
    : (dump options strategy root.value (hselects.descends.finiteFrom _)).1 =
        .ok (form options strategy.keeps root.value)
      ∧ ∃ whole,
        (dump options (.all : Strategy ε) root.value (Strategy.all_finiteFrom _)).1 = .ok whole
        ∧ ∀ kind, ¬ (unvisited kind).Contains whole :=
  ⟨dump_form options hselects _ hnames, _, dump_all options hnames,
    complete_form root.value⟩

def sampleShared : Value :=
  .record 1 .map [("type", .str "Identifier"), ("name", .str "x"), ("start", .int 0)]

def sampleCall : Node :=
  ⟨.record 2 .map
    [("type", .str "CallExpression"), ("callee", sampleShared),
      ("arguments", .list [sampleShared, .null,
        .record 3 .bag [("type", .str "Literal"), ("value", .int 1), ("_raw", .str "1")]]),
      ("extra", .record 4 .map [("raw", .str "x(x)")])],
    "CallExpression", rfl⟩

def sampleStrategy : Strategy Script.Failure :=
  (ChildRule.skipKinds ["Literal"]).strategy

theorem dump_eq_form_sample
    : sampleCall.value.everywhere Value.hasDistinctNames = true
      ∧ sampleStrategy.Selects
      ∧ (∃ finite, (dump {} sampleStrategy sampleCall.value finite).1 = .ok (.list
          [.symbol "CallExpression",
            .symbol ":callee", .list [.symbol "Identifier", .symbol ":name", .str "x"],
            .symbol ":arguments", .brackets
              [.list [.symbol "Identifier", .symbol ":name", .str "x"], .symbol "nil",
                unvisited "Literal"],
            .symbol ":extra", .list [.symbol ":raw", .str "x(x)"]]))
      ∧ ∃ finite whole,
        (dump {} (.all : Strategy Script.Failure) sampleCall.value finite).1 = .ok whole
        ∧ ¬ (unvisited "Literal").Contains whole := by
  have hselects : sampleStrategy.Selects := fun _ => ⟨rfl, List.filter_sublist⟩
  have hnames : sampleCall.value.everywhere Value.hasDistinctNames = true := by
    decide +kernel
  obtain ⟨hdump, whole, hwhole, hcomplete⟩ :=
    dump_eq_form {} sampleStrategy hselects sampleCall hnames
  exact ⟨hnames, hselects, ⟨_, hdump⟩, _, whole, hwhole, hcomplete "Literal"⟩

end Dump

end Arbor
