import Arbor.Proofs.Dump.Form
import Arbor.Proofs.Number.Spelling
import Arbor.Proofs.SExpr.Reader
import Arbor.SExpr.Compact
import Arbor.Script

/-!
This module is about what can be told of a tree from the text of its dump. A tree of plain values is
known from it but for the identities of its records and the fields that say where a node stands.
Main statement: `unlocated_eq_of_text_eq`.
-/

namespace Arbor

namespace Value

mutual

def anonymous : Value → Value
  | .list items => .list (anonymousIn items)
  | .tuple items => .tuple (anonymousIn items)
  | .record _ form fields => .record 0 form (anonymousUnder fields)
  | v => v

def anonymousIn : List Value → List Value
  | [] => []
  | v :: rest => v.anonymous :: anonymousIn rest

def anonymousUnder : List (String × Value) → List (String × Value)
  | [] => []
  | (key, v) :: rest => (key, v.anonymous) :: anonymousUnder rest

end

def locationFields : List String :=
  ["loc", "range", "start", "end"]

mutual

/--
A tree without locations. A node loses the fields of its location and has its kind in front; its
fields, and the elements of those that are sequences, are treated in the same way. What is no node
stays as it is.
-/
def unlocated : Value → Value
  | .record id form fields =>
    match (Value.record id form fields).kind? with
    | some kind => .record id form ((kindField, .str kind) :: unlocatedUnder fields)
    | none => .record id form fields
  | v => v

def unlocatedUnder : List (String × Value) → List (String × Value)
  | [] => []
  | (key, v) :: rest =>
    let later := unlocatedUnder rest
    if key = kindField ∨ key ∈ locationFields then later
    else
      match v with
      | .list items => (key, .list (unlocatedIn items)) :: later
      | .tuple items => (key, .tuple (unlocatedIn items)) :: later
      | v => (key, v.unlocated) :: later

def unlocatedIn : List Value → List Value
  | [] => []
  | v :: rest => v.unlocated :: unlocatedIn rest

end

def unlocatedField : Value → Value
  | .list items => .list (unlocatedIn items)
  | .tuple items => .tuple (unlocatedIn items)
  | v => v.unlocated

theorem unlocatedUnder_cons (key : String) (v : Value) (rest : List (String × Value))
    : unlocatedUnder ((key, v) :: rest) =
        if key = kindField ∨ key ∈ locationFields then unlocatedUnder rest
        else (key, v.unlocatedField) :: unlocatedUnder rest := by
  cases v <;> rfl

def hasClearKind (v : Value) : Bool :=
  match v.kind? with
  | some kind => SExpr.isAtom kind && kind.toList.head? != some ':'
  | none => true

/-- Plain values are scalars, lists and mappings whose names can be read as atoms. -/
def isPlain : Value → Bool
  | .null | .bool _ | .int _ | .str _ | .list _ => true
  | .record id .map fields =>
    fields.all (fun (key, _) => SExpr.isUnmarked key) &&
      (Value.record id .map fields).hasDistinctNames && (Value.record id .map fields).hasClearKind
  | _ => false

end Value

namespace Dump

open Value SExpr

def atomValue (name : String) : Value :=
  if name = "nil" then .null
  else if name = "true" then .bool true
  else if name = "false" then .bool false
  else
    match name.toInt? with
    | some n => .int n
    | none => .symbol name

mutual

def decode : SExpr → Value
  | .symbol name => atomValue name
  | .str s => .str s
  | .list items => .record 0 .map (decodeMembers items)
  | .brackets items => .list (decodeAll items)
  | _ => .keep

def decodeAll : List SExpr → List Value
  | [] => []
  | item :: rest => decode item :: decodeAll rest

def decodeMembers : List SExpr → List (String × Value)
  | .symbol name :: rest =>
    match name.toList, rest with
    | ':' :: key, value :: rest => (String.ofList key, decode value) :: decodeMembers rest
    | _, rest => (kindField, .str name) :: decodeMembers rest
  | _ => []

end

theorem toString_ne {name : String} {c : Char} (hc : c ∈ name.toList)
    (h : ¬ (c.isDigit = true ∨ c = '-')) (n : Int) : toString n ≠ name := by
  intro heq
  rw [← heq] at hc
  exact h (mem_numeral hc)

theorem atomValue_toString (n : Int) : atomValue (toString n) = .int n := by
  unfold atomValue
  rw [if_neg (toString_ne (c := 'n') (by decide) (by decide) n),
    if_neg (toString_ne (c := 't') (by decide) (by decide) n),
    if_neg (toString_ne (c := 'f') (by decide) (by decide) n), toInt?_toString]

theorem decodeMembers_keyword (key : String) (e : SExpr) (rest : List SExpr)
    : decodeMembers (.keyword key :: e :: rest) = (key, decode e) :: decodeMembers rest := by
  have hkey : (":" ++ key).toList = ':' :: key.toList := by
    rw [String.toList_append]
    rfl
  rw [SExpr.keyword, decodeMembers.eq_def]
  dsimp only
  rw [hkey]
  show (String.ofList key.toList, decode e) :: decodeMembers rest = _
  rw [String.ofList_toList]

theorem decodeMembers_kind {kind : String} (h : kind.toList.head? ≠ some ':') (rest : List SExpr)
    : decodeMembers (.symbol kind :: rest) = (kindField, .str kind) :: decodeMembers rest := by
  rw [decodeMembers]
  intro key value later hkind
  exact absurd (by rw [hkind]; rfl) h

structure Tells (e : SExpr) (v : Value) : Prop where
  legible : e.isLegible = true
  decoded : decode e.spelled = v.anonymous

structure TellsEach (es : List SExpr) (vs : List Value) : Prop where
  legible : areLegible es = true
  decoded : decodeAll (spelledAll es) = anonymousIn vs

structure TellsMembers (es : List SExpr) (fields : List (String × Value)) : Prop where
  legible : areLegible es = true
  decoded : decodeMembers (spelledAll es) = anonymousUnder fields

theorem TellsEach.nil : TellsEach [] [] :=
  ⟨rfl, rfl⟩

theorem TellsEach.cons {e : SExpr} {v : Value} {es : List SExpr} {vs : List Value} (h : Tells e v)
    (hrest : TellsEach es vs) : TellsEach (e :: es) (v :: vs) where
  legible := by
    rw [areLegible, h.legible, hrest.legible]
    rfl
  decoded := by
    rw [spelledAll, decodeAll, h.decoded, hrest.decoded]
    rfl

theorem TellsEach.brackets {es : List SExpr} {vs : List Value} (h : TellsEach es vs)
    : Tells (.brackets es) (.list vs) where
  legible := h.legible
  decoded := by
    rw [spelled, decode, h.decoded]
    rfl

theorem TellsMembers.nil : TellsMembers [] [] :=
  ⟨rfl, rfl⟩

theorem isAtom_keyword {key : String} (h : isUnmarked key = true) : isAtom (":" ++ key) = true := by
  rw [isAtom_iff]
  constructor
  · simp
  · intro c hc
    rw [String.toList_append, List.mem_append] at hc
    rcases hc with hc | hc
    · rw [List.mem_singleton.1 hc]
      decide
    · exact isUnmarked_iff.1 h c hc

theorem TellsMembers.cons {key : String} (hkey : isUnmarked key = true) {e : SExpr} {v : Value}
    {es : List SExpr} {fields : List (String × Value)} (h : Tells e v)
    (hrest : TellsMembers es fields)
    : TellsMembers (.keyword key :: e :: es) ((key, v) :: fields) where
  legible := by
    rw [areLegible, areLegible, h.legible, hrest.legible, SExpr.keyword, isLegible,
      isAtom_keyword hkey]
    rfl
  decoded := by
    rw [spelledAll, spelledAll, SExpr.keyword, spelled_symbol, ← SExpr.keyword,
      decodeMembers_keyword, h.decoded, hrest.decoded]
    rfl

theorem TellsMembers.record {es : List SExpr} {fields : List (String × Value)}
    (h : TellsMembers es fields) (id : Nat) : Tells (.list es) (.record id .map fields) where
  legible := h.legible
  decoded := by
    rw [spelled, decode, h.decoded]
    rfl

theorem TellsMembers.node {kind : String} {es : List SExpr} {fields : List (String × Value)}
    (h : TellsMembers es fields) (hatom : isAtom kind = true)
    (hcolon : kind.toList.head? ≠ some ':')
    : TellsMembers (.symbol kind :: es) ((kindField, .str kind) :: fields) where
  legible := by
    rw [areLegible, isLegible, hatom, h.legible]
    rfl
  decoded := by
    rw [spelledAll, spelled_symbol, decodeMembers_kind hcolon, h.decoded]
    rfl

theorem isPlain_record {id : Nat} {f : Form} {fields : List (String × Value)}
    (h : (Value.record id f fields).isPlain = true)
    : f = .map ∧ (∀ field ∈ fields, isUnmarked field.1 = true)
      ∧ (Value.record id f fields).hasDistinctNames = true
      ∧ (Value.record id f fields).hasClearKind = true := by
  cases f with
  | map =>
    rw [isPlain, Bool.and_eq_true, Bool.and_eq_true, List.all_eq_true] at h
    exact ⟨rfl, h.1.1, h.1.2, h.2⟩
  | _ => contradiction

mutual

theorem tells_scalarForm : (v : Value) → v.everywhere isPlain = true → Tells (scalarForm v) v
  | .null, _ => ⟨by decide, rfl⟩
  | .bool b, _ => by cases b <;> exact ⟨by decide, rfl⟩
  | .int n, _ => ⟨rfl, atomValue_toString n⟩
  | .str s, _ => ⟨rfl, rfl⟩
  | .list items, h => by
    rw [everywhere, Bool.and_eq_true] at h
    rw [scalarForm]
    exact (tells_scalarForms items h.2).brackets
  | .record id f fields, h => by
    rw [everywhere, Bool.and_eq_true] at h
    obtain ⟨rfl, hkeys, _⟩ := isPlain_record h.1
    rw [scalarForm]
    exact (tells_memberForms fields hkeys h.2).record id
  | .float _, h | .bytes _, h | .keep, h | .symbol _, h | .brackets _, h => Bool.noConfusion h
  | .tuple items, h => Bool.noConfusion h

theorem tells_scalarForms
    : (items : List Value) → everywhereIn isPlain items = true → TellsEach (scalarForms items) items
  | [], _ => .nil
  | v :: rest, h => by
    rw [everywhereIn, Bool.and_eq_true] at h
    exact .cons (tells_scalarForm v h.1) (tells_scalarForms rest h.2)

theorem tells_memberForms
    : (fields : List (String × Value)) → (∀ field ∈ fields, isUnmarked field.1 = true) →
      everywhereUnder isPlain fields = true → TellsMembers (memberForms fields) fields
  | [], _, _ => .nil
  | (name, v) :: rest, hkeys, h => by
    rw [everywhereUnder, Bool.and_eq_true] at h
    rw [List.forall_mem_cons] at hkeys
    exact .cons hkeys.1 (tells_scalarForm v h.1) (tells_memberForms rest hkeys.2 h.2)

end

theorem tells_placed {v : Value} (hplain : v.everywhere isPlain = true)
    (h : Tells (form {} keepsAll v) v.unlocated)
    : Tells (placed true v (form {} keepsAll v)) v.unlocated := by
  unfold placed
  split
  next => exact h
  next hkind =>
    -- what is no node is shown as it is, with all nodes in it
    have hsame : v.unlocated = v := by
      cases v with
      | record id f fields => rw [unlocated, hkind]
      | _ => rfl
    rw [hsame]
    exact tells_scalarForm v hplain

theorem isShown_map (key : String)
    : isShown .map key = true ↔ ¬ (key = kindField ∨ key ∈ locationFields) := by
  simp [isShown, Form.listsHidden, hiddenFields, kindField, locationFields]

mutual

theorem tells_form
    : (v : Value) → v.everywhere isPlain = true → Tells (form {} keepsAll v) v.unlocated
  | .record id f fields, h => by
    have hinner := h
    rw [everywhere, Bool.and_eq_true] at hinner
    obtain ⟨rfl, hkeys, _, hclear⟩ := isPlain_record hinner.1
    cases hkind : (Value.record id .map fields).kind? with
    | some kind =>
      let n : Node := ⟨.record id .map fields, kind, hkind⟩
      have hform : form {} keepsAll n.value =
          .list (.symbol kind :: fieldForms {} keepsAll n .map fields ++ locationForm {} n.value) :=
        form_node rfl
      have hmembers := tells_fieldForms n fields hkeys hinner.2
      rw [hasClearKind, hkind, Bool.and_eq_true, bne_iff_ne] at hclear
      rw [hform, unlocated, hkind, locationForm, if_neg Bool.false_ne_true, List.append_nil]
      exact (hmembers.node hclear.1 hclear.2).record id
    | none =>
      rw [form_scalar hkind, unlocated, hkind]
      exact tells_scalarForm _ h
  | .null, h | .bool _, h | .int _, h | .float _, h | .str _, h | .bytes _, h | .keep, h
  | .symbol _, h | .brackets _, h | .list _, h | .tuple _, h => tells_scalarForm _ h

theorem tells_fieldForms (n : Node)
    : (fields : List (String × Value)) → (∀ field ∈ fields, isUnmarked field.1 = true) →
      everywhereUnder isPlain fields = true →
      TellsMembers (fieldForms {} keepsAll n .map fields) (unlocatedUnder fields)
  | [], _, _ => .nil
  | (key, v) :: rest, hkeys, h => by
    rw [everywhereUnder, Bool.and_eq_true] at h
    rw [List.forall_mem_cons] at hkeys
    have hrest := tells_fieldForms n rest hkeys.2 h.2
    have hplaced := tells_placed h.1 (tells_form v h.1)
    have hvalue : Tells (valueForm {} keepsAll n key v) v.unlocatedField := by
      cases v with
      | list items =>
        have hitems := h.1
        rw [everywhere, Bool.and_eq_true] at hitems
        exact (tells_itemForms n key 0 items hitems.2).brackets
      | tuple items => exact absurd h.1 Bool.noConfusion
      | _ => exact hplaced
    rw [fieldForms_cons, unlocatedUnder_cons]
    by_cases hshown : isShown .map key = true
    · rw [if_pos hshown, if_neg ((isShown_map key).1 hshown)]
      exact hrest.cons hkeys.1 hvalue
    · rw [if_neg hshown, if_pos (not_not.1 (mt (isShown_map key).2 hshown))]
      exact hrest

theorem tells_itemForms (n : Node) (key : String)
    : (i : Nat) → (items : List Value) → everywhereIn isPlain items = true →
      TellsEach (itemForms {} keepsAll n key i items) (unlocatedIn items)
  | _, [], _ => .nil
  | i, v :: rest, h => by
    rw [everywhereIn, Bool.and_eq_true] at h
    exact .cons (tells_placed h.1 (tells_form v h.1)) (tells_itemForms n key (i + 1) rest h.2)

end

variable {ε : Type} [Described ε]

theorem hasDistinctNames_of_isPlain {v : Value} (h : v.everywhere isPlain = true)
    : v.everywhere hasDistinctNames = true := by
  apply everywhere_mono _ v h
  intro v hv
  cases v with
  | record id f fields => exact (isPlain_record hv).2.2.1
  | _ => rfl

theorem text_dump (compact : SExpr → String) {root : Node}
    (hplain : root.value.everywhere isPlain = true)
    : (dump {} (.all : Strategy ε) root.value (Strategy.all_finiteFrom _)).1.map
          (text compact true) =
        .ok (text compact true (form {} keepsAll root.value)) := by
  rw [dump_all {} (hasDistinctNames_of_isPlain hplain)]
  rfl

theorem decode_read_text (compact : SExpr → String) {v : Value}
    (hplain : v.everywhere isPlain = true)
    : (read (text compact true (form {} keepsAll v)).toList).map decode =
        some v.unlocated.anonymous := by
  have htells := tells_form v hplain
  have hblank : ∀ c ∈ ({} : Page).indentText, isBlank c = true := by
    simp [isBlank]
  rw [text, if_pos rfl, pretty, String.toList_ofList, read_layout hblank 0 htells.legible,
    Option.map_some, htells.decoded]

/--
The dumps of two trees of plain values have texts. If the texts are the same, then so are the trees,
but for the identities of records, the locations of nodes, and the place of their kinds.
-/
theorem unlocated_eq_of_text_eq (compact : SExpr → String) (tree tree' : Node)
    (hplain : tree.value.everywhere isPlain = true)
    (hplain' : tree'.value.everywhere isPlain = true)
    : ∃ s s',
      (dump {} (.all : Strategy ε) tree.value (Strategy.all_finiteFrom _)).1.map
          (text compact true) =
        .ok s
      ∧ (dump {} (.all : Strategy ε) tree'.value (Strategy.all_finiteFrom _)).1.map
          (text compact true) =
        .ok s'
      ∧ (s = s' → tree.value.unlocated.anonymous = tree'.value.unlocated.anonymous) := by
  refine ⟨_, _, text_dump compact hplain, text_dump compact hplain', ?_⟩
  intro hsame
  have hread := decode_read_text compact hplain
  rw [hsame, decode_read_text compact hplain'] at hread
  exact (Option.some.inj hread).symm

def sampleLocated : Node :=
  ⟨.record 0 .map
    [("type", .str "Call"), ("start", .int 3), ("name", .str "a\n\"b\""),
      ("arguments", .list [.record 1 .map [("start", .int 5), ("type", .str "This")], .null,
        .list [.record 2 .map [("type", .str "This"), ("start", .int 6)]]]),
      ("extra", .record 3 .map [("depth", .int (-2)), ("empty", .list [])])],
    "Call", rfl⟩

def sampleUnlocated : Node :=
  ⟨.record 0 .map
    [("name", .str "a\n\"b\""),
      ("arguments", .list [.record 5 .map [("type", .str "This")], .null,
        .list [.record 6 .map [("type", .str "This"), ("start", .int 6)]]]),
      ("extra", .record 7 .map [("depth", .int (-2)), ("empty", .list [])]),
      ("type", .str "Call"), ("loc", .null)],
    "Call", rfl⟩

theorem unlocated_eq_of_text_eq_sample
    : sampleLocated.value.everywhere isPlain = true
      ∧ sampleUnlocated.value.everywhere isPlain = true
      ∧ (dump {} (.all : Strategy Script.Failure) sampleLocated.value
          (Strategy.all_finiteFrom _)).1.map (text SExpr.oneLine true) =
        .ok ("(Call\n  :name \"a\n\\\"b\\\"\"\n" ++
          "  :arguments [(This) nil [(:type \"This\" :start 6)]]\n" ++
          "  :extra (:depth -2 :empty [])\n)")
      ∧ sampleLocated.value.unlocated.anonymous = sampleUnlocated.value.unlocated.anonymous := by
  have hplain : sampleLocated.value.everywhere isPlain = true := by
    decide +kernel
  have hplain' : sampleUnlocated.value.everywhere isPlain = true := by
    decide +kernel
  have hform : form {} keepsAll sampleLocated.value = form {} keepsAll sampleUnlocated.value := by
    rfl
  obtain ⟨s, s', hs, hs', hsame⟩ :=
    unlocated_eq_of_text_eq (ε := Script.Failure) SExpr.oneLine sampleLocated sampleUnlocated hplain
      hplain'
  refine ⟨hplain, hplain', ?_, hsame ?_⟩
  · rw [text_dump _ hplain]
    apply congrArg Except.ok
    decide +kernel
  · rw [text_dump _ hplain] at hs
    rw [text_dump _ hplain', ← hform, hs] at hs'
    exact Except.ok.inj hs'

end Dump

end Arbor
