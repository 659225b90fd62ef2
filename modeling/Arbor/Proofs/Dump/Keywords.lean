import Arbor.Proofs.Dump.Form
import Arbor.Proofs.SExpr.Pairing
import Arbor.SExpr.Compact

/-!
This module is about the keywords in the text of a dump. A grammar says how the values of a tree
stand in a text. In it, the keyword of every field of a node is followed by one blank and the value
of the field, and so are the keywords of other records, but for the first one.

Main statement: the text of a dump follows this grammar, where the first keyword of a record is
followed by a line break if the text of the record has one, and else by one blank
(`text_keywords`).
-/

namespace Arbor.Dump

open SExpr

inductive Place where
  | field
  | item
  | inside
deriving DecidableEq

namespace Place

def inner : Place → Place
  | .field => .item
  | .item | .inside => .inside

def visits (place : Place) (v : Value) : Bool :=
  place != .inside && v.isNode

theorem exists_node {place : Place} {v : Value} (h : place.visits v = true)
    : ∃ n : Node, n.value = v := by
  rw [visits, Bool.and_eq_true] at h
  obtain ⟨kind, hkind⟩ := Option.isSome_iff_exists.1 h.2
  exact ⟨⟨v, kind, hkind⟩, rfl⟩

end Place

def isAtomic : Value → Bool
  | .list _ | .tuple _ => false
  | .record _ form _ => !form.isMapping
  | _ => true

def locationEntry (options : Options) (n : Node) : List (String × Value) :=
  if options.locations then
    (Location.ofValue? n.value options.file).toList.map fun l => ("loc", .str l.text)
  else []

def entries (options : Options) (n : Node) : List (String × Value) :=
  n.value.fields.filter (fun (key, _) => !hiddenFields.contains key) ++ locationEntry options n

mutual

/--
How a value stands in a text. What stands between the first keyword of a record and its value is
left to `lead`, which is told this gap and the text of the record.
-/
inductive Written (options : Options) (lead : List Char → List Char → Prop) :
    Place → Value → List Char → Prop where
  | node {place : Place} {n : Node} {pairs close : List Char}
      (visited : place.visits n.value = true)
      (fields : WrittenPairs options lead .field (entries options n) pairs)
      (blank : ∀ c ∈ close, isBlank c = true) :
      Written options lead place n.value ('(' :: (n.kind.toList ++ pairs ++ close ++ [')']))
  | sequence {place : Place} {v : Value} {text : List Char} (sequence : v.isSequence = true)
      (items : WrittenItems options lead place.inner v.items text) :
      Written options lead place v ('[' :: (text ++ [']']))
  | empty {place : Place} {id : Nat} {form : Form} (mapping : form.isMapping = true)
      (unvisited : place.visits (.record id form []) = false) :
      Written options lead place (.record id form []) ['(', ')']
  | record {place : Place} {id : Nat} {form : Form} {key : String} {v : Value}
      {fields : List (String × Value)} {gap text pairs close : List Char}
      (mapping : form.isMapping = true)
      (unvisited : place.visits (.record id form ((key, v) :: fields)) = false)
      (first : Written options lead .inside v text) (solid : IsSolid text)
      (rest : WrittenPairs options lead .inside fields pairs)
      (blank : ∀ c ∈ close, isBlank c = true)
      (follows : lead gap
        ('(' :: (':' :: key.toList ++ gap ++ text ++ pairs ++ close ++ [')']))) :
      Written options lead place (.record id form ((key, v) :: fields))
        ('(' :: (':' :: key.toList ++ gap ++ text ++ pairs ++ close ++ [')']))
  | atom {place : Place} {v : Value} (atomic : isAtomic v = true)
      (unvisited : place.visits v = false) :
      Written options lead place v (scalarForm v).flat

inductive WrittenPairs (options : Options) (lead : List Char → List Char → Prop) :
    Place → List (String × Value) → List Char → Prop where
  | nil {place : Place} : WrittenPairs options lead place [] []
  | cons {place : Place} {key : String} {v : Value} {fields : List (String × Value)}
      {gap text pairs : List Char} (isGap : IsGap gap)
      (value : Written options lead place v text) (solid : IsSolid text)
      (rest : WrittenPairs options lead place fields pairs) :
      WrittenPairs options lead place ((key, v) :: fields)
        (gap ++ ':' :: key.toList ++ ' ' :: text ++ pairs)

inductive WrittenItems (options : Options) (lead : List Char → List Char → Prop) :
    Place → List Value → List Char → Prop where
  | nil {place : Place} : WrittenItems options lead place [] []
  | one {place : Place} {v : Value} {text : List Char}
      (item : Written options lead place v text) : WrittenItems options lead place [v] text
  | cons {place : Place} {v w : Value} {items : List Value} {text gap rest : List Char}
      (item : Written options lead place v text) (isGap : IsGap gap)
      (later : WrittenItems options lead place (w :: items) rest) :
      WrittenItems options lead place (v :: w :: items) (text ++ gap ++ rest)

end

def formAt (options : Options) (place : Place) (v : Value) : SExpr :=
  match place with
  | .inside => scalarForm v
  | .item => form options keepsAll v
  | .field =>
    if v.isSequence then .brackets (v.items.map (form options keepsAll))
    else form options keepsAll v

def pairForms (options : Options) (place : Place) (fields : List (String × Value)) : List SExpr :=
  fields.flatMap fun (key, v) => [.keyword key, formAt options place v]

section Forms

variable {options : Options}

theorem placed_all (options : Options) (v : Value)
    : placed true v (form options keepsAll v) = form options keepsAll v := by
  unfold placed
  split
  next => rfl
  next hkind => rw [form_scalar hkind]

theorem itemForms_all (n : Node) (key : String) (i : Nat) (items : List Value)
    : itemForms options keepsAll n key i items = items.map (form options keepsAll) := by
  induction items generalizing i with
  | nil => rfl
  | cons v rest ih =>
    rw [itemForms, ih]
    exact congrArg (· :: _) (placed_all options v)

theorem valueForm_all (n : Node) (key : String) (v : Value)
    : valueForm options keepsAll n key v = formAt options .field v := by
  have hplaced := placed_all options v
  cases v with
  | list items | tuple items => exact congrArg SExpr.brackets (itemForms_all n key 0 items)
  | _ => exact hplaced

theorem fieldForms_all (n : Node) (f : Form) (fields : List (String × Value))
    : fieldForms options keepsAll n f fields =
        pairForms options .field (fields.filter fun (key, _) => isShown f key) := by
  induction fields with
  | nil => rfl
  | cons field rest ih =>
    obtain ⟨key, v⟩ := field
    rw [fieldForms_cons, ih, valueForm_all]
    split
    next hshown =>
      rw [List.filter_cons_of_pos (by exact hshown)]
      rfl
    next hshown => rw [List.filter_cons_of_neg (by exact hshown)]

theorem locationForm_eq (n : Node)
    : locationForm options n.value = pairForms options .field (locationEntry options n) := by
  unfold locationForm locationEntry
  split
  · cases Location.ofValue? n.value options.file <;> rfl
  · rfl

theorem mem_locationEntry {n : Node} {key : String} {v : Value}
    (h : (key, v) ∈ locationEntry options n) : ∃ text, v = .str text := by
  unfold locationEntry at h
  split at h
  · obtain ⟨l, _, heq⟩ := List.mem_map.1 h
    exact ⟨l.text, (congrArg Prod.snd heq).symm⟩
  · contradiction

theorem scalarForms_eq (items : List Value) : scalarForms items = items.map scalarForm := by
  induction items with
  | nil => rfl
  | cons v rest ih => rw [scalarForms, ih, List.map_cons]

theorem memberForms_eq (options : Options) (fields : List (String × Value))
    : memberForms fields = pairForms options .inside fields := by
  induction fields with
  | nil => rfl
  | cons field rest ih =>
    rw [memberForms, ih]
    rfl

theorem formAt_node {place : Place} {n : Node} (h : place.visits n.value = true)
    : formAt options place n.value =
        .list (.symbol n.kind :: pairForms options .field (entries options n)) := by
  obtain ⟨id, f, fields, hrecord⟩ := n.exists_record
  have hform : formAt options place n.value = form options keepsAll n.value := by
    cases place with
    | field =>
      rw [hrecord]
      rfl
    | item => rfl
    | inside => contradiction
  have hentries : pairForms options .field (entries options n) =
      fieldForms options keepsAll n f fields ++ locationForm options n.value := by
    rw [fieldForms_all, locationForm_eq, ← shown_eq id, ← hrecord]
    exact List.flatMap_append
  rw [hform, form_node hrecord, hentries]
  rfl

theorem formAt_sequence {v : Value} (h : v.isSequence = true) (place : Place)
    : formAt options place v = .brackets (v.items.map (formAt options place.inner)) := by
  cases v with
  | list items | tuple items =>
    cases place with
    | field => rfl
    | item | inside => exact congrArg SExpr.brackets (scalarForms_eq items)
  | _ => contradiction

theorem formAt_scalar {place : Place} {v : Value} (hvisits : place.visits v = false)
    (hsequence : v.isSequence = false) : formAt options place v = scalarForm v := by
  cases place with
  | inside => rfl
  | item | field =>
    have hkind : v.kind? = none := by
      simpa [Place.visits, Value.isNode] using hvisits
    simp [formAt, hsequence, form_scalar hkind]

end Forms

def pairBlocks (options : Options) (p : Page) (level : Int) (place : Place)
    (fields : List (String × Value)) : List (Block × Block) :=
  fields.map fun (key, v) =>
    (layout p level (.keyword key), layout p level (formAt options place v))

section Blocks

variable {options : Options} {p : Page} {level : Int}

theorem layoutAll_pairForms (place : Place) (fields : List (String × Value))
    : layoutAll p level (pairForms options place fields) =
        pairParts (pairBlocks options p level place fields) := by
  rw [layoutAll_eq_map, pairForms, List.map_flatMap, pairParts, pairBlocks, List.flatMap_map]
  rfl

theorem isKeyword_pairBlocks (options : Options) (p : Page) (level : Int) (place : Place)
    (fields : List (String × Value))
    : ∀ pair ∈ pairBlocks options p level place fields, isKeyword pair.1 = true := by
  intro pair hpair
  obtain ⟨⟨key, v⟩, _, rfl⟩ := List.mem_map.1 hpair
  apply isKeyword_keyword p level key

theorem isSolid_scalarForm (v : Value) : IsSolid (layout p level (scalarForm v)).text := by
  cases v with
  | null =>
    rw [scalarForm, layout, Block.text_ofChars]
    apply isSolid_cons (by decide)
  | bool b =>
    rw [scalarForm, layout, Block.text_ofChars]
    cases b with
    | false => apply isSolid_cons (by decide)
    | true => apply isSolid_cons (by decide)
  | int n =>
    rw [scalarForm, layout, Block.text_ofChars]
    apply isSolid_toString
  | float x =>
    rw [scalarForm, layout, Block.text_ofChars]
    apply isSolid_of_spelled x.text_spelled.1 x.text_spelled.2
  | list items | tuple items =>
    rw [scalarForm, layout]
    apply isSolid_layoutBrackets
  | record id form fields =>
    rw [scalarForm]
    split
    · rw [layout]
      apply isSolid_layoutList
    · rw [layout, Block.text_ofChars]
      apply isSolid_quoted
  | str s | bytes data | keep | symbol name | brackets items =>
    simp only [scalarForm]
    rw [layout, Block.text_ofChars]
    apply isSolid_quoted

theorem isSolid_formAt (options : Options) (p : Page) (level : Int) (place : Place) (v : Value)
    : IsSolid (layout p level (formAt options place v)).text := by
  cases hvisits : place.visits v with
  | true =>
    obtain ⟨n, rfl⟩ := Place.exists_node hvisits
    rw [formAt_node hvisits, layout]
    apply isSolid_layoutList
  | false =>
    cases hsequence : v.isSequence with
    | true =>
      rw [formAt_sequence hsequence, layout]
      apply isSolid_layoutBrackets
    | false =>
      rw [formAt_scalar hvisits hsequence]
      apply isSolid_scalarForm

end Blocks

/-- What follows the first keyword of a record: a line break if the record has one, else a blank. -/
def Leads (gap record : List Char) : Prop :=
  if '\n' ∈ record then ∃ indent, gap = '\n' :: indent ∧ ∀ c ∈ indent, c = ' ' else gap = [' ']

section Written

variable {options : Options} {p : Page} {level : Int} {place : Place}

theorem writtenPairs_of_forall {fields : List (String × Value)} {gap : List Char}
    (hgap : IsGap gap)
    (h : ∀ key v, (key, v) ∈ fields →
      Written options Leads place v (layout p level (formAt options place v)).text)
    : WrittenPairs options Leads place fields
        (pairTexts gap (pairBlocks options p level place fields)) := by
  induction fields with
  | nil => exact .nil
  | cons field rest ih =>
    obtain ⟨key, v⟩ := field
    have hrest := ih fun key v hv => h key v (List.mem_cons_of_mem _ hv)
    have hpairs : WrittenPairs options Leads place ((key, v) :: rest) _ :=
      .cons hgap (h key v (List.mem_cons_self ..)) (isSolid_formAt options p level place v) hrest
    rw [pairBlocks, List.map_cons, pairTexts, List.flatMap_cons, text_keyword]
    exact hpairs

theorem writtenItems_of_forall {items : List Value} {gap : List Char} (hgap : IsGap gap)
    (h : ∀ v ∈ items,
      Written options Leads place v (layout p level (formAt options place v)).text)
    : WrittenItems options Leads place items
        (gap.intercalate (items.map fun v => (layout p level (formAt options place v)).text)) := by
  induction items with
  | nil => exact .nil
  | cons v rest ih =>
    rw [List.forall_mem_cons] at h
    cases rest with
    | nil =>
      rw [List.map_singleton, List.intercalate_singleton]
      exact .one h.1
    | cons w rest =>
      rw [List.map_cons, List.map_cons, List.intercalate_cons_cons]
      exact .cons h.1 hgap (ih h.2)

theorem written_atom {v : Value} (hatomic : isAtomic v = true) (hvisits : place.visits v = false)
    : Written options Leads place v (layout p level (formAt options place v)).text := by
  have hsequence : v.isSequence = false := by
    cases v with
    | list items | tuple items => contradiction
    | _ => rfl
  have hflat : (layout p level (scalarForm v)).text = (scalarForm v).flat := by
    cases v with
    | list items | tuple items => contradiction
    | record id f fields =>
      have hmapping : f.isMapping = false := by simpa [isAtomic] using hatomic
      simp [scalarForm, hmapping, layout, flat]
    | _ => simp [scalarForm, layout, flat]
  rw [formAt_scalar hvisits hsequence, hflat]
  exact .atom hatomic hvisits

variable (hpage : ∀ c ∈ p.indentText, c = ' ')

include hpage

theorem isBlank_indentText : ∀ c ∈ p.indentText, isBlank c = true := by
  intro c hc
  rw [hpage c hc]
  rfl

theorem leads_lineBreak {gap record : List Char}
    (h : gap = if '\n' ∈ record then (lineBreak p level).text else [' ']) : Leads gap record := by
  unfold Leads
  split
  next hbreak =>
    rw [if_pos hbreak, lineBreak, Block.text_ofChars] at h
    refine ⟨p.indent level, h, ?_⟩
    intro c hc
    rw [Page.indent, List.mem_flatten] at hc
    obtain ⟨one, hone, hc⟩ := hc
    rw [List.eq_of_mem_replicate hone] at hc
    exact hpage c hc
  next hline => rwa [if_neg hline] at h

theorem written_node {n : Node} (hvisits : place.visits n.value = true)
    (h : ∀ key v, (key, v) ∈ entries options n →
      Written options Leads .field v (layout p (level + 1) (formAt options .field v)).text)
    : Written options Leads place n.value (layout p level (formAt options place n.value)).text := by
  rw [formAt_node hvisits, layout, layoutAll, layoutAll_pairForms]
  obtain ⟨gap, close, hspacing, htext⟩ := layoutList_headed p level
    (layout p (level + 1) (.symbol n.kind)) (isKeyword_pairBlocks options p (level + 1) .field _)
  rw [htext, layout, Block.text_ofChars]
  exact .node hvisits
    (writtenPairs_of_forall (hspacing.isGap (isBlank_indentText hpage)) h)
    (hspacing.isBlank_close (isBlank_indentText hpage))

theorem written_sequence {v : Value} (hsequence : v.isSequence = true)
    (h : ∀ item ∈ v.items, Written options Leads place.inner item
      (layout p (level + 1) (formAt options place.inner item)).text)
    : Written options Leads place v (layout p level (formAt options place v)).text := by
  rw [formAt_sequence hsequence, layout, layoutAll_eq_map]
  obtain ⟨gap, hgap, htext⟩ := text_layoutBrackets (isBlank_indentText hpage) level
    ((v.items.map (formAt options place.inner)).map (layout p (level + 1)))
  rw [htext, List.map_map, List.map_map]
  exact .sequence hsequence (writtenItems_of_forall hgap h)

theorem written_record {id : Nat} {f : Form} {fields : List (String × Value)}
    (hmapping : f.isMapping = true) (hvisits : place.visits (.record id f fields) = false)
    (h : ∀ key v, (key, v) ∈ fields →
      Written options Leads .inside v (layout p (level + 1) (formAt options .inside v)).text)
    : Written options Leads place (.record id f fields)
        (layout p level (formAt options place (.record id f fields))).text := by
  rw [formAt_scalar hvisits rfl, scalarForm, if_pos hmapping, layout, memberForms_eq options]
  cases fields with
  | nil => exact .empty hmapping hvisits
  | cons field rest =>
    obtain ⟨key, v⟩ := field
    have hparts : layoutAll p (level + 1) (pairForms options .inside ((key, v) :: rest)) =
        layout p (level + 1) (.keyword key) :: layout p (level + 1) (formAt options .inside v) ::
          pairParts (pairBlocks options p (level + 1) .inside rest) := by
      rw [layoutAll_pairForms]
      rfl
    -- the first value is no keyword, so it does not take the next keyword for its value
    have hsolid := isSolid_formAt options p (level + 1) .inside v
    obtain ⟨gap, close, hspacing, htext, hgap⟩ := layoutList_keyed p level
      (layout p (level + 1) (.keyword key)) hsolid.not_isKeyword
      (isKeyword_pairBlocks options p (level + 1) .inside rest)
    have hleads := leads_lineBreak hpage hgap
    have hrest : WrittenPairs options Leads .inside rest _ :=
      writtenPairs_of_forall (hspacing.isGap (isBlank_indentText hpage)) fun key v hv =>
        h key v (List.mem_cons_of_mem _ hv)
    rw [htext, text_keyword] at hleads
    rw [hparts, htext, text_keyword]
    exact .record hmapping hvisits (h key v (List.mem_cons_self ..)) hsolid hrest
      (hspacing.isBlank_close (isBlank_indentText hpage)) hleads

theorem written_layout (v : Value) (place : Place) (level : Int)
    : Written options Leads place v (layout p level (formAt options place v)).text := by
  have below : ∀ w : Value, sizeOf w < sizeOf v → ∀ place level,
      Written options Leads place w (layout p level (formAt options place w)).text :=
    fun w hlt place level => written_layout w place level
  cases hvisits : place.visits v with
  | true =>
    obtain ⟨n, rfl⟩ := Place.exists_node hvisits
    apply written_node hpage hvisits
    intro key w hentry
    -- the location is not part of the node, but it is only a string
    rcases List.mem_append.1 hentry with hshown | hlocation
    · apply below w (Value.sizeOf_field_lt (List.mem_of_mem_filter hshown))
    · obtain ⟨text, rfl⟩ := mem_locationEntry hlocation
      exact written_atom rfl rfl
  | false =>
    cases v with
    | list items | tuple items =>
      apply written_sequence hpage rfl
      intro item hitem
      apply below item (Value.sizeOf_item_lt hitem)
    | record id f fields =>
      cases hmapping : f.isMapping with
      | true =>
        apply written_record hpage hmapping hvisits
        intro key w hfield
        apply below w
        have hlt := List.sizeOf_lt_of_mem hfield
        rw [Prod.mk.sizeOf_spec] at hlt
        rw [Value.record.sizeOf_spec]
        omega
      | false => exact written_atom (by simp [isAtomic, hmapping]) hvisits
    | _ => exact written_atom rfl hvisits
termination_by sizeOf v

end Written

variable {ε : Type} [Described ε]

/--
Keywords and values in the text of a dump. Behind the keyword of a field of a node, and behind all
keywords of another record but the first one, stand one blank and the first character of the value.
Behind the first keyword of such a record there is one blank as well, if the text of the record has
no line break; otherwise there is a line break, and the value stands on the next line.
-/
theorem text_keywords (compact : SExpr → String) (options : Options) (root : Node)
    (distinct : root.value.everywhere Value.hasDistinctNames = true)
    : ∃ e, (dump options (.all : Strategy ε) root.value (Strategy.all_finiteFrom _)).1 = .ok e
        ∧ Written options Leads .item root.value (text compact true e).toList := by
  refine ⟨_, dump_all options distinct, ?_⟩
  rw [text, if_pos rfl, pretty, String.toList_ofList]
  apply written_layout (by simp) root.value .item 0

def sampleBroken : Node :=
  ⟨.record 0 .map [("type", .str "A"), ("x", .record 1 .map [("k", .str "\n")])], "A", rfl⟩

def sampleBrokenText : String :=
  "(A\n  :x (:k\n    \"\n\"\n  )\n)"

theorem dump_sampleBroken
    : ∃ e, (dump {} (.all : Strategy Script.Failure) sampleBroken.value
          (Strategy.all_finiteFrom _)).1 = .ok e
        ∧ text SExpr.oneLine true e = sampleBrokenText := by
  refine ⟨_, dump_all {} (by decide), ?_⟩
  decide +kernel

theorem text_keywords_sample
    : sampleBroken.value.everywhere Value.hasDistinctNames = true
      ∧ ∃ e, (dump {} (.all : Strategy Script.Failure) sampleBroken.value
          (Strategy.all_finiteFrom _)).1 = .ok e
        ∧ Written {} Leads .item sampleBroken.value (text SExpr.oneLine true e).toList := by
  have hdistinct : sampleBroken.value.everywhere Value.hasDistinctNames = true := by decide
  exact ⟨hdistinct, text_keywords SExpr.oneLine {} sampleBroken hdistinct⟩

def Together (gap _record : List Char) : Prop :=
  gap = [' ']

theorem Written.first_keyword {options : Options} {place : Place} {id : Nat} {f : Form}
    {key : String} {v : Value} {fields : List (String × Value)} {text : List Char}
    (h : Written options Together place (.record id f ((key, v) :: fields)) text)
    (hmapping : f.isMapping = true)
    (hvisits : place.visits (.record id f ((key, v) :: fields)) = false)
    : ('(' :: ':' :: key.toList ++ [' ']) <+: text := by
  generalize hrecord : Value.record id f ((key, v) :: fields) = record at h
  cases h with
  | node visited =>
    rw [← hrecord, hvisits] at visited
    contradiction
  | sequence sequence =>
    rw [← hrecord] at sequence
    contradiction
  | empty => cases hrecord
  | @record _ _ _ _ _ _ gap value pairs close mapping unvisited first solid rest blank follows =>
    cases hrecord
    rw [follows]
    refine ⟨value ++ pairs ++ close ++ [')'], ?_⟩
    simp
  | atom atomic =>
    rw [← hrecord, isAtomic, hmapping] at atomic
    contradiction

theorem Written.first_field {options : Options} {lead : List Char → List Char → Prop}
    {place : Place} {n : Node} {key : String} {v : Value} {fields : List (String × Value)}
    {text : List Char} (h : Written options lead place n.value text)
    (hvisits : place.visits n.value = true) (hentries : entries options n = (key, v) :: fields)
    : ∃ value, value <:+: text ∧ Written options lead .field v value := by
  generalize hrecord : n.value = record at h
  cases h with
  | @node _ m pairs close visited shown blank =>
    have hsame : m = n := by
      have hm := Node.ofValue?_eq_some.2 hrecord
      rw [Node.ofValue?_eq_some.2 rfl] at hm
      exact Option.some.inj hm
    rw [hsame, hentries] at shown
    cases shown with
    | @cons _ _ _ _ gap value rest isGap written solid later =>
      refine ⟨value, ⟨'(' :: (m.kind.toList ++ gap ++ ':' :: key.toList ++ [' ']),
        rest ++ close ++ [')'], ?_⟩, written⟩
      simp
  | sequence sequence =>
    obtain ⟨id, f, members, hnode⟩ := n.exists_record
    rw [← hrecord, hnode] at sequence
    contradiction
  | empty mapping unvisited =>
    rw [← hrecord, hvisits] at unvisited
    contradiction
  | record mapping unvisited =>
    rw [← hrecord, hvisits] at unvisited
    contradiction
  | atom atomic unvisited =>
    rw [← hrecord, hvisits] at unvisited
    contradiction

/--
The first keyword of a record can be parted from its value: the text of the sample cannot be read as
one in which all keywords and values stand together.
-/
theorem first_keyword_parted
    : ∃ e, (dump {} (.all : Strategy Script.Failure) sampleBroken.value
          (Strategy.all_finiteFrom _)).1 = .ok e
        ∧ text SExpr.oneLine true e = sampleBrokenText
        ∧ ¬ Written {} Together .item sampleBroken.value (text SExpr.oneLine true e).toList := by
  obtain ⟨e, hdump, htext⟩ := dump_sampleBroken
  refine ⟨e, hdump, htext, ?_⟩
  intro hwritten
  rw [htext] at hwritten
  obtain ⟨value, hinfix, hvalue⟩ := hwritten.first_field (by decide) (by rfl)
  have htogether := (hvalue.first_keyword rfl (by decide)).isInfix.trans hinfix
  revert htogether
  decide +kernel

end Arbor.Dump
