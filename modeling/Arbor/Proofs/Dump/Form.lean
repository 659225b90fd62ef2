import Arbor.Dump
import Arbor.Proofs.Value.Parts
import Arbor.Proofs.Walk.History
import Arbor.Proofs.Walk.TwoPhase

/-!
This module gives the form of a tree by recursion over its values, without a walk and without slots.
Main statement: the walk of a dump leaves this form behind (`dump_form`).
-/

namespace Arbor

namespace Strategy

variable {ε : Type}

def keeps (strategy : Strategy ε) (n : Node) (e : Edge) : Bool :=
  (strategy n).entries.any (·.1 = e)

/-- A strategy that lists, without failure, some of the children of each node in their order. -/
def Selects (strategy : Strategy ε) : Prop :=
  ∀ n, (strategy n).failure = none ∧ (strategy n).entries.Sublist n.value.children

theorem all_selects : (all : Strategy ε).Selects :=
  fun _ => ⟨rfl, List.Sublist.refl _⟩

theorem Selects.descends {strategy : Strategy ε} (h : strategy.Selects) : strategy.Descends :=
  fun n _ _ hc => Value.sizeOf_child_lt ((h n).2.subset hc)

end Strategy

namespace Dump

def isShown (f : Form) (key : String) : Bool :=
  (f.listsHidden || !Value.isHidden key) && !hiddenFields.contains key

def placed (kept : Bool) (v : Value) (own : SExpr) : SExpr :=
  match v.kind? with
  | some kind => if kept then own else unvisited kind
  | none => scalarForm v

mutual

/-- The form of a value, where it is known which children of a node are kept. -/
def form (options : Options) (keeps : Node → Edge → Bool) : Value → SExpr
  | .record id f fields =>
    match Node.ofValue? (.record id f fields) with
    | some n =>
      .list (.symbol n.kind :: fieldForms options keeps n f fields ++ locationForm options n.value)
    | none => scalarForm (.record id f fields)
  | v => scalarForm v

def fieldForms (options : Options) (keeps : Node → Edge → Bool) (n : Node) (f : Form) :
    List (String × Value) → List SExpr
  | [] => []
  | (key, v) :: rest =>
    let later := fieldForms options keeps n f rest
    if isShown f key then
      match v with
      | .list items | .tuple items =>
        .keyword key :: .brackets (itemForms options keeps n key 0 items) :: later
      | v => .keyword key :: placed (keeps n ⟨key, none⟩) v (form options keeps v) :: later
    else later

def itemForms (options : Options) (keeps : Node → Edge → Bool) (n : Node) (key : String) :
    Nat → List Value → List SExpr
  | _, [] => []
  | i, v :: rest =>
    placed (keeps n ⟨key, some i⟩) v (form options keeps v) ::
      itemForms options keeps n key (i + 1) rest

end

def valueForm (options : Options) (keeps : Node → Edge → Bool) (n : Node) (key : String) :
    Value → SExpr
  | .list items | .tuple items => .brackets (itemForms options keeps n key 0 items)
  | v => placed (keeps n ⟨key, none⟩) v (form options keeps v)

theorem fieldForms_cons (options : Options) (keeps : Node → Edge → Bool) (n : Node) (f : Form)
    (key : String) (v : Value) (rest : List (String × Value))
    : fieldForms options keeps n f ((key, v) :: rest) =
        if isShown f key then
          .keyword key :: valueForm options keeps n key v :: fieldForms options keeps n f rest
        else fieldForms options keeps n f rest := by
  cases v <;> rfl

variable {ε : Type} {strategy : Strategy ε}

def filled (g : Node → SExpr) (entries : List (Edge × Node)) : Slots :=
  (entries.map fun (e, c) => (e, g c)).reverse

theorem lookup_filled {g : Node → SExpr} {n c : Node} {e : Edge} (hselects : strategy.Selects)
    (hnames : n.value.hasDistinctNames = true) (hc : (e, c) ∈ n.value.children)
    : (filled g (strategy n).entries).lookup e =
        if strategy.keeps n e then some (g c) else none := by
  have hsub := (hselects n).2
  have hnodup := Value.nodup_edges hnames
  by_cases hkeeps : strategy.keeps n e = true
  · rw [if_pos hkeeps]
    obtain ⟨⟨e', c'⟩, hentry, he⟩ := List.any_eq_true.1 hkeeps
    rw [decide_eq_true_eq] at he
    subst he
    have hsame := List.inj_on_of_nodup_map hnodup (hsub.subset hentry) hc rfl
    injection hsame with _ hsame
    subst hsame
    apply lookup_of_nodup
    · rw [filled, List.map_reverse, List.nodup_reverse, List.map_map]
      exact (hsub.map _).nodup hnodup
    · rw [filled, List.mem_reverse]
      exact List.mem_map_of_mem hentry
  · rw [if_neg hkeeps, List.lookup_eq_none_iff]
    intro slot hslot
    rw [filled, List.mem_reverse] at hslot
    obtain ⟨entry, hentry, rfl⟩ := List.mem_map.1 hslot
    rw [bne_iff_ne]
    intro he
    apply hkeeps
    exact List.any_eq_true.2 ⟨entry, hentry, decide_eq_true he.symm⟩

theorem form_node {options : Options} {keeps : Node → Edge → Bool} {n : Node} {id : Nat} {f : Form}
    {fields : List (String × Value)} (h : n.value = .record id f fields)
    : form options keeps n.value =
        .list (.symbol n.kind :: fieldForms options keeps n f fields ++
          locationForm options n.value) := by
  rw [h, form, ← h, Node.ofValue?_eq_some.2 rfl]

theorem form_scalar {options : Options} {keeps : Node → Edge → Bool} {v : Value}
    (h : v.kind? = none) : form options keeps v = scalarForm v := by
  cases v with
  | record id f fields =>
    rw [form]
    split
    next n hn =>
      rw [← Node.ofValue?_eq_some.1 hn, n.kind_eq] at h
      contradiction
    next => rfl
  | _ => rfl

theorem shown_eq (id : Nat) (f : Form) (fields : List (String × Value))
    : (Value.record id f fields).fields.filter (fun (key, _) => !hiddenFields.contains key) =
        fields.filter fun (key, _) => isShown f key := by
  rw [Value.fields]
  cases hlists : f.listsHidden with
  | true => simp [isShown, hlists]
  | false => simp [isShown, hlists, List.filter_filter, Bool.and_comm]

theorem mem_fields_of_isShown {id : Nat} {f : Form} {fields : List (String × Value)} {key : String}
    {v : Value} (hfield : (key, v) ∈ fields) (hshown : isShown f key = true)
    : (key, v) ∈ (Value.record id f fields).fields := by
  apply List.mem_of_mem_filter
  rw [shown_eq]
  exact List.mem_filter.2 ⟨hfield, hshown⟩

theorem flatMap_eq_fieldForms {options : Options} {keeps : Node → Edge → Bool} {n : Node}
    {f : Form} {slots : Slots} {fields : List (String × Value)}
    (h : ∀ key v, (key, v) ∈ fields → isShown f key = true →
      fieldForm slots key v = valueForm options keeps n key v)
    : ((fields.filter fun (key, _) => isShown f key).flatMap fun (key, v) =>
          [.keyword key, fieldForm slots key v]) =
        fieldForms options keeps n f fields := by
  induction fields with
  | nil => rfl
  | cons field rest ih =>
    obtain ⟨key, v⟩ := field
    rw [fieldForms_cons, ← ih fun key v hv => h key v (List.mem_cons_of_mem _ hv)]
    by_cases hshown : isShown f key = true
    · simp [hshown, h key v (List.mem_cons_self ..) hshown]
    · simp [hshown]

section Node

variable (options : Options) {n : Node} (hselects : strategy.Selects)
  (hnames : n.value.hasDistinctNames = true)

include hselects hnames

theorem placedForm_eq {e : Edge} {v : Value}
    (h : ∀ c : Node, c.value = v → (e, c) ∈ n.value.children)
    : placedForm (filled (fun c => form options strategy.keeps c.value) (strategy n).entries) e v =
        placed (strategy.keeps n e) v (form options strategy.keeps v) := by
  unfold placedForm placed
  cases hkind : v.kind? with
  | none => rfl
  | some kind =>
    dsimp only
    rw [lookup_filled hselects hnames (h ⟨v, kind, hkind⟩ rfl)]
    split <;> rfl

theorem itemForms_eq {key : String} {value : Value} (hfield : (key, value) ∈ n.value.fields)
    (hvalue : Node.ofValue? value = none) (items before : List Value)
    (hitems : value.items = before ++ items)
    : (items.zipIdx before.length).map (fun (item, i) =>
          placedForm (filled (fun c => form options strategy.keeps c.value) (strategy n).entries)
            ⟨key, some i⟩ item) =
        itemForms options strategy.keeps n key before.length items := by
  induction items generalizing before with
  | nil => rfl
  | cons item rest ih =>
    rw [List.zipIdx_cons, List.map_cons, itemForms]
    have hrest := ih (before ++ [item]) (by rw [hitems, List.append_assoc]; rfl)
    rw [List.length_append, List.length_singleton] at hrest
    dsimp only
    rw [hrest, placedForm_eq options hselects hnames]
    exact fun c hc => Value.mem_children_behind hfield hvalue hitems hc

theorem fieldForm_eq {key : String} {v : Value} (hfield : (key, v) ∈ n.value.fields)
    : fieldForm (filled (fun c => form options strategy.keeps c.value) (strategy n).entries) key v =
        valueForm options strategy.keeps n key v := by
  have hplaced := placedForm_eq options hselects hnames (e := ⟨key, none⟩) (v := v)
    (fun c hc => Value.mem_children_field hfield hc)
  have hitems := itemForms_eq options hselects hnames hfield
  unfold fieldForm
  cases v with
  | list items | tuple items => exact congrArg SExpr.brackets (hitems rfl items [] rfl)
  | record id f fields =>
    simp only [Value.isSequence, Bool.and_false, Bool.false_eq_true, if_false]
    exact hplaced
  | _ => exact hplaced

theorem nodeForm_eq
    : nodeForm options n
          (filled (fun c => form options strategy.keeps c.value) (strategy n).entries) =
        form options strategy.keeps n.value := by
  obtain ⟨id, f, fields, hrecord⟩ := n.exists_record
  rw [form_node hrecord, nodeForm, hrecord, shown_eq, flatMap_eq_fieldForms]
  intro key v hfield hshown
  apply fieldForm_eq options hselects hnames
  rw [hrecord]
  exact mem_fields_of_isShown hfield hshown

end Node

open Walk

variable [Described ε] {options : Options} {keeps : Node → Edge → Bool}

/--
What becomes of the stores when slots are added to one of them: the others are as they were, and new
stores may come behind.
-/
structure Adds (id : SlotsId) (slots : Slots) (stores stores' : Stores) : Prop where
  size : stores.size ≤ stores'.size
  added : stores'[id]? = stores[id]?.map (slots ++ ·)
  frame : ∀ other < stores.size, other ≠ id → stores'[other]? = stores[other]?

theorem Adds.refl (id : SlotsId) (stores : Stores) : Adds id [] stores stores := by
  refine ⟨Nat.le_refl _, ?_, fun _ _ _ => rfl⟩
  exact Option.map_id'.symm

theorem Adds.trans {id : SlotsId} {slots slots' : Slots} {stores stores' stores'' : Stores}
    (h : Adds id slots stores stores') (h' : Adds id slots' stores' stores'')
    : Adds id (slots' ++ slots) stores stores'' := by
  refine ⟨Nat.le_trans h.size h'.size, ?_, ?_⟩
  · rw [h'.added, h.added, Option.map_map]
    apply Option.map_congr
    intro before _
    exact (List.append_assoc slots' slots before).symm
  · intro other hother hne
    rw [h'.frame other (Nat.lt_of_lt_of_le hother h.size) hne, h.frame other hother hne]

omit [Described ε] in
theorem Adds.exit {id : SlotsId} {slots : Slots} {stores stores' : Stores} (hid : id < stores.size)
    (h : Adds stores.size slots (stores.push []) stores') (options : Options) (n : Node)
    (path : Path)
    : ∃ stores'', (Dump.exit options ⟨n, id, path⟩ stores.size stores' : Except ε Unit × Stores) =
          (.ok (), stores'')
      ∧ Adds id [(path.lastEdge?.getD rootEdge, nodeForm options n slots)] stores stores'' := by
  have hsize := h.size
  rw [Array.size_push] at hsize
  have hown : stores'[stores.size]?.getD [] = slots := by
    rw [h.added, Array.getElem?_push_size, Option.map_some, List.append_nil, Option.getD_some]
  have hkept : ∀ other < stores.size, stores'[other]? = stores[other]? := by
    intro other hother
    rw [h.frame other (by rw [Array.size_push]; omega) (Nat.ne_of_lt hother),
      Array.getElem?_push_lt hother, Array.getElem?_eq_getElem hother]
  refine ⟨_, rfl, ?_, ?_, ?_⟩
  · rw [Array.size_modify]
    omega
  · rw [Array.getElem?_modify, if_pos rfl, hown, hkept id hid]
    rfl
  · intro other hother hne
    rw [Array.getElem?_modify, if_neg (Ne.symm hne), hkept other hother]

def Fills (options : Options) (keeps : Node → Edge → Bool) (outline : Outline ε) : Prop :=
  ∀ (path : Path) (id : SlotsId) (s : Session Stores), id < s.state.size →
    ∃ s', visit (visitor options) id path outline s = (.ok (), s')
      ∧ Adds id [(path.lastEdge?.getD rootEdge, form options keeps outline.node.value)]
        s.state s'.state

theorem visitAll_fills {children : List (Edge × Outline ε)}
    (h : ∀ entry ∈ children, Fills options keeps entry.2) (path : Path) (n : Node) {id : SlotsId}
    {s : Session Stores} (hid : id < s.state.size)
    : ∃ s', visitAll (visitor options) id path n children none s = (.ok (), s')
      ∧ Adds id (children.map fun (e, child) => (e, form options keeps child.node.value)).reverse
        s.state s'.state := by
  induction children generalizing s with
  | nil => exact ⟨s, rfl, .refl id s.state⟩
  | cons entry later ih =>
    obtain ⟨e, child⟩ := entry
    obtain ⟨s₁, hvisit, hs₁⟩ := h (e, child) (List.mem_cons_self ..) (path.descend n e) id s hid
    have hedge : (path.descend n e).lastEdge? = some e := by
      simp [Path.descend, Path.lastEdge?]
    rw [hedge, Option.getD_some] at hs₁
    obtain ⟨s', hall, hs'⟩ := ih (fun entry hentry => h entry (List.mem_cons_of_mem _ hentry))
      (Nat.lt_of_lt_of_le hid hs₁.size)
    refine ⟨s', ?_, ?_⟩
    · rw [visitAll, hvisit]
      exact hall
    · rw [List.map_cons, List.reverse_cons]
      exact hs₁.trans hs'

theorem fills_outline (hselects : strategy.Selects) {n : Node} (hfinite : Acc strategy.IsChild n)
    (hnames : n.value.everywhere Value.hasDistinctNames = true)
    : Fills options strategy.keeps (strategy.outline n hfinite) := by
  induction hfinite with
  | intro n hacc ih =>
    intro path id s hid
    have hchildren : ∀ entry ∈ (strategy.outline n ⟨n, hacc⟩).children,
        Fills options strategy.keeps entry.2 := by
      intro entry hentry
      obtain ⟨c, hc, hfinite, houtline⟩ := Strategy.mem_children_outline hentry
      rw [houtline]
      apply ih c ⟨_, hc⟩
      exact Value.everywhere_child hnames ((hselects n).2.subset hc)
    -- the node gets slots of its own, which its children fill one after the other
    let entered : Session Stores :=
      { s.arrive path.length with state := s.state.push [] }
    have hown : s.state.size < entered.state.size := by
      rw [Array.size_push]
      exact Nat.lt_succ_self _
    obtain ⟨s₁, hall, hs₁⟩ := visitAll_fills hchildren path n hown
    rw [Strategy.map_children_outline strategy n _ fun c => form options strategy.keeps c.value]
      at hs₁
    obtain ⟨stores, hexit, hadds⟩ := hs₁.exit hid options n path
    have hform := nodeForm_eq options hselects (Value.everywhere_self hnames)
    rw [filled] at hform
    rw [hform] at hadds
    rw [Strategy.outline_eq_mk, (hselects n).1, visitor, visit_twoPhase, ← visitor]
    dsimp only [enter, Override.apply]
    rw [hall]
    dsimp only
    rw [hexit]
    exact ⟨_, rfl, hadds⟩

theorem dump_form (options : Options) (hselects : strategy.Selects) {root : Node}
    (finite : strategy.FiniteFrom root.value)
    (hnames : root.value.everywhere Value.hasDistinctNames = true)
    : (dump options strategy root.value finite).1 =
        .ok (form options strategy.keeps root.value) := by
  have hfills : Fills options strategy.keeps (strategy.unfolding root finite) :=
    fills_outline hselects _ hnames
  let started : Session Stores := Session.record { state := #[[]] } (.walkStarted root.kind)
  obtain ⟨s, hvisit, hs⟩ := hfills [] rootSlots started Nat.zero_lt_one
  have hstart : (Session.restart { state := #[[]] }).record (.walkStarted root.kind) = started :=
    rfl
  have hroot : s.state[rootSlots]? = some [(rootEdge, form options strategy.keeps root.value)] := by
    rw [hs.added, Strategy.unfolding_node]
    rfl
  rw [dump, walk_eq_visit, hstart, hvisit]
  simp only [Session.record, rootForm, hroot]
  simp

section Congr

variable {options : Options} {keeps keeps' : Node → Edge → Bool}
  (hkeeps : ∀ n e c, (e, c) ∈ n.value.children → keeps n e = keeps' n e)

section Node

variable {n : Node}
  (h : ∀ e c, (e, c) ∈ n.value.children →
    form options keeps c.value = form options keeps' c.value)

include hkeeps h

theorem placed_congr {e : Edge} {v : Value}
    (hplace : ∀ c : Node, c.value = v → (e, c) ∈ n.value.children)
    : placed (keeps n e) v (form options keeps v) =
        placed (keeps' n e) v (form options keeps' v) := by
  unfold placed
  cases hkind : v.kind? with
  | none => rfl
  | some kind =>
    have hchild := hplace ⟨v, kind, hkind⟩ rfl
    rw [hkeeps n e _ hchild, h e _ hchild]

theorem itemForms_congr {key : String} {value : Value} (hfield : (key, value) ∈ n.value.fields)
    (hvalue : Node.ofValue? value = none) (items before : List Value)
    (hitems : value.items = before ++ items)
    : itemForms options keeps n key before.length items =
        itemForms options keeps' n key before.length items := by
  induction items generalizing before with
  | nil => rfl
  | cons item rest ih =>
    have hrest := ih (before ++ [item]) (by rw [hitems, List.append_assoc]; rfl)
    rw [List.length_append, List.length_singleton] at hrest
    rw [itemForms, itemForms, hrest, placed_congr hkeeps h]
    exact fun c hc => Value.mem_children_behind hfield hvalue hitems hc

theorem valueForm_congr {key : String} {v : Value} (hfield : (key, v) ∈ n.value.fields)
    : valueForm options keeps n key v = valueForm options keeps' n key v := by
  have hplaced := placed_congr hkeeps h (e := ⟨key, none⟩) (v := v)
    (fun c hc => Value.mem_children_field hfield hc)
  have hitems := itemForms_congr hkeeps h hfield
  cases v with
  | list items | tuple items => exact congrArg SExpr.brackets (hitems rfl items [] rfl)
  | _ => exact hplaced

end Node

theorem fieldForms_congr {n : Node} {f : Form} {fields : List (String × Value)}
    (h : ∀ key v, (key, v) ∈ fields → isShown f key = true →
      valueForm options keeps n key v = valueForm options keeps' n key v)
    : fieldForms options keeps n f fields = fieldForms options keeps' n f fields := by
  induction fields with
  | nil => rfl
  | cons field rest ih =>
    obtain ⟨key, v⟩ := field
    rw [fieldForms_cons, fieldForms_cons, ih fun key v hv => h key v (List.mem_cons_of_mem _ hv)]
    split
    next hshown => rw [h key v (List.mem_cons_self ..) hshown]
    next => rfl

include hkeeps in
theorem form_congr (n : Node) : form options keeps n.value = form options keeps' n.value := by
  induction Strategy.all_descends.acc (s := (Strategy.all : Strategy Empty)) n with
  | intro n _ ih =>
    obtain ⟨id, f, fields, hrecord⟩ := n.exists_record
    rw [form_node hrecord, form_node hrecord, fieldForms_congr]
    intro key v hfield hshown
    apply valueForm_congr hkeeps fun e c hc => ih c ⟨e, hc⟩
    rw [hrecord]
    exact mem_fields_of_isShown hfield hshown

end Congr

def keepsAll : Node → Edge → Bool :=
  fun _ _ => true

theorem dump_all (options : Options) {root : Node}
    (hnames : root.value.everywhere Value.hasDistinctNames = true)
    : (dump options (.all : Strategy ε) root.value (Strategy.all_finiteFrom _)).1 =
        .ok (form options keepsAll root.value) := by
  have hkeeps : ∀ n e c, (e, c) ∈ n.value.children →
      (Strategy.all : Strategy ε).keeps n e = keepsAll n e :=
    fun _ _ _ hchild => List.any_eq_true.2 ⟨_, hchild, decide_eq_true rfl⟩
  rw [dump_form options Strategy.all_selects _ hnames, form_congr hkeeps]

end Dump

end Arbor
