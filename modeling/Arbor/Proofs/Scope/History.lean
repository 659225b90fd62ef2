import Mathlib.Data.List.Flatten
import Mathlib.Data.List.Sort
import Arbor.Proofs.Scope.Table

/-!
This module is about tables of scopes under any use: scopes are created inside of one another, or of
none, and names are declared in them, in whatever order. A history is the list of these uses. All
tables that histories yield are linked (`yields_table`), and from that follows what is listed from a
scope inwards. What a table answers is told here by the history alone, where the chain of a scope is
found by going from each scope to the parent it was created with. Main statement: `answers_history`.
-/

namespace Arbor

namespace ScopeTable

variable {t : ScopeTable}

theorem mem_chain_or {x c d : Nat} (hc : c ∈ t.chain x) (hd : d ∈ t.chain x)
    : c ∈ t.chain d ∨ d ∈ t.chain c := by
  induction x using Nat.strongRecOn with
  | ind x ih =>
    rcases mem_chain hc with rfl | ⟨parent, hparent, hc'⟩
    · exact .inr hd
    · rcases mem_chain hd with rfl | ⟨parent', hparent', hd'⟩
      · exact .inl hc
      · rw [hparent, Option.some.injEq] at hparent'
        subst hparent'
        exact ih parent (parent_lt hparent) hc' hd'

theorem eq_of_siblings {id c d x : Nat} (hc : t.parent? c = some id) (hd : t.parent? d = some id)
    (hcx : c ∈ t.chain x) (hdx : d ∈ t.chain x) : c = d := by
  have inside : ∀ {c d : Nat}, t.parent? c = some id → t.parent? d = some id → c ∈ t.chain d →
      c = d := by
    intro c d hc hd hmem
    rw [chain_child hd, List.mem_cons] at hmem
    rcases hmem with heq | hmem
    · exact heq
    · have hlt := parent_lt hc
      have hle := le_of_mem_chain hmem
      omega
  rcases mem_chain_or hcx hdx with hmem | hmem
  · exact inside hc hd hmem
  · exact (inside hd hc hmem).symm

theorem chain_declare (owner : ScopeId) (name : String) (node : Value) (id : ScopeId)
    : (t.declare owner name node).chain id = t.chain id := by
  induction id using Nat.strongRecOn with
  | ind id ih =>
    rw [chain_eq, chain_eq, parent?_declare]
    cases hparent : t.parent? id with
    | none => rfl
    | some p => exact congrArg (id :: ·) (ih p (parent_lt hparent))

namespace Linked

theorem nodup_preorder (h : t.Linked) {id : Nat} (hid : id < t.size)
    : (t.preorder id).Nodup := by
  induction hk : t.size - id using Nat.strongRecOn generalizing id with
  | ind k ih =>
    have below : ∀ {c x : Nat}, c ∈ t.children id → x ∈ t.preorder c →
        t.parent? c = some id ∧ c ∈ t.chain x := by
      intro c x hc hx
      rw [h.mem_children] at hc
      exact ⟨hc, ((h.mem_preorder (lt_size_of_parent? hc)).1 hx).2⟩
    rw [preorder_eq, List.nodup_cons, List.nodup_flatMap]
    refine ⟨?_, ?_, ?_⟩
    · intro hmem
      obtain ⟨c, hc, hmem⟩ := List.mem_flatMap.1 hmem
      obtain ⟨hparent, hchain⟩ := below hc hmem
      have := parent_lt hparent
      have := le_of_mem_chain hchain
      omega
    · intro c hc
      rw [h.mem_children] at hc
      have := parent_lt hc
      exact ih (t.size - c) (by omega) (lt_size_of_parent? hc) rfl
    · refine (h.nodup_children id).imp_of_mem ?_
      intro c d hc hd hne x hx hx'
      obtain ⟨hparent, hchain⟩ := below hc hx
      obtain ⟨hparent', hchain'⟩ := below hd hx'
      exact hne (eq_of_siblings hparent hparent' hchain hchain')

theorem sublist_preorder (h : t.Linked) {id inner : Nat} (hid : id < t.size)
    (hinner : inner ∈ t.preorder id) : (t.preorder inner).Sublist (t.preorder id) := by
  induction hk : t.size - id using Nat.strongRecOn generalizing id with
  | ind k ih =>
    rw [preorder_eq, List.mem_cons, List.mem_flatMap] at hinner
    rcases hinner with rfl | ⟨c, hc, hinner⟩
    · apply List.Sublist.refl
    · have hparent := h.mem_children.1 hc
      have hlt := parent_lt hparent
      have hbelow := ih (t.size - c) (by omega) (lt_size_of_parent? hparent) hinner rfl
      rw [preorder_eq t id, List.flatMap_def]
      apply List.Sublist.cons
      apply hbelow.trans
      apply List.sublist_flatten_of_mem
      exact List.mem_map_of_mem hc

theorem siblings_preorder (h : t.Linked) {id x y parent : Nat} (hid : id < t.size)
    (hx : x ∈ t.preorder id) (hy : y ∈ t.preorder id) (hxparent : t.parent? x = some parent)
    (hyparent : t.parent? y = some parent) (hlt : x < y) : [x, y].Sublist (t.preorder id) := by
  obtain ⟨hsize, hchain⟩ := (h.mem_preorder hid).1 hx
  rw [chain_child hxparent, List.mem_cons] at hchain
  rcases hchain with rfl | hchain
  · rw [preorder_eq, List.mem_cons] at hy
    rw [preorder_eq]
    rcases hy with rfl | hy
    · omega
    · apply List.Sublist.cons_cons
      exact List.singleton_sublist.2 hy
  · have hplt := parent_lt hxparent
    have hparent : parent ∈ t.preorder id := (h.mem_preorder hid).2 ⟨by omega, hchain⟩
    apply List.Sublist.trans ?_ (h.sublist_preorder hid hparent)
    rw [preorder_eq]
    apply List.Sublist.cons
    have hchildren : [x, y].Sublist (t.children parent) := by
      have hmem : [x, y] ⊆ t.children parent := by
        simp [h.mem_children, hxparent, hyparent]
      have hnodup : [x, y].Nodup := by simp [Nat.ne_of_lt hlt]
      apply List.sublist_of_subperm_of_pairwise (List.subperm_of_subset hnodup hmem) ?_
        (h.pairwise_children parent)
      simp [hlt]
    apply List.Sublist.trans ?_ (hchildren.flatMap t.preorder)
    rw [List.flatMap_cons, List.flatMap_singleton, preorder_eq t x, preorder_eq t y]
    apply List.Sublist.cons_cons
    apply List.Sublist.trans ?_ (List.sublist_append_right _ _)
    apply List.Sublist.cons_cons
    apply List.nil_sublist

theorem parent_preorder (h : t.Linked) {id x parent : Nat} (hid : id < t.size)
    (hx : x ∈ t.preorder id) (hne : x ≠ id) (hparent : t.parent? x = some parent)
    : [parent, x].Sublist (t.preorder id) := by
  obtain ⟨hsize, hchain⟩ := (h.mem_preorder hid).1 hx
  rw [chain_child hparent, List.mem_cons] at hchain
  rcases hchain with heq | hchain
  · exact absurd heq.symm hne
  · have hplt := parent_lt hparent
    have hmem : parent ∈ t.preorder id := (h.mem_preorder hid).2 ⟨by omega, hchain⟩
    apply List.Sublist.trans ?_ (h.sublist_preorder hid hmem)
    rw [preorder_eq]
    apply List.Sublist.cons_cons
    rw [List.singleton_sublist, List.mem_flatMap]
    refine ⟨x, h.mem_children.2 hparent, ?_⟩
    rw [preorder_eq]
    exact List.mem_cons_self ..

end Linked

end ScopeTable

namespace Scope

inductive Use where
  | create (label : String) (node : Value) (parent : Option ScopeId)
  | declare (owner : ScopeId) (name : String) (node : Value)

structure Origin where
  label : String
  node : Value
  parent : Option ScopeId

namespace Use

def perform (t : ScopeTable) : Use → ScopeTable
  | .create label node parent => (t.openScope (.ofText label) node parent).1
  | .declare owner name node => t.declare owner name node

def isPossible (count : Nat) : Use → Bool
  | .create _ _ parent => parent.all (· < count)
  | .declare owner _ _ => owner < count

def origin? : Use → Option Origin
  | .create label node parent => some ⟨label, node, parent⟩
  | .declare _ _ _ => none

def entry? (id : ScopeId) : Use → Option (String × Value)
  | .create _ _ _ => none
  | .declare owner name node => if owner = id then some (name, node) else none

end Use

/-- The uses of scopes in their order. A scope is named by how many were created before it. -/
abbrev History := List Use

namespace History

def table (uses : History) : ScopeTable :=
  uses.foldl Use.perform .empty

def origins (uses : History) : List Origin :=
  uses.filterMap Use.origin?

def parent? (uses : History) (id : ScopeId) : Option ScopeId :=
  uses.origins[id]?.bind (·.parent)

def isBlock (uses : History) (id : ScopeId) : Bool :=
  uses.origins[id]?.any (·.label = "block")

def entries (uses : History) (id : ScopeId) : List (String × Value) :=
  uses.filterMap (Use.entry? id)

def isPossibleFrom : Nat → History → Bool
  | _, [] => true
  | count, use :: rest =>
    use.isPossible count && isPossibleFrom (count + use.origin?.toList.length) rest

def isPossible (uses : History) : Bool :=
  isPossibleFrom 0 uses

/-- The chain of a scope: the scope, its parent, and so on, up to one without a parent. -/
inductive Chain (uses : History) : ScopeId → List ScopeId → Prop where
  | top {id : ScopeId} {origin : Origin} (created : uses.origins[id]? = some origin)
      (parent : origin.parent = none) : Chain uses id [id]
  | inside {id outer : ScopeId} {origin : Origin} {chain : List ScopeId}
      (created : uses.origins[id]? = some origin) (parent : origin.parent = some outer)
      (above : Chain uses outer chain) : Chain uses id (id :: chain)

theorem getElem?_origins_create (uses : History) (label : String) (node : Value)
    (parent : Option ScopeId) (id : Nat)
    : (origins (uses ++ [.create label node parent]))[id]? =
        if id = uses.origins.length then some ⟨label, node, parent⟩ else uses.origins[id]? := by
  have hcreate : origins (uses ++ [.create label node parent]) =
      uses.origins ++ [⟨label, node, parent⟩] := by
    simp [origins, Use.origin?]
  rw [hcreate]
  by_cases hid : id = uses.origins.length
  · simp [hid]
  · rw [if_neg hid]
    rcases Nat.lt_or_gt_of_ne hid with hlt | hgt
    · rw [List.getElem?_append_left hlt]
    · have hnone : uses.origins[id]? = none := List.getElem?_eq_none (Nat.le_of_lt hgt)
      rw [hnone, List.getElem?_eq_none]
      simp only [List.length_append, List.length_singleton]
      omega

theorem origins_declare (uses : History) (owner : ScopeId) (name : String) (node : Value)
    : origins (uses ++ [.declare owner name node]) = uses.origins := by
  simp [origins, Use.origin?]

theorem entries_create (uses : History) (label : String) (node : Value) (parent : Option ScopeId)
    (id : ScopeId) : entries (uses ++ [.create label node parent]) id = uses.entries id := by
  simp [entries, Use.entry?]

theorem entries_declare (uses : History) (owner : ScopeId) (name : String) (node : Value)
    (id : ScopeId)
    : entries (uses ++ [.declare owner name node]) id =
        if owner = id then uses.entries id ++ [(name, node)] else uses.entries id := by
  by_cases howner : owner = id <;> simp [entries, Use.entry?, howner]

theorem isSome_lookup (entries : List (String × Value)) (name : String)
    : (entries.lookup name).isSome = decide (name ∈ entries.map (·.1)) := by
  rw [Bool.eq_iff_iff, decide_eq_true_eq, List.lookup_isSome_iff, List.mem_map]
  constructor
  · rintro ⟨entry, hentry, hname⟩
    exact ⟨entry, hentry, (beq_iff_eq.1 hname).symm⟩
  · rintro ⟨entry, hentry, rfl⟩
    exact ⟨entry, hentry, beq_self_eq_true _⟩

theorem lookup_eq_none {entries : List (String × Value)} {name : String}
    : entries.lookup name = none ↔ name ∉ entries.map (·.1) := by
  rw [← Option.not_isSome_iff_eq_none, isSome_lookup, decide_eq_true_eq]

structure Yields (uses : History) (t : ScopeTable) : Prop where
  size : t.size = uses.origins.length
  linked : t.Linked
  parent? : ∀ id, t.parent? id = uses.parent? id
  kind : ∀ id, (t.scope? id).map (·.kind) = uses.origins[id]?.map (Kind.ofText ·.label)
  declarations : ∀ id,
    ((t.scope? id).map (·.declarations)).getD [] = firstPerName (uses.entries id)

namespace Yields

variable {uses : History} {t : ScopeTable}

theorem create (h : uses.Yields t) (label : String) (node : Value) {parent : Option ScopeId}
    (hparent : ∀ p ∈ parent, p < t.size)
    : Yields (uses ++ [.create label node parent]) (t.openScope (.ofText label) node parent).1 := by
  have hfilter := t.filter_parent hparent
  refine ⟨?_, h.linked.openScope _ node parent, ?_, ?_, ?_⟩
  · rw [ScopeTable.size_openScope, h.size]
    simp [origins, Use.origin?]
  · intro id
    rw [ScopeTable.parent?_openScope, hfilter, History.parent?, getElem?_origins_create, ← h.size]
    split
    next => rfl
    next => apply h.parent?
  · intro id
    rw [ScopeTable.scope?_openScope, getElem?_origins_create, ← h.size]
    split
    next => rfl
    next =>
      rw [← h.kind id]
      split
      next => cases t.scope? id <;> rfl
      next => rfl
  · intro id
    rw [ScopeTable.scope?_openScope, entries_create, ← h.declarations id]
    split
    next heq =>
      rw [t.scope?_eq_none (Nat.le_of_eq heq.symm)]
      rfl
    next =>
      split
      next => cases t.scope? id <;> rfl
      next => rfl

theorem declare (h : uses.Yields t) {owner : ScopeId} (howner : owner < t.size) (name : String)
    (node : Value) : Yields (uses ++ [.declare owner name node]) (t.declare owner name node) := by
  refine ⟨?_, h.linked.declare owner name node, ?_, ?_, ?_⟩
  · rw [ScopeTable.size_declare, origins_declare, h.size]
  · intro id
    rw [ScopeTable.parent?_declare, History.parent?, origins_declare]
    apply h.parent?
  · intro id
    rw [ScopeTable.scope?_declare, origins_declare, ← h.kind id]
    split
    next =>
      cases t.scope? id with
      | none => rfl
      | some scope =>
        simp only [Option.map_some, Scope.declare]
        split <;> rfl
    next => rfl
  · intro id
    have hid := h.declarations id
    rw [ScopeTable.scope?_declare, entries_declare]
    split
    next heq =>
      obtain ⟨scope, hscope⟩ : ∃ scope, t.scope? id = some scope :=
        ⟨_, Array.getElem?_eq_getElem (heq ▸ howner)⟩
      rw [hscope] at hid ⊢
      rw [Option.map_some, declare_eq name node hid]
      rfl
    next => exact hid

theorem perform (h : uses.Yields t) {use : Use} (hpossible : use.isPossible t.size = true)
    : Yields (uses ++ [use]) (use.perform t)
      ∧ (use.perform t).size = t.size + use.origin?.toList.length := by
  cases use with
  | create label node parent =>
    refine ⟨h.create label node ?_, ScopeTable.size_openScope ..⟩
    intro p hp
    rw [Option.mem_def.1 hp] at hpossible
    exact of_decide_eq_true hpossible
  | declare owner name node =>
    exact ⟨h.declare (of_decide_eq_true hpossible) name node, ScopeTable.size_declare ..⟩

theorem performAll (h : uses.Yields t) {later : History}
    (hpossible : isPossibleFrom t.size later = true)
    : Yields (uses ++ later) (later.foldl Use.perform t) := by
  induction later generalizing uses t with
  | nil =>
    rw [List.append_nil]
    exact h
  | cons use rest ih =>
    rw [isPossibleFrom, Bool.and_eq_true] at hpossible
    obtain ⟨hnext, hsize⟩ := h.perform hpossible.1
    rw [List.append_cons, List.foldl_cons]
    apply ih hnext
    rw [hsize]
    exact hpossible.2

end Yields

theorem yields_empty : Yields [] .empty := by
  refine ⟨rfl, .empty, ?_, ?_, ?_⟩
  · intro id
    rfl
  · intro id
    rfl
  · intro id
    rfl

theorem yields_table {uses : History} (h : uses.isPossible = true) : uses.Yields uses.table :=
  yields_empty.performAll h

namespace Yields

variable {uses : History} {t : ScopeTable}

theorem lt_size (h : uses.Yields t) {id : Nat} {origin : Origin}
    (horigin : uses.origins[id]? = some origin) : id < t.size := by
  rw [h.size]
  exact (List.getElem?_eq_some_iff.1 horigin).1

theorem parent?_eq (h : uses.Yields t) {id : Nat} {origin : Origin}
    (horigin : uses.origins[id]? = some origin) : t.parent? id = origin.parent := by
  rw [h.parent?, History.parent?, horigin]
  rfl

theorem chain_table (h : uses.Yields t) {id : Nat} (hid : id < t.size)
    : Chain uses id (t.chain id) := by
  induction id using Nat.strongRecOn with
  | ind id ih =>
    obtain ⟨origin, horigin⟩ : ∃ origin, uses.origins[id]? = some origin :=
      ⟨_, List.getElem?_eq_getElem (h.size ▸ hid)⟩
    have hparent := h.parent?_eq horigin
    rw [ScopeTable.chain_eq, hparent]
    cases houter : origin.parent with
    | none => exact .top horigin houter
    | some outer =>
      have hlt := ScopeTable.parent_lt (hparent.trans houter)
      exact .inside horigin houter (ih outer hlt (by omega))

theorem chain_eq (h : uses.Yields t) {id : ScopeId} {chain : List ScopeId}
    (hchain : Chain uses id chain) : t.chain id = chain := by
  induction hchain with
  | top created parent =>
    rw [ScopeTable.chain_eq, h.parent?_eq created, parent]
    rfl
  | inside created parent above ih =>
    rw [ScopeTable.chain_child ((h.parent?_eq created).trans parent), ih]

theorem mem_preorder (h : uses.Yields t) {id : Nat} (hid : id < t.size) {x : ScopeId}
    : x ∈ t.preorder id ↔ ∃ chain, Chain uses x chain ∧ id ∈ chain := by
  rw [h.linked.mem_preorder hid]
  constructor
  · rintro ⟨hx, hmem⟩
    exact ⟨_, h.chain_table hx, hmem⟩
  · rintro ⟨chain, hchain, hmem⟩
    rw [h.chain_eq hchain]
    refine ⟨?_, hmem⟩
    cases hchain with
    | top created parent => exact h.lt_size created
    | inside created parent above => exact h.lt_size created

theorem declares (h : uses.Yields t) (name : String) (id : ScopeId)
    : t.declares name id = decide (name ∈ (uses.entries id).map (·.1)) := by
  have hnames : t.declares name id =
      ((((t.scope? id).map (·.declarations)).getD []).map (·.1)).contains name := by
    rw [ScopeTable.declares]
    cases t.scope? id with
    | none => rfl
    | some scope => rfl
  rw [hnames, h.declarations, Bool.eq_iff_iff, List.contains_iff_mem, mem_names_firstPerName,
    decide_eq_true_eq]

theorem isBlock (h : uses.Yields t) (id : ScopeId) : t.isBlock id = uses.isBlock id := by
  rw [ScopeTable.isBlock, h.kind, History.isBlock]
  cases uses.origins[id]? with
  | none => rfl
  | some origin =>
    have hblock : Kind.ofText origin.label = .block ↔ origin.label = "block" := by
      unfold Kind.ofText
      by_cases hmodule : origin.label = "module"
      · simp [hmodule]
      · by_cases hfunction : origin.label = "function"
        · simp [hfunction]
        · by_cases hblock : origin.label = "block" <;> simp [hmodule, hfunction, hblock]
    rw [Bool.eq_iff_iff]
    simp [hblock]

theorem lookup (h : uses.Yields t) (id : ScopeId) (name : String)
    : t.lookup id name = (t.chain id).findSome? fun s => (uses.entries s).lookup name := by
  have hdeclares : ∀ s, t.declares name s = ((uses.entries s).lookup name).isSome := by
    intro s
    rw [h.declares, isSome_lookup]
  have hown : ∀ s, ((t.scope? s).bind fun scope => scope.declarations.lookup name) =
      (uses.entries s).lookup name := by
    intro s
    have hs := h.declarations s
    rw [← lookup_firstPerName, ← hs]
    cases t.scope? s with
    | none => rfl
    | some scope => rfl
  have hbind : t.lookup id name = (t.resolve id name).bind fun s =>
      (t.scope? s).bind fun scope => scope.declarations.lookup name := rfl
  rw [hbind, ScopeTable.resolve_eq]
  simp only [hown]
  -- the first scope that declares the name is the first one that has an entry for it
  induction t.chain id with
  | nil => rfl
  | cons s chain ih =>
    rw [List.find?_cons, List.findSome?_cons, hdeclares]
    cases hs : (uses.entries s).lookup name with
    | none => exact ih
    | some node => exact hs

end Yields

structure Answers (uses : History) (t : ScopeTable) (id : ScopeId) (chain : List ScopeId) :
    Prop where
  resolve : ∀ name, t.resolve id name =
    chain.find? fun s => name ∈ (uses.entries s).map (·.1)
  lookup : ∀ name, t.lookup id name = chain.findSome? fun s => (uses.entries s).lookup name
  depth : t.depth id + 1 = chain.length
  hoist : chain.find? (fun s => !uses.isBlock s) = some (t.hoistScope id)
    ∨ (∀ s ∈ chain, uses.isBlock s = true) ∧ chain.getLast? = some (t.hoistScope id)

theorem Yields.answers {uses : History} {t : ScopeTable} (h : uses.Yields t) (id : ScopeId)
    : Answers uses t id (t.chain id) := by
  refine ⟨?_, h.lookup id, t.depth_succ id, ?_⟩
  · intro name
    rw [ScopeTable.resolve_eq]
    congr 1
    funext s
    apply h.declares
  · have hblock : t.isBlock = uses.isBlock := funext h.isBlock
    rw [ScopeTable.hoistScope_eq, hblock]
    cases hfind : (t.chain id).find? fun s => !uses.isBlock s with
    | some found => exact .inl rfl
    | none =>
      right
      constructor
      · intro s hs
        simpa using List.find?_eq_none.1 hfind s hs
      · exact t.getLast?_chain id

/--
How a declaration changes what is found from a scope with a chain: only that name, only from the
scope in which it is declared inwards, and only if the name is declared in neither that scope nor
one nearer.
-/
structure Shows (uses : History) (owner : ScopeId) (name : String) (node : Value) (id : ScopeId)
    (chain : List ScopeId) : Prop where
  changed : ∀ other,
    (table (uses ++ [.declare owner name node])).lookup id other ≠ uses.table.lookup id other →
    other = name
    ∧ (table (uses ++ [.declare owner name node])).lookup id other = some node
    ∧ ∃ inside outside, chain = inside ++ owner :: outside
      ∧ ∀ s ∈ inside ++ [owner], name ∉ (uses.entries s).map (·.1)
  answered : ∀ other, uses.table.resolve id other = some owner →
    (table (uses ++ [.declare owner name node])).lookup id other = uses.table.lookup id other

section Declaration

variable {uses : History} (owner : ScopeId) (name : String) (node : Value)

theorem lookup_entries_declare (s : ScopeId) (other : String)
    : (entries (uses ++ [.declare owner name node]) s).lookup other =
        ((uses.entries s).lookup other).or
          (if owner = s ∧ other = name then some node else none) := by
  rw [entries_declare]
  by_cases howner : owner = s
  · by_cases hname : other = name
    · simp [howner, hname, List.lookup_append]
    · have hne : (other == name) = false := beq_eq_false_iff_ne.2 hname
      simp [howner, hname, List.lookup_append, List.lookup_cons, hne]
  · simp [howner]

theorem findSome?_congr {f g : ScopeId → Option Value} {chain : List ScopeId}
    (h : ∀ s ∈ chain, f s = g s) : chain.findSome? f = chain.findSome? g := by
  induction chain with
  | nil => rfl
  | cons s rest ih =>
    rw [List.forall_mem_cons] at h
    rw [List.findSome?_cons, List.findSome?_cons, h.1, ih h.2]

theorem changed_declare {chain : List ScopeId} {other : String}
    (hchanged : (chain.findSome? fun s =>
        (entries (uses ++ [.declare owner name node]) s).lookup other) ≠
      chain.findSome? fun s => (uses.entries s).lookup other)
    : other = name
      ∧ (chain.findSome? fun s => (entries (uses ++ [.declare owner name node]) s).lookup other) =
        some node
      ∧ ∃ inside outside, chain = inside ++ owner :: outside
        ∧ ∀ s ∈ inside ++ [owner], name ∉ (uses.entries s).map (·.1) := by
  simp only [lookup_entries_declare] at hchanged ⊢
  by_cases hname : other = name
  · subst hname
    by_cases howner : owner ∈ chain
    · obtain ⟨inside, outside, rfl, hinside⟩ := List.eq_append_cons_of_mem howner
      have hsame : (inside.findSome? fun s => ((uses.entries s).lookup other).or
          (if owner = s ∧ other = other then some node else none)) =
          inside.findSome? fun s => (uses.entries s).lookup other := by
        apply findSome?_congr
        intro s hs
        have hne : owner ≠ s := by
          rintro rfl
          contradiction
        simp [hne]
      rw [List.findSome?_append, List.findSome?_append, hsame] at hchanged
      rw [List.findSome?_append, hsame]
      -- an entry that is found before the new one hides it
      cases hnearer : inside.findSome? fun s => (uses.entries s).lookup other with
      | some found =>
        rw [hnearer] at hchanged
        contradiction
      | none =>
        cases hown : (uses.entries owner).lookup other with
        | some found =>
          rw [hnearer] at hchanged
          simp [hown] at hchanged
        | none =>
          refine ⟨rfl, by simp [hown], inside, outside, rfl, ?_⟩
          intro s hs
          rw [← lookup_eq_none]
          rcases List.mem_append.1 hs with hs | hs
          · exact List.findSome?_eq_none_iff.1 hnearer s hs
          · rw [List.mem_singleton.1 hs]
            exact hown
    · refine absurd (findSome?_congr ?_) hchanged
      intro s hs
      have hne : owner ≠ s := by
        rintro rfl
        contradiction
      simp [hne]
  · refine absurd (findSome?_congr ?_) hchanged
    intro s hs
    simp [hname]

end Declaration

theorem Yields.shows {uses : History} (h : uses.Yields uses.table) {owner : ScopeId}
    (howner : owner < uses.table.size) (name : String) (node : Value) (id : ScopeId)
    : Shows uses owner name node id (uses.table.chain id) := by
  have htable : table (uses ++ [.declare owner name node]) =
      uses.table.declare owner name node := by
    simp [table, Use.perform]
  have hnext := h.declare howner name node
  rw [← htable] at hnext
  have hchain : (table (uses ++ [.declare owner name node])).chain id = uses.table.chain id := by
    rw [htable, ScopeTable.chain_declare]
  have hchange : ∀ {other},
      (table (uses ++ [.declare owner name node])).lookup id other ≠ uses.table.lookup id other →
      (((uses.table.chain id).findSome? fun s =>
          (entries (uses ++ [.declare owner name node]) s).lookup other) ≠
        (uses.table.chain id).findSome? fun s => (uses.entries s).lookup other) := by
    intro other hne
    rw [hnext.lookup, h.lookup, hchain] at hne
    exact hne
  refine ⟨?_, ?_⟩
  · intro other hne
    rw [hnext.lookup, hchain]
    exact changed_declare owner name node (hchange hne)
  · intro other hresolve
    by_contra hne
    obtain ⟨rfl, _, inside, outside, _, hnone⟩ := changed_declare owner name node (hchange hne)
    rw [(h.answers id).resolve] at hresolve
    have hfound := List.find?_some hresolve
    rw [decide_eq_true_eq] at hfound
    exact hnone owner (by simp) hfound

structure Lists (uses : History) (t : ScopeTable) (id : ScopeId) : Prop where
  mem : ∀ x, x ∈ t.preorder id ↔ ∃ chain, Chain uses x chain ∧ id ∈ chain
  once : (t.preorder id).Nodup
  parent_first : ∀ x parent, x ∈ t.preorder id → x ≠ id → uses.parent? x = some parent →
    [parent, x].Sublist (t.preorder id)
  siblings : ∀ x y parent : Nat, x ∈ t.preorder id → y ∈ t.preorder id →
    uses.parent? x = some parent → uses.parent? y = some parent → x < y →
    [x, y].Sublist (t.preorder id)

theorem Yields.lists {uses : History} {t : ScopeTable} (h : uses.Yields t) {id : ScopeId}
    (hid : id < t.size) : Lists uses t id := by
  refine ⟨?_, h.linked.nodup_preorder hid, ?_, ?_⟩
  · intro x
    exact h.mem_preorder hid
  · intro x parent hx hne hparent
    rw [← h.parent?] at hparent
    exact h.linked.parent_preorder hid hx hne hparent
  · intro x y parent hx hy hxparent hyparent hlt
    rw [← h.parent?] at hxparent hyparent
    exact h.linked.siblings_preorder hid hx hy hxparent hyparent hlt

/--
How a scope is linked. The links to parents never lead back to where they started, and the links to
children are the same ones the other way round.
-/
structure Links (uses : History) (t : ScopeTable) (id : ScopeId) : Prop where
  parent : t.parent? id = uses.parent? id
  acyclic : ∀ parent, t.parent? id = some parent → id ∉ t.chain parent
  children : t.children id =
    (List.range uses.origins.length).filter fun c => uses.parent? c = some id

theorem Yields.links {uses : History} {t : ScopeTable} (h : uses.Yields t) (id : ScopeId)
    : Links uses t id := by
  refine ⟨h.parent? id, ?_, ?_⟩
  · intro parent hparent hmem
    have hlt := ScopeTable.parent_lt hparent
    have hle := ScopeTable.le_of_mem_chain hmem
    exact Nat.not_lt.2 hle hlt
  · rw [h.linked.children id, h.size]
    apply List.filter_congr
    intro c _
    rw [h.parent? c, Bool.eq_iff_iff, beq_iff_eq, decide_eq_true_eq]

/--
What the scopes of a table answer, after any uses of them. From each scope a name is found in the
nearest scope of its chain that declares it, with its first entry there; a declaration shows in no
other answer than it should; and the scopes from a scope inwards are those with it in their chains.
-/
theorem answers_history (uses : History) (hpossible : uses.isPossible = true) (id : ScopeId)
    (hid : id < uses.origins.length)
    : ∃ chain, Chain uses id chain ∧ Answers uses uses.table id chain
      ∧ (∀ owner name node, owner < uses.origins.length → Shows uses owner name node id chain)
      ∧ Lists uses uses.table id ∧ Links uses uses.table id := by
  have hyields := yields_table hpossible
  rw [← hyields.size] at hid ⊢
  refine ⟨_, hyields.chain_table hid, hyields.answers id, ?_, hyields.lists hid, hyields.links id⟩
  intro owner name node howner
  exact hyields.shows howner name node id

def sampleHistory : History :=
  [.create "module" (.int 0) none, .create "block" (.int 1) (some 0), .declare 0 "a" (.int 10),
    .create "function" (.int 2) (some 0), .create "block" (.int 3) (some 1),
    .declare 3 "a" (.int 11), .declare 0 "a" (.int 12), .create "block" (.int 4) none,
    .create "block" (.int 5) (some 4)]

theorem answers_history_sample
    : sampleHistory.isPossible = true
      ∧ (∃ chain, Chain sampleHistory 3 chain ∧ Answers sampleHistory sampleHistory.table 3 chain
        ∧ (∀ owner name node, owner < sampleHistory.origins.length →
          Shows sampleHistory owner name node 3 chain)
        ∧ Lists sampleHistory sampleHistory.table 3 ∧ Links sampleHistory sampleHistory.table 3)
      ∧ (sampleHistory.table.lookup 1 "a").any (fun v => v matches .int 10) = true
      ∧ (sampleHistory.table.lookup 3 "a").any (fun v => v matches .int 11) = true
      ∧ sampleHistory.table.resolve 2 "a" = some 0
      ∧ sampleHistory.table.hoistScope 3 = 0
      ∧ sampleHistory.table.hoistScope 5 = 4
      ∧ sampleHistory.table.children 0 = [1, 2]
      ∧ sampleHistory.table.preorder 0 = [0, 1, 3, 2] := by
  have hpossible : sampleHistory.isPossible = true := by decide
  refine ⟨hpossible, answers_history sampleHistory hpossible 3 (by decide), ?_, ?_, ?_, ?_, ?_, ?_,
    ?_⟩
  all_goals decide +kernel

end History

end Scope

end Arbor
