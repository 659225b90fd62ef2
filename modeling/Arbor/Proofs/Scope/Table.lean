import Arbor.Scope.Analysis
import Mathlib.Data.List.Nodup

/-!
This module is about the operations on a table of scopes: what they do to the scope at a place, and
that a scope which is declared into keeps the first entry for each name. The loops over parents are
told by the chain of a scope. The links to parents and the links to children are stored apart; in a
linked table they agree (`Linked`), all operations keep that, and then the scopes that are listed
from a scope inwards are those with it in their chains (`Linked.mem_preorder`).
-/

namespace Arbor

namespace Scope

def firstPerName : List (String × Value) → List (String × Value)
  | [] => []
  | entry :: rest => entry :: (firstPerName rest).filter (·.1 ≠ entry.1)

theorem mem_names_firstPerName {entries : List (String × Value)} {name : String}
    : name ∈ (firstPerName entries).map (·.1) ↔ name ∈ entries.map (·.1) := by
  induction entries with
  | nil => rfl
  | cons entry rest ih =>
    rw [firstPerName, List.map_cons, List.mem_cons, List.map_cons, List.mem_cons, ← ih]
    by_cases h : name = entry.1
    · simp [h]
    · simp only [List.mem_map, List.mem_filter, decide_eq_true_eq, h, false_or]
      constructor
      · rintro ⟨b, ⟨hb, _⟩, hname⟩
        exact ⟨b, hb, hname⟩
      · rintro ⟨b, hb, hname⟩
        exact ⟨b, ⟨hb, fun heq => h (hname.symm.trans heq)⟩, hname⟩

theorem firstPerName_concat (entries : List (String × Value)) (entry : String × Value)
    : firstPerName (entries ++ [entry]) =
        if entry.1 ∈ entries.map (·.1) then firstPerName entries
        else firstPerName entries ++ [entry] := by
  induction entries with
  | nil => rfl
  | cons first rest ih =>
    rw [List.cons_append, firstPerName, ih, firstPerName]
    simp only [List.map_cons, List.mem_cons]
    by_cases hmem : entry.1 ∈ rest.map (·.1)
    · simp only [hmem, or_true, if_true]
    · simp only [hmem, or_false, if_false, List.filter_append]
      by_cases hfirst : entry.1 = first.1
      · simp [hfirst]
      · simp [hfirst]

theorem lookup_filter {name other : String} (h : name ≠ other) (entries : List (String × Value))
    : (entries.filter (·.1 ≠ other)).lookup name = entries.lookup name := by
  induction entries with
  | nil => rfl
  | cons entry rest ih =>
    obtain ⟨key, v⟩ := entry
    by_cases hkey : key = other
    · have hne : (name == key) = false := beq_eq_false_iff_ne.2 (hkey ▸ h)
      rw [List.filter_cons_of_neg (by simp [hkey]), ih, List.lookup_cons, hne]
    · rw [List.filter_cons_of_pos (by simp [hkey]), List.lookup_cons, List.lookup_cons, ih]

theorem lookup_firstPerName (entries : List (String × Value)) (name : String)
    : (firstPerName entries).lookup name = entries.lookup name := by
  induction entries with
  | nil => rfl
  | cons entry rest ih =>
    obtain ⟨key, v⟩ := entry
    rw [firstPerName, List.lookup_cons, List.lookup_cons]
    cases hkey : name == key with
    | true => rfl
    | false =>
      dsimp only
      rw [lookup_filter (beq_eq_false_iff_ne.1 hkey), ih]

theorem declare_eq {s : Scope} {entries : List (String × Value)} (name : String) (node : Value)
    (h : s.declarations = firstPerName entries)
    : s.declare name node =
        { s with declarations := firstPerName (entries ++ [(name, node)]) } := by
  have hdeclares : s.declares name = true ↔ name ∈ entries.map (·.1) := by
    rw [declares, names, h, List.contains_iff_mem, mem_names_firstPerName]
  rw [declare, firstPerName_concat, ← h]
  by_cases hmem : name ∈ entries.map (·.1)
  · rw [if_pos (hdeclares.2 hmem), if_pos hmem]
  · rw [if_neg (mt hdeclares.1 hmem), if_neg hmem]

end Scope

namespace ScopeTable

variable (t : ScopeTable)

theorem eq_of_scope? {t t' : ScopeTable} (h : ∀ id : Nat, t.scope? id = t'.scope? id)
    : t = t' := by
  cases t with
  | mk scopes ordered =>
    cases t' with
    | mk scopes' ordered' =>
      obtain rfl : scopes = scopes' := Array.ext_getElem? h
      rfl

theorem scope?_eq_none {id : Nat} (h : t.size ≤ id) : t.scope? id = none :=
  Array.getElem?_eq_none h

theorem filter_parent {parent : Option ScopeId} (h : ∀ p ∈ parent, p < t.size)
    : parent.filter (· < t.size) = parent := by
  cases parent with
  | none => rfl
  | some p =>
    rw [Option.filter_some, if_pos]
    exact decide_eq_true (h p rfl)

section Operations

variable (kind : Scope.Kind) (node : Value) (parent : Option ScopeId)

theorem scope?_openScope (id : ScopeId)
    : (t.openScope kind node parent).1.scope? id =
        if id = t.size then some ⟨kind, node, parent.filter (· < t.size), [], []⟩
        else if parent.filter (· < t.size) = some id then (t.scope? id).map (·.adopt t.size)
        else t.scope? id := by
  simp only [openScope, scope?, size, Array.getElem?_push, Scope.size_adoptNext,
    Scope.getElem?_adoptNext]
  rfl

theorem size_openScope : (t.openScope kind node parent).1.size = t.size + 1 := by
  simp [openScope, size, Scope.size_adoptNext]

theorem parent?_openScope (id : ScopeId)
    : (t.openScope kind node parent).1.parent? id =
        if id = t.size then parent.filter (· < t.size) else t.parent? id := by
  rw [parent?, scope?_openScope]
  split
  next => rfl
  next =>
    split
    next =>
      rw [parent?]
      cases t.scope? id <;> rfl
    next => rfl

theorem children_openScope (id : ScopeId)
    : (t.openScope kind node parent).1.children id =
        if parent.filter (· < t.size) = some id then t.children id ++ [t.size]
        else t.children id := by
  rw [children, scope?_openScope]
  split
  next heq =>
    have hne : parent.filter (· < t.size) ≠ some id := by
      intro hparent
      have hlt := of_decide_eq_true (Option.filter_eq_some_iff.1 hparent).2
      exact Nat.ne_of_lt hlt heq
    rw [if_neg hne, children, t.scope?_eq_none (Nat.le_of_eq heq.symm)]
    rfl
  next =>
    split
    next hparent =>
      have hlt : id < t.size := of_decide_eq_true (Option.filter_eq_some_iff.1 hparent).2
      have hscope : t.scope? id = some t.scopes[id] := Array.getElem?_eq_getElem hlt
      rw [children, hscope]
      rfl
    next => rfl

variable (owner : ScopeId) (name : String)

theorem scope?_declare (id : ScopeId)
    : (t.declare owner name node).scope? id =
        if owner = id then (t.scope? id).map (·.declare name node) else t.scope? id := by
  simp only [declare, scope?, Array.getElem?_modify]

theorem size_declare : (t.declare owner name node).size = t.size := by
  simp [declare, size]

theorem parent?_declare (id : ScopeId)
    : (t.declare owner name node).parent? id = t.parent? id := by
  rw [parent?, parent?, scope?_declare]
  split
  next =>
    cases t.scope? id with
    | none => rfl
    | some scope => exact scope.declare_parent? name node
  next => rfl

theorem children_declare (id : ScopeId)
    : (t.declare owner name node).children id = t.children id := by
  rw [children, children, scope?_declare]
  split
  next =>
    cases t.scope? id with
    | none => rfl
    | some scope => exact scope.declare_children name node
  next => rfl

end Operations

def chain (t : ScopeTable) (id : ScopeId) : List ScopeId :=
  match _h : t.parent? id with
  | none => [id]
  | some parent => id :: t.chain parent
termination_by id
decreasing_by exact parent_lt _h

theorem chain_eq (id : ScopeId) : t.chain id = id :: ((t.parent? id).map t.chain).getD [] := by
  rw [chain]
  split
  next hparent =>
    rw [hparent]
    rfl
  next parent hparent =>
    rw [hparent]
    rfl

theorem parent?_eq (id : ScopeId) : t.parent? id = (t.chain id).tail.head? := by
  rw [chain_eq]
  cases t.parent? id with
  | none => rfl
  | some parent =>
    rw [Option.map_some, Option.getD_some, List.tail_cons, chain_eq]
    rfl

theorem outermost_eq (id : ScopeId)
    : t.outermost id = ((t.parent? id).map t.outermost).getD id := by
  rw [outermost]
  split
  next hparent =>
    rw [hparent]
    rfl
  next parent hparent =>
    rw [hparent]
    rfl

theorem depth_succ (id : ScopeId) : t.depth id + 1 = (t.chain id).length := by
  fun_induction depth t id with
  | case1 id hparent =>
    rw [chain_eq, hparent]
    rfl
  | case2 id parent hparent ih =>
    rw [chain_eq, hparent, ih]
    rfl

theorem resolve_eq (id : ScopeId) (name : String)
    : t.resolve id name = (t.chain id).find? (t.declares name) := by
  fun_induction resolve t id name with
  | case1 id hdeclares => rw [chain_eq, List.find?_cons_of_pos hdeclares]
  | case2 id hdeclares hparent =>
    rw [chain_eq, hparent, List.find?_cons_of_neg hdeclares]
    rfl
  | case3 id hdeclares parent hparent ih =>
    rw [chain_eq, hparent, List.find?_cons_of_neg hdeclares, ih]
    rfl

theorem getLast?_chain (id : ScopeId) : (t.chain id).getLast? = some (t.outermost id) := by
  fun_induction outermost t id with
  | case1 id hparent =>
    rw [chain_eq, hparent]
    rfl
  | case2 id parent hparent ih =>
    rw [chain_eq, hparent, Option.map_some, Option.getD_some, List.getLast?_cons, ih]
    rfl

theorem hoistScope_eq (id : ScopeId)
    : t.hoistScope id = ((t.chain id).find? fun s => !t.isBlock s).getD (t.outermost id) := by
  fun_induction hoistScope t id with
  | case1 id hblock hparent =>
    rw [chain_eq, outermost_eq, hparent, List.find?_cons_of_neg (by simp [hblock])]
    rfl
  | case2 id hblock parent hparent ih =>
    rw [chain_eq, outermost_eq, hparent, List.find?_cons_of_neg (by simp [hblock]), ih]
    rfl
  | case3 id hblock =>
    rw [chain_eq, List.find?_cons_of_pos (by simp [hblock])]
    rfl

theorem preorder_eq (id : ScopeId)
    : t.preorder id = id :: (t.children id).flatMap t.preorder := by
  rw [preorder]
  simp

section Chain

variable {t : ScopeTable}

theorem lt_size_of_parent? {id parent : Nat} (h : t.parent? id = some parent) : id < t.size := by
  by_contra hge
  rw [parent?, t.scope?_eq_none (Nat.le_of_not_lt hge)] at h
  contradiction

theorem mem_chain_self (id : Nat) : id ∈ t.chain id := by
  rw [chain_eq]
  exact List.mem_cons_self ..

theorem chain_child {id c : Nat} (hc : t.parent? c = some id) : t.chain c = c :: t.chain id := by
  rw [chain_eq, hc]
  rfl

theorem mem_chain {outer inner : Nat} (hmem : outer ∈ t.chain inner)
    : outer = inner ∨ ∃ parent, t.parent? inner = some parent ∧ outer ∈ t.chain parent := by
  rw [chain_eq, List.mem_cons] at hmem
  rcases hmem with hmem | hmem
  · exact .inl hmem
  · cases hparent : t.parent? inner with
    | none =>
      rw [hparent] at hmem
      contradiction
    | some parent =>
      rw [hparent] at hmem
      exact .inr ⟨parent, rfl, hmem⟩

theorem le_of_mem_chain {outer inner : Nat} (hmem : outer ∈ t.chain inner) : outer ≤ inner := by
  induction inner using Nat.strongRecOn with
  | ind inner ih =>
    rcases mem_chain hmem with rfl | ⟨parent, hparent, hmem⟩
    · exact Nat.le_refl _
    · have hlt := parent_lt hparent
      have := ih parent hlt hmem
      omega

theorem chain_subset {outer inner : Nat} (hmem : outer ∈ t.chain inner)
    : t.chain outer ⊆ t.chain inner := by
  induction inner using Nat.strongRecOn with
  | ind inner ih =>
    rcases mem_chain hmem with rfl | ⟨parent, hparent, hmem⟩
    · exact List.Subset.refl _
    · rw [chain_child hparent]
      exact List.subset_cons_of_subset inner (ih parent (parent_lt hparent) hmem)

theorem exists_child {outer inner : Nat} (hmem : outer ∈ t.chain inner) (hne : outer ≠ inner)
    : ∃ c, t.parent? c = some outer ∧ c ∈ t.chain inner := by
  induction inner using Nat.strongRecOn with
  | ind inner ih =>
    rcases mem_chain hmem with rfl | ⟨parent, hparent, hmem⟩
    · contradiction
    · by_cases heq : outer = parent
      · exact ⟨inner, heq ▸ hparent, mem_chain_self inner⟩
      · obtain ⟨c, hc, hmem'⟩ := ih parent (parent_lt hparent) hmem heq
        refine ⟨c, hc, ?_⟩
        rw [chain_child hparent]
        exact List.mem_cons_of_mem _ hmem'

end Chain

/--
The links to children agree with the links to parents: the children of a scope are the scopes that
have it as their parent, in the order in which they were opened.
-/
structure Linked (t : ScopeTable) : Prop where
  children : ∀ id : Nat, t.children id = (List.range t.size).filter fun c => t.parent? c == some id

namespace Linked

variable {t : ScopeTable}

theorem empty : ScopeTable.empty.Linked := by
  constructor
  intro id
  rfl

theorem openScope (h : t.Linked) (kind : Scope.Kind) (node : Value) (parent : Option ScopeId)
    : (t.openScope kind node parent).1.Linked := by
  constructor
  intro id
  have hold : (List.range t.size).filter
      (fun c => (t.openScope kind node parent).1.parent? c == some id) = t.children id := by
    rw [h.children id]
    apply List.filter_congr
    intro c hc
    have hlt := List.mem_range.1 hc
    rw [parent?_openScope, if_neg (Nat.ne_of_lt hlt)]
  rw [children_openScope, size_openScope, List.range_succ, List.filter_append, hold,
    List.filter_singleton, parent?_openScope, if_pos rfl]
  split
  next hparent => simp [hparent]
  next hparent => simp [beq_eq_false_iff_ne.2 hparent]

theorem declare (h : t.Linked) (owner : ScopeId) (name : String) (node : Value)
    : (t.declare owner name node).Linked := by
  constructor
  intro id
  rw [children_declare, size_declare, h.children id]
  apply List.filter_congr
  intro c _
  rw [parent?_declare]

theorem mem_children (h : t.Linked) {id c : Nat}
    : c ∈ t.children id ↔ t.parent? c = some id := by
  rw [h.children id, List.mem_filter, List.mem_range, beq_iff_eq]
  constructor
  · exact fun hc => hc.2
  · exact fun hc => ⟨lt_size_of_parent? hc, hc⟩

theorem pairwise_children (h : t.Linked) (id : Nat) : (t.children id).Pairwise (· < ·) := by
  rw [h.children id]
  exact List.pairwise_lt_range.filter _

theorem nodup_children (h : t.Linked) (id : Nat) : (t.children id).Nodup := by
  rw [h.children id]
  exact List.nodup_range.filter _

theorem count_children (h : t.Linked) (id c : Nat)
    : (t.children id).count c = if t.parent? c = some id then 1 else 0 := by
  by_cases hparent : t.parent? c = some id
  · rw [if_pos hparent, List.count_eq_one_of_mem (h.nodup_children id) (h.mem_children.2 hparent)]
  · rw [if_neg hparent, List.count_eq_zero.2 (mt h.mem_children.1 hparent)]

theorem mem_preorder (h : t.Linked) {id x : Nat} (hid : id < t.size)
    : x ∈ t.preorder id ↔ x < t.size ∧ id ∈ t.chain x := by
  induction hk : t.size - id using Nat.strongRecOn generalizing id with
  | ind k ih =>
    have inside : ∀ c, t.parent? c = some id → (x ∈ t.preorder c ↔ x < t.size ∧ c ∈ t.chain x) := by
      intro c hc
      have hlt := parent_lt hc
      exact ih (t.size - c) (by omega) (lt_size_of_parent? hc) rfl
    rw [preorder_eq, List.mem_cons, List.mem_flatMap]
    constructor
    · rintro (rfl | ⟨c, hc, hx⟩)
      · exact ⟨hid, mem_chain_self x⟩
      · rw [h.mem_children] at hc
        obtain ⟨hx, hmem⟩ := (inside c hc).1 hx
        refine ⟨hx, chain_subset hmem ?_⟩
        rw [chain_child hc]
        exact List.mem_cons_of_mem _ (mem_chain_self id)
    · rintro ⟨hx, hmem⟩
      by_cases heq : id = x
      · exact .inl heq.symm
      · obtain ⟨c, hc, hmem'⟩ := exists_child hmem heq
        exact .inr ⟨c, h.mem_children.2 hc, (inside c hc).2 ⟨hx, hmem'⟩⟩

end Linked

end ScopeTable

end Arbor
