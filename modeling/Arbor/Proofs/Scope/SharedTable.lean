import Arbor.Proofs.Scope.Table
import Arbor.Proofs.Walk.Transport
import Arbor.Scope.Reference

/-!
This module is about scopes that stand in one table with scopes of earlier analyses. A table behind
another holds the scopes of both, and the names of its own scopes are moved by the size of the one
before it. The operations on a table do to a table behind another what they do to the table alone,
and never reach the scopes before it. Main statement: a run whose table has all earlier scopes
before its own goes as a run with a table of its own (`runBehind_eq`).
-/

namespace Arbor

def Scope.move (n : Nat) (s : Scope) : Scope :=
  { s with parent? := s.parent?.map (· + n), children := s.children.map (· + n) }

theorem Scope.move_declare (n : Nat) (s : Scope) (name : String) (node : Value)
    : (s.move n).declare name node = (s.declare name node).move n := by
  have hdeclares : (s.move n).declares name = s.declares name := rfl
  rw [Scope.declare, Scope.declare, hdeclares]
  cases s.declares name <;> rfl

theorem Scope.move_adopt (n : Nat) (s : Scope) (child : Nat)
    : (s.move n).adopt (child + n) = (s.adopt child).move n := by
  simp [adopt, move]

theorem Scope.getElem?_behind {scopes scopes' : Array Scope} {id : Nat} {s : Scope}
    (h : (scopes ++ scopes'.map (move scopes.size))[id]? = some s)
    : id < scopes.size ∧ scopes[id]? = some s
      ∨ ∃ place s', id = place + scopes.size ∧ scopes'[place]? = some s'
        ∧ s = s'.move scopes.size := by
  rw [Array.getElem?_append, Array.getElem?_map] at h
  split at h
  next hlt => exact .inl ⟨hlt, h⟩
  next hge =>
    obtain ⟨s', hs', rfl⟩ := Option.map_eq_some_iff.1 h
    exact .inr ⟨id - scopes.size, s', by omega, hs', rfl⟩

theorem Scope.Ordered.behind {scopes scopes' : Array Scope} (h : Ordered scopes)
    (h' : Ordered scopes') : Ordered (scopes ++ scopes'.map (move scopes.size)) := by
  constructor
  · intro id parent s hs hparent
    rcases getElem?_behind hs with ⟨_, hs⟩ | ⟨place, s', rfl, hs', rfl⟩
    · exact h.parent_lt hs hparent
    · obtain ⟨p, hp, rfl⟩ := Option.map_eq_some_iff.1 hparent
      have := h'.parent_lt hs' hp
      omega
  · intro id child s hs hchild
    rw [Array.size_append, Array.size_map]
    rcases getElem?_behind hs with ⟨_, hs⟩ | ⟨place, s', rfl, hs', rfl⟩
    · have := h.lt_child hs hchild
      omega
    · obtain ⟨c, hc, rfl⟩ := List.mem_map.1 hchild
      have := h'.lt_child hs' hc
      omega

namespace ScopeTable

def behind (base t : ScopeTable) : ScopeTable :=
  ⟨base.scopes ++ t.scopes.map (Scope.move base.size), base.ordered.behind t.ordered⟩

variable (base t : ScopeTable)

theorem size_behind : (base.behind t).size = base.size + t.size := by
  simp [behind, size]

theorem scope?_behind (id : Nat)
    : (base.behind t).scope? (id + base.size) = (t.scope? id).map (Scope.move base.size) := by
  change (base.scopes ++ t.scopes.map _)[id + base.scopes.size]? = _
  rw [Array.getElem?_append_right (Nat.le_add_left ..), Nat.add_sub_cancel, Array.getElem?_map]
  rfl

theorem scope?_before {id : Nat} (h : id < base.size)
    : (base.behind t).scope? id = base.scope? id :=
  Array.getElem?_append_left h

theorem parent?_behind (id : Nat)
    : (base.behind t).parent? (id + base.size) = (t.parent? id).map (· + base.size) := by
  rw [parent?, parent?, scope?_behind]
  cases t.scope? id <;> rfl

theorem children_behind (id : Nat)
    : (base.behind t).children (id + base.size) = (t.children id).map (· + base.size) := by
  rw [children, children, scope?_behind]
  cases t.scope? id <;> rfl

theorem chain_behind (id : Nat)
    : (base.behind t).chain (id + base.size) = (t.chain id).map (· + base.size) := by
  induction id using Nat.strongRecOn with
  | ind id ih =>
    rw [chain_eq, chain_eq, parent?_behind]
    cases hparent : t.parent? id with
    | none => rfl
    | some parent => exact congrArg _ (ih parent (parent_lt hparent))

theorem declares_behind (name : String) (id : Nat)
    : (base.behind t).declares name (id + base.size) = t.declares name id := by
  rw [declares, declares, scope?_behind]
  cases t.scope? id <;> rfl

theorem isBlock_behind (id : Nat)
    : (base.behind t).isBlock (id + base.size) = t.isBlock id := by
  rw [isBlock, isBlock, scope?_behind]
  cases t.scope? id <;> rfl

theorem resolve_behind (id : Nat) (name : String)
    : (base.behind t).resolve (id + base.size) name =
        (t.resolve id name).map (· + base.size) := by
  rw [resolve_eq, resolve_eq, chain_behind, List.find?_map]
  congr 2
  funext other
  exact declares_behind base t name other

theorem outermost_behind (id : Nat)
    : (base.behind t).outermost (id + base.size) = t.outermost id + base.size := by
  have hlast := (base.behind t).getLast?_chain (id + base.size)
  rw [chain_behind, List.getLast?_map, getLast?_chain] at hlast
  injection hlast with hlast
  exact hlast.symm

theorem hoistScope_behind (id : Nat)
    : (base.behind t).hoistScope (id + base.size) = t.hoistScope id + base.size := by
  have hblock : ((fun s => !(base.behind t).isBlock s) ∘ (· + base.size)) =
      fun s : Nat => !t.isBlock s := by
    funext other
    exact congrArg (!·) (isBlock_behind base t other)
  rw [hoistScope_eq, hoistScope_eq, chain_behind, List.find?_map, outermost_behind, hblock]
  cases (t.chain id).find? fun s => !t.isBlock s <;> rfl

theorem filter_parent_behind (parent : Option ScopeId)
    : (parent.map (· + base.size)).filter (· < (base.behind t).size) =
        (parent.filter (· < t.size)).map (· + base.size) := by
  cases parent with
  | none => rfl
  | some p =>
    have hinside : p + base.size < (base.behind t).size ↔ p < t.size := by
      rw [size_behind, Nat.add_comm]
      exact Nat.add_lt_add_iff_left
    rw [Option.map_some, Option.filter_some, Option.filter_some]
    by_cases hp : p < t.size
    · simp [hinside, hp]
    · simp [hinside, hp]

theorem openScope_behind (kind : Scope.Kind) (node : Value) (parent : Option ScopeId)
    : (base.behind t).openScope kind node (parent.map (· + base.size)) =
        (base.behind (t.openScope kind node parent).1,
          (t.openScope kind node parent).2 + base.size) := by
  apply Prod.ext
  · apply eq_of_scope?
    intro other
    rw [scope?_openScope, filter_parent_behind, size_behind]
    by_cases hother : other < base.size
    · have hlast : other ≠ base.size + t.size := by omega
      have hparent : (parent.filter (· < t.size)).map (· + base.size) ≠ some other := by
        intro heq
        obtain ⟨p, _, hp⟩ := Option.map_eq_some_iff.1 heq
        omega
      rw [if_neg hlast, if_neg hparent, scope?_before base _ hother, scope?_before base _ hother]
    · obtain ⟨place, rfl⟩ : ∃ place, other = place + base.size :=
        ⟨other - base.size, by omega⟩
      have hlast : place + base.size = base.size + t.size ↔ place = t.size := by omega
      have hparent : (parent.filter (· < t.size)).map (· + base.size) = some (place + base.size) ↔
          parent.filter (· < t.size) = some place := by
        cases parent.filter (· < t.size) <;> simp
      rw [scope?_behind, scope?_behind, scope?_openScope]
      simp only [hlast, hparent]
      split
      next => rfl
      next =>
        split
        next =>
          rw [Option.map_map, Option.map_map]
          apply Option.map_congr
          intro s _
          rw [Function.comp_apply, Function.comp_apply, ← Scope.move_adopt, Nat.add_comm]
        next => rfl
  · change (base.behind t).size = t.size + base.size
    rw [size_behind, Nat.add_comm]

theorem declare_behind (id : Nat) (name : String) (node : Value)
    : (base.behind t).declare (id + base.size) name node =
        base.behind (t.declare id name node) := by
  apply eq_of_scope?
  intro other
  rw [scope?_declare]
  by_cases hother : other < base.size
  · have hne : id + base.size ≠ other := by omega
    rw [if_neg hne, scope?_before base _ hother, scope?_before base _ hother]
  · obtain ⟨place, rfl⟩ : ∃ place, other = place + base.size :=
      ⟨other - base.size, by omega⟩
    rw [scope?_behind, scope?_behind, scope?_declare]
    by_cases hid : id = place
    · rw [if_pos (congrArg (· + base.size) hid), if_pos hid]
      cases t.scope? place with
      | none => rfl
      | some s => exact congrArg some (s.move_declare base.size name node)
    · have hne : id + base.size ≠ place + base.size := by omega
      rw [if_neg hne, if_neg hid]

theorem children_before {id : Nat} (h : id < base.size)
    : (base.behind t).children id = base.children id := by
  rw [children, scope?_before base t h]
  rfl

theorem preorder_behind (id : Nat)
    : (base.behind t).preorder (id + base.size) = (t.preorder id).map (· + base.size) := by
  induction hk : t.size - id using Nat.strongRecOn generalizing id with
  | ind k ih =>
    rw [preorder_eq, preorder_eq, children_behind, List.map_cons, List.flatMap_map,
      List.map_flatMap]
    congr 1
    apply List.flatMap_congr
    intro c hc
    have hlt := lt_of_mem_children hc
    exact ih (t.size - c) (by omega) c rfl

theorem preorder_before {id : Nat} (h : id < base.size)
    : (base.behind t).preorder id = base.preorder id := by
  induction hk : base.size - id using Nat.strongRecOn generalizing id with
  | ind k ih =>
    rw [preorder_eq, preorder_eq, children_before base t h]
    congr 1
    apply List.flatMap_congr
    intro c hc
    have hlt := lt_of_mem_children hc
    exact ih (base.size - c) (by omega) hlt.2 rfl

theorem behind_empty : base.behind .empty = base := by
  apply eq_of_scope?
  intro id
  change (base.scopes ++ #[].map _)[id]? = _
  rw [Array.map_empty, Array.append_empty]
  rfl

/-- A table in which all scopes of another are as they were there, and the trees below them too. -/
structure Retains (t t' : ScopeTable) : Prop where
  size : t.size ≤ t'.size
  scope : ∀ id < t.size, t'.scope? id = t.scope? id
  children : ∀ id < t.size, t'.children id = t.children id
  preorder : ∀ id < t.size, t'.preorder id = t.preorder id

theorem retains_behind : base.Retains (base.behind t) := by
  refine ⟨?_, fun id => scope?_before base t, fun id => children_before base t,
    fun id => preorder_before base t⟩
  rw [size_behind]
  exact Nat.le_add_right ..

theorem Retains.trans {t t' t'' : ScopeTable} (h : t.Retains t') (h' : t'.Retains t'')
    : t.Retains t'' := by
  have inside : ∀ {id : Nat}, id < t.size → id < t'.size :=
    fun hid => Nat.lt_of_lt_of_le hid h.size
  refine ⟨Nat.le_trans h.size h'.size, ?_, ?_, ?_⟩
  · intro id hid
    rw [h'.scope id (inside hid), h.scope id hid]
  · intro id hid
    rw [h'.children id (inside hid), h.children id hid]
  · intro id hid
    rw [h'.preorder id (inside hid), h.preorder id hid]

end ScopeTable

namespace Analysis

variable {α : Type}

def behind (base : ScopeTable) (move : Nat → α → α) (a : Analysis α) : Analysis α :=
  ⟨base.behind a.table, a.bound, move base.size a.notes⟩

/-- Hooks that note the same wherever the table stands, apart from the names of scopes. -/
structure Hooks.Movable (hooks : Hooks α) (move : Nat → α → α) : Prop where
  initial : ∀ n, move n hooks.initial = hooks.initial
  enter : ∀ base site a, hooks.enter (Site.map (· + base.size) site) (behind base move a) =
    move base.size (hooks.enter site a)
  exit : ∀ base site a, hooks.exit (Site.map (· + base.size) site) (behind base move a) =
    move base.size (hooks.exit site a)

variable (base : ScopeTable) (move : Nat → α → α)

theorem targetScope_behind (a : Analysis α) (outer inner : Nat) (target : Scope.Target)
    : (a.behind base move).targetScope (outer + base.size) (inner + base.size) target =
        (a.targetScope outer inner target).map (· + base.size) := by
  cases target with
  | outer => rfl
  | inner => rfl
  | hoisted => exact congrArg some (base.hoistScope_behind a.table outer)
  | module => exact congrArg some (base.outermost_behind a.table outer)
  | nowhere => rfl

theorem declareIn_behind (t : ScopeTable) (scope : Option Nat) (identifier : Value)
    : declareIn (base.behind t) (scope.map (· + base.size)) identifier =
        base.behind (declareIn t scope identifier) := by
  unfold declareIn
  cases scope with
  | none => rfl
  | some id =>
    dsimp only [Option.map_some]
    cases identifier.field "name" with
    | str name => exact base.declare_behind t id name identifier
    | _ => rfl

theorem bind_behind (outer inner : Nat) (a : Analysis α) (entry : Scope.Target × Value)
    : bind (outer + base.size) (inner + base.size) (a.behind base move) entry =
        (bind outer inner a entry).behind base move := by
  obtain ⟨target, identifier⟩ := entry
  rw [bind, targetScope_behind]
  have htable := declareIn_behind base a.table (a.targetScope outer inner target) identifier
  simp only [bind, behind, htable]

theorem foldl_bind_behind (outer inner : Nat) (entries : List (Scope.Target × Value))
    (a : Analysis α)
    : entries.foldl (bind (outer + base.size) (inner + base.size)) (a.behind base move) =
        (entries.foldl (bind outer inner) a).behind base move := by
  induction entries generalizing a with
  | nil => rfl
  | cons entry rest ih => rw [List.foldl_cons, List.foldl_cons, bind_behind, ih]

theorem bindAll_behind (n : Node) (outer inner : Nat) (a : Analysis α)
    : bindAll n (outer + base.size) (inner + base.size) (a.behind base move) =
        ((bindAll n outer inner a).1, (bindAll n outer inner a).2.behind base move) := by
  unfold bindAll
  dsimp only
  rw [foldl_bind_behind]
  cases (Scope.bindings n).failure <;> rfl

theorem openAt_behind (site : Site ScopeId) (a : Analysis α)
    : openAt (site.map (· + base.size)) (a.behind base move) =
        ((openAt site a).1.map (· + base.size), (openAt site a).2.behind base move) := by
  unfold openAt
  dsimp only [Site.map]
  cases Scope.opens site.node.kind site.path.parent? with
  | none => rfl
  | some kind =>
    have hopen := base.openScope_behind a.table kind site.node.value (some site.context)
    rw [Option.map_some] at hopen
    dsimp only [behind]
    rw [hopen]
    rfl

variable {move} {hooks : Hooks α} (movable : hooks.Movable move)

include movable

theorem enter_behind (site : Site ScopeId) (a : Analysis α)
    : enter hooks (site.map (· + base.size)) (a.behind base move) =
        ((enter hooks site a).1.map fun out => (out.1.map (· + base.size), out.2 + base.size),
          (enter hooks site a).2.behind base move) := by
  unfold enter
  rw [openAt_behind]
  obtain ⟨opened, a₁⟩ := openAt site a
  have hinner : (opened.map (· + base.size)).getD (site.map (· + base.size)).context =
      opened.getD site.context + base.size := by
    cases opened <;> rfl
  dsimp only
  rw [hinner]
  dsimp only [Site.map]
  rw [bindAll_behind]
  obtain ⟨result, a₂⟩ := bindAll site.node site.context (opened.getD site.context) a₁
  cases result with
  | error e => rfl
  | ok u =>
    have hnotes := movable.enter base { site with context := opened.getD site.context } a₂
    dsimp only [Site.map] at hnotes
    dsimp only
    rw [hnotes]
    cases opened <;> rfl

theorem exit_behind (site : Site ScopeId) (inner : Nat) (a : Analysis α)
    : exit hooks (site.map (· + base.size)) (inner + base.size) (a.behind base move) =
        ((exit hooks site inner a).1, (exit hooks site inner a).2.behind base move) := by
  have hnotes := movable.exit base { site with context := inner } a
  dsimp only [Site.map] at hnotes
  dsimp only [exit, Site.map]
  rw [hnotes]
  rfl

/-- Get ready for a run that keeps the scopes of the runs before it in its table. -/
def restartBehind (hooks : Hooks α) (a : Analysis α) (root : Value) : Analysis α :=
  { a.reset hooks with table := (a.table.openScope .module root none).1 }

def runBehind (hooks : Hooks α) (a : Analysis α) (root : Value) :
    Except (Fault Value.NotIterable) Unit × Session (Analysis α) :=
  walk (visitor hooks) .all root (Strategy.all_finiteFrom root) a.table.size
    { state := a.restartBehind hooks root }

theorem restartBehind_eq (a : Analysis α) (root : Value)
    : a.restartBehind hooks root = (a.restart hooks root).behind a.table move := by
  have hopen := a.table.openScope_behind .empty .module root none
  rw [a.table.behind_empty, Option.map_none] at hopen
  rw [restartBehind, hopen, behind, restart]
  simp [reset, movable.initial]

theorem runBehind_eq (a : Analysis α) (root : Value)
    : runBehind hooks a root =
        ((run hooks a root).1, (run hooks a root).2.map (behind a.table move)) := by
  have hmap := Walk.walk_map (enter_behind a.table movable) (exit_behind a.table movable) .all root
    (Strategy.all_finiteFrom root) moduleScope { state := a.restart hooks root }
  rw [moduleScope, Nat.zero_add] at hmap
  rw [runBehind, restartBehind_eq movable]
  exact hmap

end Analysis

theorem Analysis.movable_silent : Hooks.silent.Movable fun _ _ => () :=
  ⟨fun _ => rfl, fun _ _ _ => rfl, fun _ _ _ => rfl⟩

namespace Reference

def move (n : Nat) (r : Reference) : Reference :=
  { r with scope := r.scope + n }

theorem ofSite?_behind {α : Type} (base : ScopeTable) (move : Nat → α → α) (site : Site ScopeId)
    (a : Analysis α)
    : ofSite? (Site.map (· + base.size) site) (a.behind base move) =
        (ofSite? site a).map (Reference.move base.size) := by
  have hbound : (a.behind base move).isBound = a.isBound := rfl
  unfold ofSite?
  dsimp only [Site.map]
  rw [hbound, apply_ite (Option.map (Reference.move base.size))]
  congr 1
  cases site.node.value.field "name" <;> rfl

theorem movable_hooks : hooks.Movable fun n => List.map (move n) := by
  refine ⟨fun _ => rfl, ?_, fun _ _ _ => rfl⟩
  intro base site a
  dsimp only [hooks]
  rw [ofSite?_behind, List.map_append]
  cases ofSite? site a <;> rfl

end Reference

end Arbor
