import Arbor.Value.Basic

/-!
Scopes. A table holds all scopes of an analysis in the order in which they were opened, and names
a scope by its place. A scope is linked to the scope it is inside of and to the scopes directly
inside of it. The links never go against the order of the table, so every way along them ends.
-/

namespace Arbor

abbrev ScopeId := Nat

namespace Scope

inductive Kind where
  | module
  | function
  | block
  | other (label : String)
deriving DecidableEq, Repr

def Kind.text : Kind → String
  | .module => "module"
  | .function => "function"
  | .block => "block"
  | .other label => label

def Kind.ofText (label : String) : Kind :=
  if label = "module" then .module
  else if label = "function" then .function
  else if label = "block" then .block
  else .other label

end Scope

structure Scope where
  kind : Scope.Kind
  node : Value
  parent? : Option ScopeId
  declarations : List (String × Value)
  children : List ScopeId

namespace Scope

def names (s : Scope) : List String :=
  s.declarations.map (·.1)

def declares (s : Scope) (name : String) : Bool :=
  s.names.contains name

def declare (s : Scope) (name : String) (node : Value) : Scope :=
  if s.declares name then s else { s with declarations := s.declarations ++ [(name, node)] }

def adopt (s : Scope) (child : ScopeId) : Scope :=
  { s with children := s.children ++ [child] }

theorem declare_parent? (s : Scope) (name : String) (node : Value)
    : (s.declare name node).parent? = s.parent? := by
  unfold declare
  split <;> rfl

theorem declare_children (s : Scope) (name : String) (node : Value)
    : (s.declare name node).children = s.children := by
  unfold declare
  split <;> rfl

/-- A scope comes behind its parent and before its children. -/
structure Ordered (scopes : Array Scope) : Prop where
  parent_lt : ∀ {id parent : Nat} {s : Scope}, scopes[id]? = some s → s.parent? = some parent →
    parent < id
  lt_child : ∀ {id child : Nat} {s : Scope}, scopes[id]? = some s → child ∈ s.children →
    id < child ∧ child < scopes.size

def adoptNext (scopes : Array Scope) : Option ScopeId → Array Scope
  | none => scopes
  | some parent => scopes.modify parent (·.adopt scopes.size)

theorem size_adoptNext (scopes : Array Scope) (parent : Option ScopeId)
    : (adoptNext scopes parent).size = scopes.size := by
  cases parent with
  | none => rfl
  | some parent => exact Array.size_modify ..

theorem getElem?_adoptNext (scopes : Array Scope) (parent : Option ScopeId) (id : Nat)
    : (adoptNext scopes parent)[id]? =
        if parent = some id then scopes[id]?.map (·.adopt scopes.size) else scopes[id]? := by
  cases parent with
  | none => rfl
  | some parent => simp [adoptNext, Array.getElem?_modify]

theorem Ordered.empty : Ordered #[] := by
  constructor
  · intro id parent s hs
    contradiction
  · intro id child s hs
    contradiction

theorem Ordered.modify {scopes : Array Scope} (h : Ordered scopes) (id : Nat) {f : Scope → Scope}
    (hparent : ∀ s, (f s).parent? = s.parent?) (hchildren : ∀ s, (f s).children = s.children)
    : Ordered (scopes.modify id f) := by
  have origin : ∀ {other : Nat} {s : Scope}, (scopes.modify id f)[other]? = some s →
      ∃ s', scopes[other]? = some s' ∧ s.parent? = s'.parent? ∧ s.children = s'.children := by
    intro other s hs
    rw [Array.getElem?_modify] at hs
    split at hs
    next =>
      obtain ⟨s', hs', rfl⟩ := Option.map_eq_some_iff.1 hs
      exact ⟨s', hs', hparent s', hchildren s'⟩
    next => exact ⟨s, hs, rfl, rfl⟩
  constructor
  · intro other parent s hs hs'
    obtain ⟨s', hother, heq, _⟩ := origin hs
    exact h.parent_lt hother (heq ▸ hs')
  · intro other child s hs hchild
    obtain ⟨s', hother, _, heq⟩ := origin hs
    rw [Array.size_modify]
    exact h.lt_child hother (heq ▸ hchild)

theorem Ordered.push {scopes : Array Scope} (h : Ordered scopes) {s : Scope}
    (hparent : ∀ parent, s.parent? = some parent → parent < scopes.size)
    (hchildren : s.children = [])
    : Ordered ((adoptNext scopes s.parent?).push s) := by
  constructor
  · intro id parent other hother hother'
    rw [Array.getElem?_push, size_adoptNext, getElem?_adoptNext] at hother
    split at hother
    next heq =>
      injection hother with hother
      subst hother
      exact heq ▸ hparent parent hother'
    next =>
      split at hother
      next =>
        obtain ⟨adopter, hadopter, rfl⟩ := Option.map_eq_some_iff.1 hother
        exact h.parent_lt hadopter hother'
      next => exact h.parent_lt hother hother'
  · intro id child other hother hchild
    rw [Array.size_push, size_adoptNext]
    rw [Array.getElem?_push, size_adoptNext, getElem?_adoptNext] at hother
    split at hother
    next =>
      injection hother with hother
      subst hother
      rw [hchildren] at hchild
      contradiction
    next =>
      split at hother
      next hid =>
        obtain ⟨adopter, hadopter, rfl⟩ := Option.map_eq_some_iff.1 hother
        rcases List.mem_append.1 hchild with hchild | hchild
        · have := h.lt_child hadopter hchild
          omega
        · rw [List.mem_singleton.1 hchild]
          exact ⟨hparent id hid, Nat.lt_succ_self _⟩
      next =>
        have := h.lt_child hother hchild
        omega

end Scope

structure ScopeTable where
  scopes : Array Scope
  ordered : Scope.Ordered scopes

namespace ScopeTable

def empty : ScopeTable :=
  ⟨#[], .empty⟩

def size (t : ScopeTable) : Nat :=
  t.scopes.size

def scope? (t : ScopeTable) (id : ScopeId) : Option Scope :=
  t.scopes[id]?

/-- Open a scope inside of another, which adopts it, or inside of none. -/
def openScope (t : ScopeTable) (kind : Scope.Kind) (node : Value) (parent : Option ScopeId) :
    ScopeTable × ScopeId :=
  -- only a scope that is there can be a parent
  let scope : Scope := ⟨kind, node, parent.filter (· < t.size), [], []⟩
  have inside : ∀ p, scope.parent? = some p → p < t.scopes.size :=
    fun _ h => of_decide_eq_true (Option.filter_eq_some_iff.1 h).2
  (⟨(Scope.adoptNext t.scopes scope.parent?).push scope, t.ordered.push inside rfl⟩, t.size)

def declare (t : ScopeTable) (id : ScopeId) (name : String) (node : Value) : ScopeTable :=
  ⟨t.scopes.modify id (·.declare name node),
    t.ordered.modify id (·.declare_parent? name node) (·.declare_children name node)⟩

def declares (t : ScopeTable) (name : String) (id : ScopeId) : Bool :=
  ((t.scope? id).map (·.declares name)).getD false

def isBlock (t : ScopeTable) (id : ScopeId) : Bool :=
  ((t.scope? id).map (·.kind)) == some .block

def parent? (t : ScopeTable) (id : ScopeId) : Option ScopeId :=
  (t.scope? id).bind (·.parent?)

def children (t : ScopeTable) (id : ScopeId) : List ScopeId :=
  ((t.scope? id).map (·.children)).getD []

theorem parent_lt {t : ScopeTable} {id parent : Nat} (h : t.parent? id = some parent)
    : parent < id := by
  obtain ⟨s, hs, hparent⟩ := Option.bind_eq_some_iff.1 h
  exact t.ordered.parent_lt hs hparent

theorem lt_of_mem_children {t : ScopeTable} {id c : Nat} (h : c ∈ t.children id)
    : id < c ∧ c < t.size := by
  unfold children at h
  cases hs : t.scope? id with
  | none =>
    rw [hs] at h
    contradiction
  | some s =>
    rw [hs] at h
    exact t.ordered.lt_child hs h

def depth (t : ScopeTable) (id : ScopeId) : Nat :=
  match _h : t.parent? id with
  | none => 0
  | some parent => t.depth parent + 1
termination_by id
decreasing_by exact parent_lt _h

def resolve (t : ScopeTable) (id : ScopeId) (name : String) : Option ScopeId :=
  if t.declares name id then some id
  else
    match _h : t.parent? id with
    | none => none
    | some parent => t.resolve parent name
termination_by id
decreasing_by exact parent_lt _h

def lookup (t : ScopeTable) (id : ScopeId) (name : String) : Option Value := do
  let owner ← t.resolve id name
  let scope ← t.scope? owner
  scope.declarations.lookup name

def outermost (t : ScopeTable) (id : ScopeId) : ScopeId :=
  match _h : t.parent? id with
  | none => id
  | some parent => t.outermost parent
termination_by id
decreasing_by exact parent_lt _h

/-- The innermost scope that is not a block, from a scope outwards; the outermost if all are. -/
def hoistScope (t : ScopeTable) (id : ScopeId) : ScopeId :=
  if t.isBlock id then
    match _h : t.parent? id with
    | none => id
    | some parent => t.hoistScope parent
  else id
termination_by id
decreasing_by exact parent_lt _h

def preorder (t : ScopeTable) (id : ScopeId) : List ScopeId :=
  id :: (t.children id).attach.flatMap fun c => t.preorder c.1
termination_by t.size - id
decreasing_by
  have := lt_of_mem_children c.2
  omega

def namesByScope (t : ScopeTable) (id : ScopeId) : List (ScopeId × List String) :=
  (t.preorder id).map fun s => (s, ((t.scope? s).map (·.names)).getD [])

end ScopeTable

end Arbor
