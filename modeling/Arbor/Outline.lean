import Arbor.Node

/-!
Strategies and outlines. A strategy says which children of a node are visited and in which order;
listing them may fail on the way. Where a strategy cannot descend forever, it unfolds a node into
a finite outline, which has a place for every occurrence that can be visited.
-/

namespace Arbor

/-- The children of a node in the order of their visits, and the failure that ends the listing. -/
structure Listing (ε : Type) where
  entries : List (Edge × Node)
  failure : Option ε

def Strategy (ε : Type) := Node → Listing ε

/-- A tree of occurrences: a node, the outlines below it, and the failure behind the last of them. -/
inductive Outline (ε : Type) where
  | mk (node : Node) (children : List (Edge × Outline ε)) (failure : Option ε)

variable {ε : Type}

namespace Outline

def node : Outline ε → Node
  | .mk node _ _ => node

def children : Outline ε → List (Edge × Outline ε)
  | .mk _ children _ => children

def failure : Outline ε → Option ε
  | .mk _ _ failure => failure

end Outline

namespace Strategy

def IsChild (s : Strategy ε) (child parent : Node) : Prop :=
  ∃ e, (e, child) ∈ (s parent).entries

def FiniteFrom (s : Strategy ε) (root : Value) : Prop :=
  ∀ n, Node.ofValue? root = some n → Acc s.IsChild n

def outline (s : Strategy ε) (n : Node) (h : Acc s.IsChild n) : Outline ε :=
  .mk n
    ((s n).entries.attach.map fun ⟨(e, c), hc⟩ => (e, s.outline c (h.inv ⟨e, hc⟩)))
    (s n).failure
termination_by (⟨n, h⟩ : { n : Node // Acc s.IsChild n })
decreasing_by exact ⟨e, hc⟩

def Descends (s : Strategy ε) : Prop :=
  ∀ n e c, (e, c) ∈ (s n).entries → sizeOf c.value < sizeOf n.value

theorem Descends.acc {s : Strategy ε} (hs : s.Descends) (n : Node) : Acc s.IsChild n := by
  have wf : WellFounded fun a b : Node => sizeOf a.value < sizeOf b.value :=
    (measure fun n : Node => sizeOf n.value).wf
  have sub : Subrelation s.IsChild fun a b : Node => sizeOf a.value < sizeOf b.value := by
    intro child parent ⟨e, h⟩
    exact hs parent e child h
  exact sub.accessible (wf.apply n)

theorem Descends.finiteFrom {s : Strategy ε} (hs : s.Descends) (root : Value) :
    s.FiniteFrom root :=
  fun n _ => hs.acc n

def all : Strategy ε :=
  fun n => ⟨n.value.children, none⟩

theorem all_descends : (all : Strategy ε).Descends := by
  intro n e c h
  exact Value.sizeOf_child_lt h

theorem all_finiteFrom (root : Value) : (all : Strategy ε).FiniteFrom root :=
  all_descends.finiteFrom root

end Strategy

end Arbor
