import Arbor.Outline

/-!
Child rules: strategies given by data. Each of them rearranges the children that a node has, so
none can descend forever (`ChildRule.descends`).
-/

namespace Arbor

inductive ChildRule (ε : Type) where
  | all
  | none
  | reverse
  | twice
  | skipKeys (keys : List String)
  | onlyKeys (keys : List String)
  | skipKinds (kinds : List String)
  /-- The first `n` children; a negative `n` leaves out that many at the end. -/
  | first (n : Int)
  | rekey (key : String)
  /-- The children under some fields (under all fields if none is named), without their place. -/
  | dropIndex (keys : List String)
  /--
  Fail at nodes of one kind, in place of the child with a number, or behind the last child if the
  number is negative.
  -/
  | failAt (kind : String) (position : Int) (error : ε)

namespace ChildRule

variable {ε : Type}

def cut (n : Int) (length : Nat) : Nat :=
  if 0 ≤ n then n.toNat else length - (-n).toNat

def strategy (rule : ChildRule ε) : Strategy ε := fun n =>
  let found := n.value.children
  match rule with
  | .all => ⟨found, .none⟩
  | .none => ⟨[], .none⟩
  | .reverse => ⟨found.reverse, .none⟩
  | .twice => ⟨found.flatMap fun entry => [entry, entry], .none⟩
  | .skipKeys keys => ⟨found.filter fun (e, _) => !keys.contains e.key, .none⟩
  | .onlyKeys keys => ⟨found.filter fun (e, _) => keys.contains e.key, .none⟩
  | .skipKinds kinds => ⟨found.filter fun (_, c) => !kinds.contains c.kind, .none⟩
  | .first count => ⟨found.take (cut count found.length), .none⟩
  | .rekey key => ⟨found.map fun (e, c) => ({ e with key := key }, c), .none⟩
  | .dropIndex keys =>
    ⟨(found.filter fun (e, _) => keys.isEmpty || keys.contains e.key).map fun (e, c) =>
      ({ e with index := .none }, c), .none⟩
  | .failAt kind position error =>
    if n.kind = kind ∧ position < found.length then
      if position < 0 then ⟨found, some error⟩ else ⟨found.take position.toNat, some error⟩
    else ⟨found, .none⟩

theorem mem_children {rule : ChildRule ε} {n c : Node} {e : Edge}
    (h : (e, c) ∈ (rule.strategy n).entries) : ∃ e', (e', c) ∈ n.value.children := by
  cases rule with
  | all => exact ⟨e, h⟩
  | none => simp [strategy] at h
  | reverse => exact ⟨e, List.mem_reverse.1 h⟩
  | twice =>
    simp only [strategy, List.mem_flatMap, List.mem_cons, List.not_mem_nil, or_false, or_self] at h
    obtain ⟨entry, hm, rfl⟩ := h
    exact ⟨e, hm⟩
  | skipKeys keys | onlyKeys keys | skipKinds kinds => exact ⟨e, (List.mem_filter.1 h).1⟩
  | first count => exact ⟨e, List.mem_of_mem_take h⟩
  | rekey key =>
    simp only [strategy, List.mem_map, Prod.mk.injEq] at h
    obtain ⟨⟨e', c'⟩, hm, _, rfl⟩ := h
    exact ⟨e', hm⟩
  | dropIndex keys =>
    simp only [strategy, List.mem_map, List.mem_filter, Prod.mk.injEq] at h
    obtain ⟨⟨e', c'⟩, ⟨hm, _⟩, _, rfl⟩ := h
    exact ⟨e', hm⟩
  | failAt kind position error =>
    simp only [strategy] at h
    split at h
    · split at h
      · exact ⟨e, h⟩
      · exact ⟨e, List.mem_of_mem_take h⟩
    · exact ⟨e, h⟩

theorem descends (rule : ChildRule ε) : rule.strategy.Descends := by
  intro n e c h
  obtain ⟨e', h'⟩ := mem_children h
  exact Value.sizeOf_child_lt h'

end ChildRule

end Arbor
