import Mathlib.Data.List.Chain
import Arbor.Proofs.Outline.Identity
import Arbor.Proofs.Walk.Brackets

/-!
This module is about the paths that a walk over all children shows to its visitor. A path can be
followed from the root, field by field and place by place, and leads to the node that is visited.
No two occurrences are reached by the same edges, and all edges that lead to nodes are followed
(`walk_paths`).
-/

namespace Arbor

def Path.edges (p : Path) : List Edge :=
  p.map (·.toEdge)

theorem Path.edges_descend (p : Path) (n : Node) (e : Edge)
    : (p.descend n e).edges = p.edges ++ [e] := by
  simp [edges, descend]

theorem Path.length_descend (p : Path) (n : Node) (e : Edge)
    : (p.descend n e).length = p.length + 1 := by
  simp [descend]

namespace Value

def item? (v : Value) (i : Int) : Option Value :=
  if 0 ≤ i then v.items[i.toNat]? else none

def target? (v : Value) (e : Edge) : Option Value :=
  match e.index with
  | none => some (v.field e.key)
  | some i => (v.field e.key).item? i

def follow? (v : Value) : List Edge → Option Value
  | [] => some v
  | e :: rest => (v.target? e).bind fun below => below.follow? rest

theorem follow?_append (v : Value) (edges later : List Edge)
    : v.follow? (edges ++ later) = (v.follow? edges).bind (·.follow? later) := by
  induction edges generalizing v with
  | nil => rfl
  | cons e rest ih =>
    rw [List.cons_append, follow?, follow?]
    cases v.target? e with
    | none => rfl
    | some below => exact ih below

theorem field_of_mem {v value : Value} {key : String} (hnames : v.hasDistinctNames = true)
    (h : (key, value) ∈ v.fields) : v.field key = value := by
  cases v with
  | record id form fs =>
    have hnodup : (fs.map (·.1)).Nodup := of_decide_eq_true hnames
    have hmem : (key, value) ∈ fs := by
      rw [fields] at h
      split at h
      · exact h
      · exact List.mem_of_mem_filter h
    rw [field, field?, lookup_of_nodup hnodup hmem]
    rfl
  | _ => contradiction

theorem target?_child {v : Value} {e : Edge} {c : Node} (hnames : v.hasDistinctNames = true)
    (h : (e, c) ∈ v.children) : v.target? e = some c.value := by
  obtain ⟨key, value, hfield, ⟨rfl, rfl⟩ | ⟨i, rfl, hitem⟩⟩ := exists_of_mem_children h
  · rw [target?, field_of_mem hnames hfield]
  · simp [target?, field_of_mem hnames hfield, item?, hitem]

theorem place_of_edge {v : Value} {e : Edge} {c d : Node} {j k : Nat}
    (hnames : v.hasDistinctNames = true) (hj : v.children[j]? = some (e, c))
    (hk : v.children[k]? = some (e, d)) : j = k := by
  have hlt : j < (v.children.map (·.1)).length := by
    rw [List.length_map]
    exact (List.getElem?_eq_some_iff.1 hj).1
  apply (List.getElem?_inj hlt (nodup_edges hnames)).1
  rw [List.getElem?_map, List.getElem?_map, hj, hk]
  rfl

end Value

/--
A path from a value to a value: its first step is at the one, each next step is at what the step
before it leads to, the last step leads to the other, and so do all edges together.
-/
structure Path.Connects (p : Path) (root target : Value) : Prop where
  first : ∀ step ∈ p.head?, step.node = root
  next : p.IsChain fun step below => step.node.target? step.toEdge = some below.node
  last : ∀ step ∈ p.getLast?, step.node.target? step.toEdge = some target
  follow : root.follow? p.edges = some target

theorem Path.Connects.nil (v : Value) : Connects [] v v :=
  ⟨by simp, .nil, by simp, rfl⟩

theorem Path.Connects.descend {p : Path} {root target : Value} {n : Node} {e : Edge}
    (h : p.Connects root n.value) (hstep : n.value.target? e = some target)
    : (p.descend n e).Connects root target := by
  have hchain : List.IsChain
      (fun (step below : Step) => step.node.target? step.toEdge = some below.node)
      [(⟨e, n.value⟩ : Step)] := .singleton _
  refine ⟨?_, ?_, ?_, ?_⟩
  · cases p with
    | nil =>
      have hroot : root = n.value := Option.some.inj h.follow
      simp [Path.descend, hroot]
    | cons step rest => exact h.first
  · apply h.next.append hchain
    intro step hlast below hbelow
    obtain rfl : (⟨e, n.value⟩ : Step) = below := by simpa using hbelow
    exact h.last step hlast
  · intro step hlast
    rw [Path.descend, List.getLast?_concat, Option.mem_some_iff] at hlast
    rw [← hlast]
    exact hstep
  · rw [edges_descend, Value.follow?_append, h.follow, Option.bind_some, Value.follow?, hstep]
    rfl

/--
The edges that lead from a node to a node: each of them leads to a node that is the value of a
field, or an element of one, of the node before it.
-/
inductive Node.Leads : Node → List Edge → Node → Prop where
  | here (n : Node) : Leads n [] n
  | field {n c m : Node} {key : String} {edges : List Edge}
      (field : (key, c.value) ∈ n.value.fields) (below : Leads c edges m) :
      Leads n (⟨key, none⟩ :: edges) m
  | item {n c m : Node} {key : String} {value : Value} {i : Nat} {edges : List Edge}
      (field : (key, value) ∈ n.value.fields) (item : value.items[i]? = some c.value)
      (below : Leads c edges m) : Leads n (⟨key, some i⟩ :: edges) m

theorem Node.leads_child {n c m : Node} {e : Edge} {edges : List Edge}
    (h : (e, c) ∈ n.value.children) (below : Leads c edges m) : Leads n (e :: edges) m := by
  obtain ⟨key, value, hfield, ⟨rfl, rfl⟩ | ⟨i, rfl, hitem⟩⟩ := Value.exists_of_mem_children h
  · exact .field hfield below
  · exact .item hfield hitem below

namespace Strategy

variable {ε : Type} {n : Node} {h : Acc (all : Strategy ε).IsChild n} {path : Path}
  {route : Route}

theorem path_preorder {x : Occurrence} (hx : x ∈ (all.outline n h).preorder path route)
    : path <+: x.path ∧ x.path.length + route.length = path.length + x.route.length := by
  induction h generalizing path route with
  | intro n _ ih =>
    rcases mem_preorder_all.1 hx with rfl | ⟨k, e, c, hc, hk, hx⟩
    · exact ⟨List.prefix_refl path, rfl⟩
    · obtain ⟨hbegins, hlength⟩ := ih c ⟨e, List.mem_of_getElem? hk⟩ hx
      refine ⟨(List.prefix_append path _).trans hbegins, ?_⟩
      rw [Path.length_descend, List.length_cons] at hlength
      omega

theorem connects_preorder {root : Value} {x : Occurrence}
    (hnames : n.value.everywhere Value.hasDistinctNames = true)
    (hpath : path.Connects root n.value) (hx : x ∈ (all.outline n h).preorder path route)
    : x.path.Connects root x.node.value := by
  induction h generalizing path route with
  | intro n _ ih =>
    rcases mem_preorder_all.1 hx with rfl | ⟨k, e, c, hc, hk, hx⟩
    · exact hpath
    · have hchild : (e, c) ∈ n.value.children := List.mem_of_getElem? hk
      have hstep := Value.target?_child (Value.everywhere_self hnames) hchild
      exact ih c ⟨e, hchild⟩ (Value.everywhere_child hnames hchild) (hpath.descend hstep) hx

theorem route_eq_of_edges_eq {x y : Occurrence}
    (hnames : n.value.everywhere Value.hasDistinctNames = true)
    (hx : x ∈ (all.outline n h).preorder path route)
    (hy : y ∈ (all.outline n h).preorder path route) (hedges : x.path.edges = y.path.edges)
    : x.route = y.route := by
  have hlength : x.route.length = y.route.length := by
    have hxy := congrArg List.length hedges
    rw [Path.edges, Path.edges, List.length_map, List.length_map] at hxy
    have hx := (path_preorder hx).2
    have hy := (path_preorder hy).2
    omega
  induction h generalizing path route with
  | intro n _ ih =>
    rcases mem_preorder_all.1 hx with rfl | ⟨j, e, c, hc, hj, hx'⟩
    · exact (Outline.route_preorder hy).eq_of_length hlength
    · rcases mem_preorder_all.1 hy with rfl | ⟨k, e', d, hd, hk, hy'⟩
      · exact ((Outline.route_preorder hx).eq_of_length hlength.symm).symm
      · have hchild : (e, c) ∈ n.value.children := List.mem_of_getElem? hj
        -- both lists of edges begin with those of the path and the edge to the child
        have hbegins := (path_preorder hx').1.map (·.toEdge)
        have hbegins' := (path_preorder hy').1.map (·.toEdge)
        change (path.descend n e).edges <+: x.path.edges at hbegins
        change (path.descend n e').edges <+: y.path.edges at hbegins'
        rw [hedges, Path.edges_descend] at hbegins
        rw [Path.edges_descend] at hbegins'
        have hsame := (List.prefix_of_prefix_length_le hbegins hbegins' (by simp)).eq_of_length
          (by simp)
        have he : e = e' := by simpa using hsame
        subst he
        obtain rfl : j = k := Value.place_of_edge (Value.everywhere_self hnames) hj hk
        rw [hj, Option.some.injEq, Prod.mk.injEq] at hk
        obtain ⟨-, rfl⟩ := hk
        exact ih c ⟨e, hchild⟩ (Value.everywhere_child hnames hchild) hx' hy'

theorem leads_of_mem_preorder {x : Occurrence} (hx : x ∈ (all.outline n h).preorder path route)
    : ∃ edges, x.path.edges = path.edges ++ edges ∧ n.Leads edges x.node := by
  induction h generalizing path route with
  | intro n _ ih =>
    rcases mem_preorder_all.1 hx with rfl | ⟨k, e, c, hc, hk, hx⟩
    · exact ⟨[], by simp, .here n⟩
    · have hchild : (e, c) ∈ n.value.children := List.mem_of_getElem? hk
      obtain ⟨edges, hedges, hleads⟩ := ih c ⟨e, hchild⟩ hx
      refine ⟨e :: edges, ?_, Node.leads_child hchild hleads⟩
      rw [hedges, Path.edges_descend, List.append_assoc]
      rfl

theorem mem_preorder_of_leads {m : Node} {edges : List Edge} (hleads : n.Leads edges m)
    (h : Acc (all : Strategy ε).IsChild n) (path : Path) (route : Route)
    : ∃ x ∈ (all.outline n h).preorder path route,
        x.path.edges = path.edges ++ edges ∧ x.node = m := by
  have below : ∀ {n c m : Node} {e : Edge} {edges : List Edge}, (e, c) ∈ n.value.children →
      (∀ (h : Acc (all : Strategy ε).IsChild c) path route,
        ∃ x ∈ (all.outline c h).preorder path route,
          x.path.edges = path.edges ++ edges ∧ x.node = m) →
      ∀ (h : Acc (all : Strategy ε).IsChild n) path route,
        ∃ x ∈ (all.outline n h).preorder path route,
          x.path.edges = path.edges ++ e :: edges ∧ x.node = m := by
    intro n c m e edges hchild ih h path route
    obtain ⟨k, hk⟩ := List.mem_iff_getElem?.1 hchild
    have hc : Acc (all : Strategy ε).IsChild c := h.inv ⟨e, hchild⟩
    obtain ⟨x, hx, hedges, hnode⟩ := ih hc (path.descend n e) (k :: route)
    refine ⟨x, mem_preorder_all.2 (.inr ⟨k, e, c, hc, hk, hx⟩), ?_, hnode⟩
    rw [hedges, Path.edges_descend, List.append_assoc]
    rfl
  induction hleads generalizing path route with
  | here n => exact ⟨_, mem_preorder_all.2 (.inl rfl), by simp, rfl⟩
  | field hfield _ ih =>
    exact below (Value.mem_children_field hfield rfl) (fun h => ih h) h path route
  | item hfield hitem _ ih =>
    have hnone := Value.ofValue?_of_item (List.mem_of_getElem? hitem)
    exact below (Value.mem_children_item hfield hnone hitem) (fun h => ih h) h path route

end Strategy

namespace Walk

variable {σ φ κ ε : Type} [Described ε]

/--
The paths of a walk over all children, whether it succeeds or not. A path has one step for each
occurrence above the one that is visited, connects the root with its node, and goes through fields
and elements that are nodes only. Different occurrences have different edges on their paths. If the
walk succeeds, all edges that lead from the root to a node are those of an occurrence that is
entered.
-/
theorem walk_paths (v : Visitor σ φ κ ε) (root : Node) (context : κ) (s : Session σ)
    (distinct : root.value.everywhere Value.hasDistinctNames = true)
    : walk v.recording .all root.value (Strategy.all_finiteFrom _) context (s.recording []) =
        ((walk v .all root.value (Strategy.all_finiteFrom _) context s).1,
          (walk v .all root.value (Strategy.all_finiteFrom _) context s).2.recording
            (recorded (events v .all root (Strategy.all_finiteFrom _) context s)))
      ∧ (∀ e ∈ events v .all root (Strategy.all_finiteFrom _) context s,
          e.site.path.length = e.route.length
          ∧ e.site.path.Connects root.value e.site.node.value
          ∧ root.Leads e.site.path.edges e.site.node)
      ∧ (∀ e ∈ events v .all root (Strategy.all_finiteFrom _) context s,
          ∀ e' ∈ events v .all root (Strategy.all_finiteFrom _) context s,
          e.site.path.edges = e'.site.path.edges → e.route = e'.route)
      ∧ ((walk v .all root.value (Strategy.all_finiteFrom _) context s).1 = .ok () →
          ∀ edges target, root.Leads edges target →
          ∃ e ∈ events v .all root (Strategy.all_finiteFrom _) context s,
            e.phase = .enter ∧ e.site.path.edges = edges ∧ e.site.node = target) := by
  refine ⟨walk_recording v .all root _ context s, ?_, ?_, ?_⟩
  · intro e he
    have hx := occurrence_history he
    refine ⟨?_, Strategy.connects_preorder distinct (.nil _) hx, ?_⟩
    · simpa [Event.occurrence] using (Strategy.path_preorder hx).2
    · obtain ⟨edges, hedges, hleads⟩ := Strategy.leads_of_mem_preorder hx
      rw [show e.site.path.edges = edges from hedges]
      exact hleads
  · intro e he e' he' hedges
    exact Strategy.route_eq_of_edges_eq distinct (occurrence_history he) (occurrence_history he')
      hedges
  · intro hok edges target hleads
    rw [walk_eq_visit] at hok
    obtain ⟨x, hx, hedges, hnode⟩ := Strategy.mem_preorder_of_leads (ε := ε) hleads
      (Strategy.all_finiteFrom _ root (Node.ofValue?_eq_some.2 rfl)) [] []
    -- a walk that succeeds enters all occurrences
    have henters := (orderly_history hok).enters
    rw [Strategy.unfolding] at henters
    rw [← henters] at hx
    obtain ⟨e, he, rfl⟩ := List.mem_map.1 hx
    rw [List.mem_filter, decide_eq_true_eq] at he
    exact ⟨e, he.1, he.2, hedges, hnode⟩

theorem walk_paths_sample
    : sampleRoot.value.everywhere Value.hasDistinctNames = true
      ∧ (∀ e ∈ sampleEvents [], e.site.path.length = e.route.length
          ∧ e.site.path.Connects sampleRoot.value e.site.node.value
          ∧ sampleRoot.Leads e.site.path.edges e.site.node)
      ∧ ∃ e ∈ sampleEvents [], e.phase = .enter ∧ e.site.path.edges = [⟨"body", some 1⟩]
          ∧ e.site.node = sampleLeaf := by
  have hdistinct : sampleRoot.value.everywhere Value.hasDistinctNames = true := by decide
  have hpaths := walk_paths (scripted []) sampleRoot .null sampleSession hdistinct
  refine ⟨hdistinct, hpaths.2.1, hpaths.2.2.2 ?_ _ _ ?_⟩
  · rw [walk_eq_visit, unfolding_sampleRoot]
    rfl
  · have hfield : ("body", .list [.null, sampleLeaf.value]) ∈ sampleRoot.value.fields := by
      simp [sampleRoot, Value.fields, Form.listsHidden, sampleLeaf]
    exact .item (i := 1) hfield rfl (.here sampleLeaf)

end Walk

end Arbor
