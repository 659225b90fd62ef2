import Arbor.Proofs.Scope.Mirror
import Arbor.Proofs.Walk.Brackets
import Arbor.Proofs.Walk.TwoPhase

/-!
This module is about scope analyses. At every moment of a run the table reflects the occurrences
that have been entered so far; at the end of a run that succeeds these are all occurrences of the
tree. Main statement: where names are declared (`scopesOf_declares`).
-/

namespace Arbor

open Walk

namespace Scope

variable {place : Route → Option Occurrence} {root : Value} {α : Type} {hooks : Analysis.Hooks α}

def Reflects (place : Route → Option Occurrence) (root : Value) (xs : List Occurrence)
    (t : ScopeTable) : Prop :=
  Mirrors place root (keys xs) (xs.flatMap (directed place)) t

theorem Reflects.enter {a a' : Analysis α} {xs : List Occurrence}
    {x : Occurrence} {outer inner : ScopeId} {override : Override ScopeId}
    (h : Reflects place root xs a.table) (hplace : place x.route = some x)
    (hnew : x.route ∉ xs.map (·.route))
    (houter : (keys xs)[outer]? = some (enclosing place x.route))
    (henter : Analysis.enter hooks ⟨x.node, outer, x.path⟩ a = (.ok (override, inner), a'))
    : Reflects place root (xs ++ [x]) a'.table
      ∧ (keys (xs ++ [x]))[override.apply outer]? = some (own place x.route) := by
  unfold Analysis.enter at henter
  cases hopen : Analysis.openAt ⟨x.node, outer, x.path⟩ a with
  | mk opened a₁ =>
    obtain ⟨h₁, houter₁, hinner₁⟩ := Mirrors.openAt h hplace hnew houter hopen
    rw [hopen] at henter
    dsimp only at henter
    cases hbind : Analysis.bindAll x.node outer (opened.getD outer) a₁ with
    | mk result a₂ =>
      rw [hbind] at henter
      cases result with
      | error e =>
        injection henter with herror _
        contradiction
      | ok u =>
        simp only [Prod.mk.injEq, Except.ok.injEq] at henter
        obtain ⟨⟨hoverride, _⟩, ha⟩ := henter
        have h₂ := h₁.bindAll houter₁ hinner₁ hbind
        refine ⟨?_, ?_⟩
        · rw [Reflects, List.flatMap_append, List.flatMap_singleton, ← ha]
          exact h₂
        · rw [← hinner₁, ← hoverride]
          cases opened <;> rfl

/--
What a run keeps up beside its table. It may depend on the occurrences that have been entered;
entering one more carries it on, and leaving one does not touch it.
-/
structure Keeps (place : Route → Option Occurrence) (root : Value) (hooks : Analysis.Hooks α)
    (P : List Occurrence → Analysis α → Prop) : Prop where
  enter : ∀ {xs : List Occurrence} {x : Occurrence} {outer inner : ScopeId}
    {override : Override ScopeId} {a a' : Analysis α},
    P xs a → Reflects place root xs a.table → place x.route = some x →
    x.route ∉ xs.map (·.route) → (keys xs)[outer]? = some (enclosing place x.route) →
    Analysis.enter hooks ⟨x.node, outer, x.path⟩ a = (.ok (override, inner), a') →
    P (xs ++ [x]) a'
  exit : ∀ {xs : List Occurrence} {site : Site ScopeId} {a : Analysis α},
    P xs a → P xs { a with notes := hooks.exit site a }

theorem keeps_nothing : Keeps place root hooks fun _ _ => True :=
  ⟨fun _ _ _ _ _ _ => trivial, fun _ => trivial⟩

def Grows (place : Route → Option Occurrence) (root : Value) (hooks : Analysis.Hooks α)
    (P : List Occurrence → Analysis α → Prop) (outline : Outline Value.NotIterable) : Prop :=
  ∀ (xs : List Occurrence) (context : ScopeId) (path : Path) (route : Route)
    (s : Session (Analysis α)),
    Reflects place root xs s.state.table →
    P xs s.state →
    (∀ x ∈ outline.preorder path route, place x.route = some x) →
    ((xs ++ outline.preorder path route).map (·.route)).Nodup →
    (keys xs)[context]? = some (enclosing place route) →
    (visit (Analysis.visitor hooks) context path outline s).1 = .ok () →
    Reflects place root (xs ++ outline.preorder path route)
        (visit (Analysis.visitor hooks) context path outline s).2.state.table
      ∧ P (xs ++ outline.preorder path route)
        (visit (Analysis.visitor hooks) context path outline s).2.state

theorem keys_append {xs : List Occurrence} {id : ScopeId} {key : Key}
    (h : (keys xs)[id]? = some key) (ys : List Occurrence) : (keys (xs ++ ys))[id]? = some key := by
  have hlt : id < (keys xs).length := (List.getElem?_eq_some_iff.1 h).1
  rw [keys, List.filter_append, List.map_append, ← List.cons_append, ← keys]
  rw [List.getElem?_append_left hlt, h]

theorem grows_visitAll {P : List Occurrence → Analysis α → Prop} {xs : List Occurrence}
    {path : Path} {node : Node} {context : ScopeId} {route : Route} {i : Nat}
    {children : List (Edge × Outline Value.NotIterable)}
    (failure : Option Value.NotIterable) (s : Session (Analysis α))
    (ih : ∀ entry ∈ children, Grows place root hooks P entry.2)
    (h : Reflects place root xs s.state.table) (hP : P xs s.state)
    (hplace : ∀ x ∈ Outline.preorderAll children path route node i, place x.route = some x)
    (hnodup : ((xs ++ Outline.preorderAll children path route node i).map (·.route)).Nodup)
    (hcontext : (keys xs)[context]? = some (own place route))
    (hok : (visitAll (Analysis.visitor hooks) context path node children failure s).1 = .ok ())
    : Reflects place root (xs ++ Outline.preorderAll children path route node i)
          (visitAll (Analysis.visitor hooks) context path node children failure s).2.state.table
      ∧ P (xs ++ Outline.preorderAll children path route node i)
          (visitAll (Analysis.visitor hooks) context path node children failure s).2.state := by
  induction children generalizing i xs s with
  | nil =>
    cases failure with
    | some e => contradiction
    | none => simpa [Outline.preorderAll, Outline.collectAll, visitAll] using ⟨h, hP⟩
  | cons entry rest ihrest =>
    obtain ⟨edge, child⟩ := entry
    rw [Outline.preorderAll_cons] at hplace hnodup ⊢
    rw [← List.append_assoc] at hnodup ⊢
    rw [visitAll] at hok ⊢
    have hnodupChild : ((xs ++ child.preorder (path.descend node edge) (i :: route)).map
        (·.route)).Nodup := by
      rw [List.map_append] at hnodup
      exact hnodup.of_append_left
    have hchild := ih (edge, child) (List.mem_cons_self ..) xs context (path.descend node edge)
      (i :: route) s h hP (fun x hx => hplace x (List.mem_append_left _ hx)) hnodupChild
    rw [enclosing_cons] at hchild
    specialize hchild hcontext
    generalize visit (Analysis.visitor hooks) context (path.descend node edge) child s = out
      at hok hchild ⊢
    obtain ⟨result, s'⟩ := out
    cases result with
    | error fault => contradiction
    | ok u =>
      dsimp only at hok hchild ⊢
      obtain ⟨hreflects, hkept⟩ := hchild rfl
      apply ihrest
      · exact fun entry h => ih entry (List.mem_cons_of_mem _ h)
      · exact hreflects
      · exact hkept
      · exact fun x hx => hplace x (List.mem_append_right _ hx)
      · exact hnodup
      · exact keys_append hcontext _
      · exact hok

theorem grows_visit {P : List Occurrence → Analysis α → Prop} (keeps : Keeps place root hooks P)
    (outline : Outline Value.NotIterable) : Grows place root hooks P outline := by
  induction outline using Outline.induct with
  | mk node children failure ih =>
    intro xs outer path route s h hP hplace hnodup houter hok
    rw [Outline.preorder_mk] at hplace hnodup ⊢
    rw [List.append_cons] at hnodup ⊢
    have hown := hplace ⟨route, path, node⟩ (List.mem_cons_self ..)
    have hnew : route ∉ xs.map (·.route) := by
      simp only [List.map_append, List.map_cons, List.map_nil, List.nodup_append] at hnodup
      intro hmem
      exact hnodup.1.2.2 route hmem route (List.mem_singleton_self route) rfl
    rw [Analysis.visitor, visit_twoPhase] at hok ⊢
    cases henter : Analysis.enter hooks ⟨node, outer, path⟩ s.state with
    | mk result a =>
      rw [henter] at hok
      cases result with
      | error e => contradiction
      | ok entered =>
        obtain ⟨h₁, hinner⟩ := h.enter hown hnew houter henter
        have hP₁ := keeps.enter hP h hown hnew houter henter
        have hall := grows_visitAll failure { s.arrive path.length with state := a } ih h₁ hP₁
          (fun x hx => hplace x (List.mem_cons_of_mem _ hx)) hnodup hinner
        rw [Analysis.visitor] at hall
        dsimp only at hok ⊢
        generalize visitAll _ (entered.1.apply outer) path node children failure _ = out
          at hok hall ⊢
        obtain ⟨result, s'⟩ := out
        cases result with
        | error fault => contradiction
        | ok u =>
          -- the second phase leaves the table alone
          exact ⟨(hall rfl).1, keeps.exit (hall rfl).2⟩

end Scope

namespace Analysis

open Scope

variable {α : Type}

def outline (root : Node) : Outline Value.NotIterable :=
  Strategy.all.unfolding root (Strategy.all_finiteFrom root.value)

def visited (root : Node) : List Occurrence :=
  (outline root).preorder [] []

theorem run_eq_visit (hooks : Hooks α) (a : Analysis α) (root : Node)
    : run hooks a root.value =
        match visit (visitor hooks) moduleScope [] (outline root)
          (Session.record { state := a.restart hooks root.value } (.walkStarted root.kind)) with
        | (result, s) => (result, s.record (closingEntry result s)) := by
  rw [run, walk_eq_visit]
  rfl

theorem run_eq_ok {hooks : Hooks α} {a : Analysis α} {root : Value}
    (h : (run hooks a root).1.isOk = true) : (run hooks a root).1 = .ok () := by
  generalize (run hooks a root).1 = result at h ⊢
  cases result with
  | error fault => contradiction
  | ok u => rfl

theorem reflects_restart (hooks : Hooks α) (a : Analysis α) (place : Route → Option Occurrence)
    (root : Value) : Reflects place root [] (a.restart hooks root).table := by
  have only : ∀ {id : Nat} {key : Key}, (keys [])[id]? = some key → id = 0 ∧ key = none := by
    intro id key hid
    cases id with
    | zero =>
      injection hid with hid
      exact ⟨rfl, hid.symm⟩
    | succ id => contradiction
  refine ⟨rfl, List.nodup_singleton _, by simp, ScopeTable.Linked.empty.openScope .., ?_, ?_⟩
  · intro id key hid
    obtain ⟨rfl, rfl⟩ := only hid
    rfl
  · intro id key hid
    obtain ⟨rfl, rfl⟩ := only hid
    exact ⟨_, rfl, rfl, rfl, rfl⟩

theorem run_keeps {hooks : Hooks α} {a : Analysis α} {root : Node}
    {P : List Occurrence → Analysis α → Prop} (keeps : Keeps (outline root).at? root.value hooks P)
    (hP : P [] (a.restart hooks root.value)) (hok : (run hooks a root.value).1 = .ok ())
    : Reflects (outline root).at? root.value (visited root)
          (run hooks a root.value).2.state.table
      ∧ P (visited root) (run hooks a root.value).2.state := by
  rw [run, walk_eq_visit] at hok ⊢
  have hnodup := (outline root).nodup_preorder [] []
  exact grows_visit keeps (outline root) [] moduleScope [] [] _ (reflects_restart hooks a _ _) hP
    (fun x hx => Outline.at?_route hx) hnodup rfl hok

theorem reflects_run {hooks : Hooks α} {a : Analysis α} {root : Node}
    (hok : (run hooks a root.value).1 = .ok ())
    : Reflects (outline root).at? root.value (visited root)
        (run hooks a root.value).2.state.table :=
  (run_keeps keeps_nothing trivial hok).1

theorem scopesOf_run {root : Value} {table : ScopeTable}
    : (∃ log, scopesOf root = (.ok table, log))
      ↔
      (run .silent (.fresh .silent) root).1 = .ok ()
        ∧ (run .silent (.fresh .silent) root).2.state.table = table := by
  unfold scopesOf
  generalize run .silent (.fresh .silent) root = out
  obtain ⟨result, s⟩ := out
  cases result with
  | error fault => simp
  | ok u => simp

end Analysis

namespace Scope

def declaredIn (root : Node) (key : Key) : List (String × Value) :=
  named key ((Analysis.visited root).flatMap (directed (Analysis.outline root).at?))

/--
Where names are declared. The scopes of a tree are that of the whole tree and those that its
occurrences open. Each of them declares the first binding for each name among those that are
directed to it, in the order of the visits, and its parent is the scope that encloses it. What is
hoisted or imported never ends in a block.
-/
theorem scopesOf_declares (root : Node) (table : ScopeTable) (log : Log)
    (h : scopesOf root.value = (.ok table, log))
    : occurrencesIn .enter (events (Analysis.visitor .silent) .all root
          (Strategy.all_finiteFrom root.value) Analysis.moduleScope
          { state := (Analysis.fresh .silent).restart .silent root.value }) =
        Analysis.visited root
      ∧ table.size = (keys (Analysis.visited root)).length
      ∧ (∀ id key, (keys (Analysis.visited root))[id]? = some key →
          ∃ scope, table.scope? id = some scope
            ∧ scope.kind = (key.bind (kindAt (Analysis.outline root).at?)).getD .module
            ∧ scope.node =
              ((key.bind (Analysis.outline root).at?).map (·.node.value)).getD root.value
            ∧ scope.parent?.map ((keys (Analysis.visited root))[·]?) =
              key.map (fun r => some (enclosing (Analysis.outline root).at? r))
            ∧ scope.declarations = firstPerName (declaredIn root key)
            ∧ ∀ name, scope.declarations.lookup name = (declaredIn root key).lookup name)
      ∧ (∀ r target key id scope, target = .hoisted ∨ target = .module →
          keyOf (Analysis.outline root).at? r target = some key →
          (keys (Analysis.visited root))[id]? = some key →
          table.scope? id = some scope → scope.kind ≠ .block) := by
  obtain ⟨hok, htable⟩ := Analysis.scopesOf_run.1 ⟨log, h⟩
  have hreflects := Analysis.reflects_run hok
  rw [htable] at hreflects
  refine ⟨?_, hreflects.size, ?_, ?_⟩
  · rw [Analysis.run, walk_eq_visit] at hok
    exact (orderly_history hok).enters
  · intro id key hid
    obtain ⟨scope, hscope, hholds⟩ := hreflects.scope hid
    have hparent := hreflects.parent? hid
    rw [ScopeTable.parent?, hscope] at hparent
    refine ⟨scope, hscope, hholds.kind, hholds.node, hparent, hholds.declarations, ?_⟩
    intro name
    rw [hholds.declarations, lookup_firstPerName]
    rfl
  · intro r target key id scope htarget hkey hid hscope
    have hblock : isBlockKey (Analysis.outline root).at? key = false := by
      rcases htarget with rfl | rfl
      · injection hkey with hkey
        rw [← hkey]
        exact isBlockKey_hoisted _ r
      · injection hkey with hkey
        rw [← hkey]
        rfl
    rw [← hreflects.isBlock hid, ScopeTable.isBlock, hscope] at hblock
    simpa using hblock

def sampleName (id : Nat) : Node :=
  ⟨.record id .map [("type", .str "Identifier"), ("name", .str "a")], "Identifier", rfl⟩

def sampleDeclarator (id : Nat) : Node :=
  ⟨.record id .map [("type", .str "VariableDeclarator"), ("id", (sampleName (id + 1)).value)],
    "VariableDeclarator", rfl⟩

def sampleVar : Node :=
  ⟨.record 1 .map [("type", .str "VariableDeclaration"), ("kind", .str "var"),
    ("declarations", .list [(sampleDeclarator 2).value, (sampleDeclarator 4).value])],
    "VariableDeclaration", rfl⟩

def sampleClass : Node :=
  ⟨.record 6 .map [("type", .str "ClassDeclaration"), ("id", (sampleName 7).value)],
    "ClassDeclaration", rfl⟩

/-- The block `{ var a, a; class a }`. -/
def sampleBlock : Node :=
  ⟨.record 0 .map [("type", .str "BlockStatement"),
    ("body", .list [sampleVar.value, sampleClass.value])], "BlockStatement", rfl⟩

def sampleOutline : Outline Value.NotIterable :=
  .mk sampleBlock
    [(⟨"body", some 0⟩, .mk sampleVar
        [(⟨"declarations", some 0⟩, .mk (sampleDeclarator 2)
            [(⟨"id", none⟩, .mk (sampleName 3) [] none)] none),
          (⟨"declarations", some 1⟩, .mk (sampleDeclarator 4)
            [(⟨"id", none⟩, .mk (sampleName 5) [] none)] none)] none),
      (⟨"body", some 1⟩, .mk sampleClass [(⟨"id", none⟩, .mk (sampleName 7) [] none)] none)]
    none

theorem outline_sampleBlock : Analysis.outline sampleBlock = sampleOutline := by
  cbv

theorem scopesOf_declares_sample
    : ∃ table log, scopesOf sampleBlock.value = (.ok table, log)
      ∧ (declaredIn sampleBlock none).map (fun b => (b.1, b.2.id?)) =
        [("a", some 3), ("a", some 5)]
      ∧ (declaredIn sampleBlock (some [])).map (fun b => (b.1, b.2.id?)) =
        [("a", some 7)]
      ∧ ∀ id key, (keys (Analysis.visited sampleBlock))[id]? = some key →
          ∃ scope, table.scope? id = some scope
            ∧ scope.declarations = firstPerName (declaredIn sampleBlock key) := by
  have hok : (Analysis.run .silent (.fresh .silent) sampleBlock.value).1 = .ok () := by
    apply Analysis.run_eq_ok
    rw [Analysis.run_eq_visit, outline_sampleBlock]
    decide +kernel
  obtain ⟨log, hlog⟩ := Analysis.scopesOf_run.2 ⟨hok, rfl⟩
  refine ⟨_, log, hlog, ?_, ?_, ?_⟩
  · rw [declaredIn, Analysis.visited, outline_sampleBlock]
    decide +kernel
  · rw [declaredIn, Analysis.visited, outline_sampleBlock]
    decide +kernel
  · intro id key hid
    obtain ⟨_, _, hscopes, _⟩ := scopesOf_declares sampleBlock _ log hlog
    obtain ⟨scope, hscope, _, _, _, hdeclarations, _⟩ := hscopes id key hid
    exact ⟨scope, hscope, hdeclarations⟩

end Scope

end Arbor
