import ProcLang.Ast
import Mathlib.Data.List.Nodup
import Mathlib.Data.List.Pairwise
import Mathlib.Logic.Relation

/-!
Programs in post-order.  A list of nodes is the post-order of some trees if the nodes below a node
stand right before it, those of the first part first.  If the nodes of a program are the post-order of
its root and are numbered by their places, then a walk along the numbers of the children lists
`0, 1, 2, …`, every node but the root is a child of exactly one node, and children have smaller numbers
than their parents.
-/

namespace ProcLang

/-- The nodes directly below an expression, in source order. -/
def Expr.subnodes : Expr → List Node
  | unary _ _ e => [.expr e]
  | binary _ _ l r => [.expr l, .expr r]
  | literal .. | var .. | misplaced .. => []

/-- The nodes directly below a statement, in source order. -/
def Stmt.subnodes : Stmt → List Node
  | block _ body => body.map .stmt
  | procedure _ _ body => body.toList.map .stmt
  | call _ _ args => args.map .expr
  | declaration _ _ _ init => init.toList.map .expr
  | assignment _ _ value => [.expr value]
  | branch _ c t e => .expr c :: .stmt t :: e.toList.map .stmt
  | loop _ c body => [.expr c, .stmt body]
  | continueLoop _ | breakLoop _ => []
  | giveBack _ value => value.toList.map .expr
  | expression e => e.subnodes

namespace Node

/-- The nodes directly below a node, in source order. -/
def subnodes : Node → List Node
  | expr e => e.subnodes
  | stmt s => s.subnodes

theorem children_eq (x : Node) : x.children = x.subnodes.map (·.tag.id) := by
  have hexpr : ∀ e : Expr, e.children = e.subnodes.map (·.tag.id) := by
    intro e
    cases e <;> rfl
  cases x with
  | expr e => exact hexpr e
  | stmt s =>
    cases s with
    | expression e => exact hexpr e
    | _ => simp [children, subnodes, Stmt.children, Stmt.subnodes, tag]

/-- The list is the post-order of the trees: what is below a node comes right before it. -/
inductive PostOrder : List Node → List Node → Prop
  | nil : PostOrder [] []
  | cons {x : Node} {xs below later : List Node} : PostOrder x.subnodes below → PostOrder xs later →
      PostOrder (x :: xs) (below ++ x :: later)

namespace PostOrder

variable {x : Node} {xs ys l m : List Node}

theorem append (h : PostOrder xs l) (h' : PostOrder ys m) : PostOrder (xs ++ ys) (l ++ m) := by
  induction h with
  | nil => exact h'
  | cons hbelow _ _ ih =>
    rw [List.append_assoc]
    exact hbelow.cons ih

theorem exists_of_append (h : PostOrder (xs ++ ys) l) :
    ∃ l₁ l₂, l = l₁ ++ l₂ ∧ PostOrder xs l₁ ∧ PostOrder ys l₂ := by
  induction xs generalizing l with
  | nil => exact ⟨[], l, rfl, .nil, h⟩
  | cons x xs ih =>
    cases h with
    | cons hbelow hlater =>
      obtain ⟨l₁, l₂, rfl, h₁, h₂⟩ := ih hlater
      exact ⟨_, l₂, by simp, hbelow.cons h₁, h₂⟩

/-- A node behind its parts closes them to one tree. -/
theorem close (h : PostOrder (xs ++ x.subnodes) l) : PostOrder (xs ++ [x]) (l ++ [x]) := by
  obtain ⟨l₁, l₂, rfl, h₁, h₂⟩ := h.exists_of_append
  rw [List.append_assoc]
  exact h₁.append (h₂.cons .nil)

theorem exists_of_singleton (h : PostOrder [x] l) : ∃ below, l = below ++ [x] := by
  cases h with
  | cons _ hlater =>
    cases hlater
    exact ⟨_, rfl⟩

theorem sublist (h : PostOrder xs l) : xs.Sublist l := by
  induction h with
  | nil => exact .slnil
  | cons _ _ _ ih => exact (ih.cons_cons _).trans (List.sublist_append_right _ _)

/-- Every node of the list is one of the trees, or below exactly one node. -/
theorem perm (h : PostOrder xs l) :
    (xs.map (·.tag.id) ++ l.flatMap children).Perm (l.map (·.tag.id)) := by
  induction h with
  | nil => exact .refl _
  | @cons x xs below later _ _ ih ih' =>
    -- the children of `x` are in what is below it, the other trees in what comes later
    rw [← children_eq] at ih
    rw [List.perm_iff_count]
    intro id
    have hbelow := ih.count_eq id
    have hlater := ih'.count_eq id
    simp only [List.map_cons, List.map_append, List.flatMap_append, List.flatMap_cons, List.count_append,
      List.count_cons] at hbelow hlater ⊢
    omega

/-- If the numbers grow along the list, every child has a smaller number than its parent. -/
theorem child_lt (h : PostOrder xs l) (hl : (l.map (·.tag.id)).Pairwise (· < ·)) :
    ∀ y ∈ l, ∀ c ∈ y.children, c < y.tag.id := by
  induction h with
  | nil => exact fun y hy => absurd hy List.not_mem_nil
  | @cons x xs below later hbelow _ ih ih' =>
    simp only [List.map_append, List.map_cons, List.pairwise_append, List.pairwise_cons] at hl
    obtain ⟨hl₁, ⟨_, hl₂⟩, hlt⟩ := hl
    intro y hy c hc
    rcases List.mem_append.mp hy with hy | hy
    · exact ih hl₁ y hy c hc
    rcases List.mem_cons.mp hy with rfl | hy
    · rw [children_eq] at hc
      obtain ⟨z, hz, rfl⟩ := List.mem_map.mp hc
      exact hlt _ (List.mem_map_of_mem (hbelow.sublist.subset hz)) _ List.mem_cons_self
    · exact ih' hl₂ y hy c hc

end PostOrder

/-- All nodes of the trees have numbers of their own. -/
def Numbered (xs : List Node) : Prop := ∃ l, PostOrder xs l ∧ (l.map (·.tag.id)).Nodup

namespace Numbered

variable {x : Node} {xs : List Node}

theorem nodup (h : Numbered xs) : (xs.map (·.tag.id)).Nodup := by
  obtain ⟨l, hl, hnodup⟩ := h
  exact hnodup.sublist (hl.sublist.map _)

theorem below_rest (h : Numbered (x :: xs)) : Numbered x.subnodes ∧ Numbered xs := by
  obtain ⟨l, hl, hnodup⟩ := h
  cases hl with
  | cons hbelow hlater =>
    rw [List.map_append, List.map_cons, List.nodup_append] at hnodup
    exact ⟨⟨_, hbelow, hnodup.1⟩, _, hlater, (List.nodup_cons.mp hnodup.2.1).2⟩

theorem below (h : Numbered xs) (hx : x ∈ xs) : Numbered x.subnodes := by
  induction xs with
  | nil => cases hx
  | cons y ys ih =>
    rcases List.mem_cons.mp hx with rfl | hx
    · exact h.below_rest.1
    · exact ih h.below_rest.2 hx

end Numbered

end Node

namespace Ast

/-- The node with one number is directly below the node with another. -/
def Child (ast : Ast) (parent child : NodeId) : Prop :=
  ∃ node, ast.nodes[parent]? = some node ∧ child ∈ node.children

theorem Child.lt_size {ast : Ast} {p c : NodeId} (h : ast.Child p c) : p < ast.size := by
  obtain ⟨node, hnode, _⟩ := h
  exact (Array.getElem?_eq_some_iff.mp hnode).1

/-- The numbers of all that is reached from some nodes along their children, in post-order. -/
inductive PostOrder (ast : Ast) : List NodeId → List NodeId → Prop
  | nil : PostOrder ast [] []
  | cons {id : NodeId} {node : Node} {ids below later : List NodeId} :
      ast.nodes[id]? = some node → PostOrder ast node.children below → PostOrder ast ids later →
      PostOrder ast (id :: ids) (below ++ id :: later)

/-- There is at most one walk. -/
theorem PostOrder.unique {ast : Ast} {ids l m : List NodeId} (h : ast.PostOrder ids l)
    (h' : ast.PostOrder ids m) : l = m := by
  induction h generalizing m with
  | nil =>
    cases h'
    rfl
  | cons hnode _ _ ih ih' =>
    cases h' with
    | cons hnode' hbelow' hlater' =>
      obtain rfl := Option.some.inj (hnode.symm.trans hnode')
      rw [ih hbelow', ih' hlater']

/-- A walk reaches what is below the nodes it reaches. -/
theorem PostOrder.mem_iff {ast : Ast} {ids l : List NodeId} (h : ast.PostOrder ids l) {id : NodeId} :
    id ∈ l ↔ ∃ start ∈ ids, Relation.ReflTransGen ast.Child start id := by
  induction h with
  | nil => simp
  | @cons first node ids below later hnode _ _ ih ih' =>
    simp only [List.mem_append, List.mem_cons, ih, ih']
    constructor
    · rintro (⟨c, hc, hid⟩ | rfl | ⟨start, hstart, hid⟩)
      · exact ⟨first, .inl rfl, .head ⟨node, hnode, hc⟩ hid⟩
      · exact ⟨_, .inl rfl, .refl⟩
      · exact ⟨start, .inr hstart, hid⟩
    · rintro ⟨start, rfl | hstart, hid⟩
      · rcases hid.cases_head with rfl | ⟨c, ⟨node', hnode', hc⟩, hid⟩
        · exact .inr (.inl rfl)
        · obtain rfl := Option.some.inj (hnode.symm.trans hnode')
          exact .inl ⟨c, hc, hid⟩
      · exact .inr (.inr ⟨start, hstart, hid⟩)

/-- The nodes of the program are the post-order of its root and are numbered by their places. -/
structure Postordered (ast : Ast) (root : Stmt) : Prop where
  root_eq : ast.root = some root
  order : Node.PostOrder [.stmt root] ast.nodes.toList
  ids : ast.nodes.toList.map (·.tag.id) = List.range ast.size

namespace Postordered

variable {ast : Ast} {root : Stmt} (h : ast.Postordered root)
include h

theorem getElem?_eq_some_iff {id : NodeId} {node : Node} :
    ast.nodes[id]? = some node ↔ node ∈ ast.nodes ∧ node.tag.id = id := by
  have hid : ∀ {i : NodeId} {x : Node}, ast.nodes[i]? = some x → x.tag.id = i := by
    intro i x hx
    have hmap : (ast.nodes.toList.map (·.tag.id))[i]? = some x.tag.id := by simp [hx]
    rw [h.ids] at hmap
    obtain ⟨_, hi⟩ := List.getElem?_eq_some_iff.mp hmap
    rw [← hi, List.getElem_range]
  constructor
  · intro hnode
    exact ⟨Array.mem_of_getElem? hnode, hid hnode⟩
  · rintro ⟨hmem, rfl⟩
    obtain ⟨i, hi⟩ := Array.getElem?_of_mem hmem
    rwa [hid hi]

theorem child_iff {p c : NodeId} :
    ast.Child p c ↔ ∃ node ∈ ast.nodes.toList, node.tag.id = p ∧ c ∈ node.children := by
  simp only [Child, h.getElem?_eq_some_iff, and_assoc, Array.mem_toList_iff]

theorem pairwise : (ast.nodes.toList.map (·.tag.id)).Pairwise (· < ·) := by
  rw [h.ids]
  exact List.pairwise_lt_range

theorem child_lt {p c : NodeId} (hc : ast.Child p c) : c < p := by
  obtain ⟨node, hnode, rfl, hmem⟩ := h.child_iff.mp hc
  exact h.order.child_lt h.pairwise node hnode c hmem

/-- The walk from the root lists all numbers in order. -/
theorem walk : ast.PostOrder [root.tag.id] (List.range ast.size) := by
  have hwalk : ∀ {xs l : List Node}, Node.PostOrder xs l → l ⊆ ast.nodes.toList →
      ast.PostOrder (xs.map (·.tag.id)) (l.map (·.tag.id)) := by
    intro xs l hl
    induction hl with
    | nil => exact fun _ => .nil
    | @cons x xs below later _ _ ih ih' =>
      intro hsub
      rw [List.map_append, List.map_cons, List.map_cons]
      have hx : x ∈ ast.nodes := Array.mem_toList_iff.mp (hsub (by simp))
      refine .cons (h.getElem?_eq_some_iff.mpr ⟨hx, rfl⟩) ?_ ?_
      · rw [Node.children_eq]
        exact ih fun y hy => hsub (by simp [hy])
      · exact ih' fun y hy => hsub (by simp [hy])
  have := hwalk h.order (List.Subset.refl _)
  rwa [h.ids] at this

theorem root_last : root.tag.id + 1 = ast.size := by
  obtain ⟨below, hnodes⟩ := h.order.exists_of_singleton
  have hsize : ast.size = below.length + 1 := by
    rw [Ast.size, ← Array.length_toList, hnodes, List.length_append, List.length_singleton]
  have hids := h.ids
  rw [hnodes, hsize, List.map_append, List.range_succ] at hids
  have hlast := (List.append_inj' hids rfl).2
  rw [hsize, ← (List.cons.inj hlast).1]
  rfl

theorem not_child_root (p : NodeId) : ¬ ast.Child p root.tag.id := by
  intro hc
  have hlt : p < root.tag.id + 1 := by
    rw [h.root_last]
    exact hc.lt_size
  exact Nat.not_lt_of_le (Nat.le_of_lt_succ hlt) (h.child_lt hc)

/-- A node is directly below at most one other. -/
theorem eq_of_mem_children {x y : Node} (hx : x ∈ ast.nodes.toList) (hy : y ∈ ast.nodes.toList)
    {c : NodeId} (hcx : c ∈ x.children) (hcy : c ∈ y.children) : x = y := by
  have hnodup : (ast.nodes.toList.flatMap Node.children).Nodup := by
    refine List.Nodup.of_append_right (h.order.perm.nodup_iff.mpr ?_)
    rw [h.ids]
    exact List.nodup_range
  have hsymm : Std.Symm (Function.onFun List.Disjoint Node.children) := ⟨fun _ _ h _ hx hy => h hy hx⟩
  by_contra hne
  exact (List.nodup_flatMap.mp hnodup).2.forall hx hy hne hcx hcy

/-- The parent of a node is the node that it is directly below. -/
theorem parent?_eq_some_iff {p c : NodeId} : ast.parent? c = some p ↔ ast.Child p c := by
  rw [h.child_iff, Ast.parent?]
  constructor
  · intro hp
    obtain ⟨node, hfind, rfl⟩ := Option.map_eq_some_iff.mp hp
    have hc := List.find?_some hfind
    exact ⟨node, List.mem_reverse.mp (List.mem_of_find?_eq_some hfind), rfl, List.contains_iff_mem.mp hc⟩
  · rintro ⟨node, hnode, rfl, hc⟩
    cases hfind : ast.nodes.toList.reverse.find? (·.children.contains c) with
    | none =>
      have hnone := List.find?_eq_none.mp hfind node (List.mem_reverse.mpr hnode)
      exact absurd (List.contains_iff_mem.mpr hc) hnone
    | some other =>
      have hother := List.mem_reverse.mp (List.mem_of_find?_eq_some hfind)
      have hc' := List.find?_some hfind
      rw [h.eq_of_mem_children hother hnode (List.contains_iff_mem.mp hc') hc]
      rfl

theorem parent?_root : ast.parent? root.tag.id = none := by
  rw [Option.eq_none_iff_forall_ne_some]
  intro p hp
  exact h.not_child_root p (h.parent?_eq_some_iff.mp hp)

end Postordered

end Ast

end ProcLang
