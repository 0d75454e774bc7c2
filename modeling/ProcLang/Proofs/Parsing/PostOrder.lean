import ProcLang.Proofs.Generation.Outcome

/-!
The numbers of the nodes of a program that was read: they list the tree in post-order.
-/

namespace ProcLang

/-- The nodes of every program that is read form one tree, in post-order: the walk from the root along
the children, those of a node in source order and before the node, lists `0, 1, 2, …` up to the number of
nodes.  So the root is the last node, what is reached from it are the numbers of all nodes, a child has a
smaller number than its parent, and the parent that is looked up for a node is the one node that it is
directly below; the root has none. -/
theorem parse_postorder {tokens : List Token} {ast : Ast} (h : parse tokens = .ok ast) :
    ∃ root, ast.root = some root ∧
      (∀ ids, ast.PostOrder [root.tag.id] ids ↔ ids = List.range ast.size) ∧
      root.tag.id + 1 = ast.size ∧
      (∀ id, Relation.ReflTransGen ast.Child root.tag.id id ↔ id < ast.size) ∧
      (∀ p c, ast.Child p c → c < p) ∧
      (∀ p c, ast.parent? c = some p ↔ ast.Child p c) ∧
      ast.parent? root.tag.id = none := by
  obtain ⟨root, hpost⟩ := Parsing.postordered_of_parse h
  refine ⟨root, hpost.root_eq, fun ids => ⟨?_, ?_⟩, hpost.root_last, fun id => ?_,
    fun _ _ => hpost.child_lt, fun _ _ => hpost.parent?_eq_some_iff, hpost.parent?_root⟩
  · intro hids
    exact hids.unique hpost.walk
  · rintro rfl
    exact hpost.walk
  · rw [← List.mem_range, hpost.walk.mem_iff]
    simp

/-- A program with a chain of operators and a chain of branches has 16 nodes in one post-order. -/
theorem parse_postorder_chains : ∃ tokens ast root,
    tokenize "t.mc" "void f(int a) \x7b if (a - 1 - a) \x7b a = 2; \x7d else if (a) \x7b return; \x7d \x7d" =
      .ok tokens ∧
    parse tokens = .ok ast ∧ ast.root = some root ∧ ast.size = 16 ∧
    ast.PostOrder [root.tag.id] (List.range 16) ∧ ast.parent? 2 = some 4 ∧ ast.Child 4 2 := by
  have hpasses : Generation.passes "t.mc"
      "void f(int a) \x7b if (a - 1 - a) \x7b a = 2; \x7d else if (a) \x7b return; \x7d \x7d"
      (fun ast => ast.size = 16 ∧ ast.parent? 2 = some 4) = true := by
    decide +kernel
  obtain ⟨tokens, ast, htokens, hparse, htest⟩ := Generation.exists_of_passes hpasses
  obtain ⟨hsize, hparent⟩ := of_decide_eq_true htest
  obtain ⟨root, hroot, hwalk, -, -, -, hparents, -⟩ := parse_postorder hparse
  refine ⟨tokens, ast, root, htokens, hparse, hroot, hsize, ?_, hparent, (hparents 4 2).mp hparent⟩
  rw [← hsize]
  exact (hwalk _).mpr rfl

end ProcLang
