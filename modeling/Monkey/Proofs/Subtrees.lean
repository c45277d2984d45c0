import Monkey.Node

/-!
# The trees inside a tree

The direct parts of a tree, by the sort of their places, and all trees that
a tree is made of. The branches of an `if` and the bodies of literals count as
blocks, as they do for everything that walks over trees.

## Main results

* `Node.subtrees_eq` — the subtrees of a tree are those of its children, in
  order, and the tree itself.
-/

namespace Monkey

namespace Node

/-- The parts of a tree that stand in the place of an expression. -/
@[simp] def operands : Node → List Node
  | letStmt _ e | returnStmt e | exprStmt e => [e]
  | array es => es
  | hash ps => ps.flatMap fun p => [p.1, p.2]
  | index l i => [l, i]
  | prefixOp _ r => [r]
  | infixOp l _ r => [l, r]
  | ifExpr c _ _ => [c]
  | call callee args => callee :: args
  | _ => []

/-- The statements that a tree lists itself. -/
@[simp] def listed : Node → List Node
  | program ss | block ss => ss
  | _ => []

/-- The bodies of a tree. -/
@[simp] def bodies : Node → List (List Node)
  | ifExpr _ t e => t :: e.toList
  | fnLit _ body | macroLit _ body => [body]
  | _ => []

/-- The trees directly below a tree, bodies as blocks. -/
def children (n : Node) : List Node :=
  n.operands ++ n.listed ++ n.bodies.map block

mutual

/-- A tree and all trees inside it, each behind those inside it, from left to right. -/
def subtrees : Node → List Node
  | program ss => subtreesOf ss ++ [program ss]
  | letStmt name e => e.subtrees ++ [letStmt name e]
  | returnStmt e => e.subtrees ++ [returnStmt e]
  | exprStmt e => e.subtrees ++ [exprStmt e]
  | block ss => subtreesOf ss ++ [block ss]
  | ident name => [ident name]
  | int n => [int n]
  | str s => [str s]
  | bool b => [bool b]
  | array es => subtreesOf es ++ [array es]
  | hash ps => subtreesOfPairs ps ++ [hash ps]
  | index l i => l.subtrees ++ i.subtrees ++ [index l i]
  | prefixOp op r => r.subtrees ++ [prefixOp op r]
  | infixOp l op r => l.subtrees ++ r.subtrees ++ [infixOp l op r]
  | ifExpr c t e => c.subtrees ++ (subtreesOf t ++ [block t]) ++ subtreesOfElse e ++ [ifExpr c t e]
  | fnLit ps body => subtreesOf body ++ [block body] ++ [fnLit ps body]
  | call callee args => callee.subtrees ++ subtreesOf args ++ [call callee args]
  | macroLit ps body => subtreesOf body ++ [block body] ++ [macroLit ps body]
termination_by structural n => n

/-- The subtrees of the trees of a list. -/
def subtreesOf : List Node → List Node
  | [] => []
  | n :: ns => n.subtrees ++ subtreesOf ns
termination_by structural ns => ns

/-- The subtrees of keys and values. -/
def subtreesOfPairs : List (Node × Node) → List Node
  | [] => []
  | (k, v) :: ps => k.subtrees ++ v.subtrees ++ subtreesOfPairs ps
termination_by structural ps => ps

/-- The subtrees of the branch after `else`. -/
def subtreesOfElse : Option (List Node) → List Node
  | none => []
  | some ss => subtreesOf ss ++ [block ss]
termination_by structural e => e

end

theorem subtreesOf_eq (ns : List Node) : subtreesOf ns = ns.flatMap subtrees := by
  induction ns with
  | nil => rfl
  | cons n ns ih => rw [subtreesOf, ih, List.flatMap_cons]

theorem subtreesOfPairs_eq (ps : List (Node × Node)) :
    subtreesOfPairs ps = (hash ps).operands.flatMap subtrees := by
  induction ps with
  | nil => rfl
  | cons p ps ih =>
    obtain ⟨k, v⟩ := p
    rw [subtreesOfPairs, ih]
    simp

theorem subtreesOfElse_eq (e : Option (List Node)) :
    subtreesOfElse e = (e.toList.map block).flatMap subtrees := by
  cases e with
  | none => rfl
  | some ss => simp [subtreesOfElse, subtrees]

/-- The subtrees of a tree are those of its children, and the tree itself. -/
theorem subtrees_eq (n : Node) : n.subtrees = n.children.flatMap subtrees ++ [n] := by
  cases n <;> simp [subtrees, children, subtreesOf_eq, subtreesOfPairs_eq, subtreesOfElse_eq]

theorem mem_children {n c : Node} :
    c ∈ n.children ↔ c ∈ n.operands ∨ c ∈ n.listed ∨ ∃ ss ∈ n.bodies, block ss = c := by
  simp [children]

theorem mem_operands_hash {ps : List (Node × Node)} {p : Node × Node} (h : p ∈ ps) :
    p.1 ∈ (hash ps).operands ∧ p.2 ∈ (hash ps).operands :=
  ⟨List.mem_flatMap.2 ⟨p, h, by simp⟩, List.mem_flatMap.2 ⟨p, h, by simp⟩⟩

theorem mem_children_hash {ps : List (Node × Node)} {c : Node} :
    c ∈ (hash ps).children ↔ ∃ p ∈ ps, c = p.1 ∨ c = p.2 := by
  simp [children, List.mem_flatMap]

theorem mem_subtrees {n t : Node} : t ∈ n.subtrees ↔ t = n ∨ ∃ c ∈ n.children, t ∈ c.subtrees := by
  rw [subtrees_eq]
  simp [or_comm]

theorem self_mem_subtrees (n : Node) : n ∈ n.subtrees :=
  mem_subtrees.2 (.inl rfl)

theorem mem_subtrees_of_child {n c : Node} (h : c ∈ n.children) : c ∈ n.subtrees :=
  mem_subtrees.2 (.inr ⟨c, h, c.self_mem_subtrees⟩)

/-- What holds of a tree and everywhere below its children holds everywhere in the tree. -/
theorem forall_subtrees_iff {p : Node → Prop} {n : Node} :
    (∀ t ∈ n.subtrees, p t) ↔ p n ∧ ∀ c ∈ n.children, ∀ t ∈ c.subtrees, p t := by
  constructor
  · intro h
    exact ⟨h n (self_mem_subtrees n), fun c hc t ht => h t (mem_subtrees.2 (.inr ⟨c, hc, ht⟩))⟩
  · rintro ⟨hn, hbelow⟩ t ht
    rcases mem_subtrees.1 ht with rfl | ⟨c, hc, ht⟩
    · exact hn
    · exact hbelow c hc t ht

theorem length_subtrees_lt {n c : Node} (h : c ∈ n.children) :
    c.subtrees.length < n.subtrees.length := by
  obtain ⟨before, after, hsplit⟩ := List.append_of_mem h
  rw [subtrees_eq n, hsplit]
  simp only [List.flatMap_append, List.flatMap_cons, List.length_append, List.length_singleton]
  omega

/-- Induction on trees by way of their children. -/
theorem child_induction {motive : Node → Prop}
    (h : ∀ n : Node, (∀ c ∈ n.children, motive c) → motive n) (n : Node) : motive n :=
  h n fun c hc =>
    have := length_subtrees_lt hc
    child_induction h c
termination_by n.subtrees.length

/-- What is inside a subtree is inside the tree. -/
theorem mem_subtrees_trans {n t u : Node} (ht : t ∈ n.subtrees) (hu : u ∈ t.subtrees) :
    u ∈ n.subtrees := by
  induction n using child_induction with
  | h n ih =>
    rcases mem_subtrees.1 ht with rfl | ⟨c, hc, ht⟩
    · exact hu
    · exact mem_subtrees.2 (.inr ⟨c, hc, ih c hc ht⟩)

/-- Induction on trees by way of all trees inside them. -/
theorem subtree_induction {motive : Node → Prop}
    (h : ∀ n : Node, (∀ c ∈ n.children, ∀ t ∈ c.subtrees, motive t) → motive n) (n : Node) :
    motive n := by
  have hall : ∀ n : Node, ∀ t ∈ n.subtrees, motive t :=
    child_induction fun n ih => forall_subtrees_iff.2 ⟨h n ih, ih⟩
  exact hall n n (self_mem_subtrees n)

end Node
end Monkey
