import Monkey.Node

/-!
# Deciding equality of syntax trees

Two trees are equal when they have the same shape and the same names, literals
and operators at the same places. The four functions below follow the four
types that nest inside each other: trees, lists of trees, lists of pairs and
optional branches.

## Main results

* `Node.same_iff` — `Node.same` answers `true` on equal trees and on no others.
* `DecidableEq Node`, by that equivalence.
-/

namespace Monkey.Node

mutual

/-- Whether two trees agree in every construct, name, literal and operator. -/
def same : Node → Node → Bool
  | .program a, .program b => sameList a b
  | .letStmt n a, .letStmt m b => n == m && same a b
  | .returnStmt a, .returnStmt b => same a b
  | .exprStmt a, .exprStmt b => same a b
  | .block a, .block b => sameList a b
  | .ident a, .ident b => a == b
  | .int a, .int b => a == b
  | .str a, .str b => a == b
  | .bool a, .bool b => a == b
  | .array a, .array b => sameList a b
  | .hash a, .hash b => samePairs a b
  | .index a i, .index b j => same a b && same i j
  | .prefixOp o a, .prefixOp p b => o == p && same a b
  | .infixOp a o i, .infixOp b p j => o == p && same a b && same i j
  | .ifExpr a s e, .ifExpr b t f => same a b && sameList s t && sameBranch e f
  | .fnLit p a, .fnLit q b => p == q && sameList a b
  | .call a s, .call b t => same a b && sameList s t
  | .macroLit p a, .macroLit q b => p == q && sameList a b
  | _, _ => false

/-- Whether two lists of trees agree place by place. -/
def sameList : List Node → List Node → Bool
  | [], [] => true
  | a :: as, b :: bs => same a b && sameList as bs
  | _, _ => false

/-- Whether two lists of key and value trees agree place by place. -/
def samePairs : List (Node × Node) → List (Node × Node) → Bool
  | [], [] => true
  | (k, v) :: as, (l, w) :: bs => same k l && same v w && samePairs as bs
  | _, _ => false

/-- Whether two optional branches agree. -/
def sameBranch : Option (List Node) → Option (List Node) → Bool
  | none, none => true
  | some a, some b => sameList a b
  | _, _ => false

end

mutual

theorem same_self : ∀ a : Node, same a a = true
  | .program a | .block a | .array a => by simp [same, sameList_self a]
  | .letStmt _ a | .returnStmt a | .exprStmt a | .prefixOp _ a => by simp [same, same_self a]
  | .ident _ | .int _ | .str _ | .bool _ => by simp [same]
  | .hash a => by simp [same, samePairs_self a]
  | .index a i | .infixOp a _ i => by simp [same, same_self a, same_self i]
  | .ifExpr a s e => by simp [same, same_self a, sameList_self s, sameBranch_self e]
  | .fnLit _ a | .macroLit _ a => by simp [same, sameList_self a]
  | .call a s => by simp [same, same_self a, sameList_self s]

theorem sameList_self : ∀ a : List Node, sameList a a = true
  | [] => by simp [sameList]
  | a :: as => by simp [sameList, same_self a, sameList_self as]

theorem samePairs_self : ∀ a : List (Node × Node), samePairs a a = true
  | [] => by simp [samePairs]
  | (k, v) :: as => by simp [samePairs, same_self k, same_self v, samePairs_self as]

theorem sameBranch_self : ∀ a : Option (List Node), sameBranch a a = true
  | none => by simp [sameBranch]
  | some a => by simp [sameBranch, sameList_self a]

end

mutual

theorem eq_of_same : ∀ {a b : Node}, same a b = true → a = b
  | .program a, b, h | .block a, b, h | .array a, b, h => by
    cases b <;> simp [same] at h; rw [eq_of_sameList h]
  | .letStmt _ a, b, h | .prefixOp _ a, b, h => by
    cases b <;> simp [same] at h; rw [h.1, eq_of_same h.2]
  | .returnStmt a, b, h | .exprStmt a, b, h => by
    cases b <;> simp [same] at h; rw [eq_of_same h]
  | .ident _, b, h | .int _, b, h | .str _, b, h | .bool _, b, h => by
    cases b <;> simp [same] at h; rw [h]
  | .hash a, b, h => by
    cases b <;> simp [same] at h; rw [eq_of_samePairs h]
  | .index a i, b, h => by
    cases b <;> simp [same] at h; rw [eq_of_same h.1, eq_of_same h.2]
  | .infixOp a _ i, b, h => by
    cases b <;> simp [same] at h; rw [h.1.1, eq_of_same h.1.2, eq_of_same h.2]
  | .ifExpr a s e, b, h => by
    cases b <;> simp [same] at h
    rw [eq_of_same h.1.1, eq_of_sameList h.1.2, eq_of_sameBranch h.2]
  | .fnLit _ a, b, h | .macroLit _ a, b, h => by
    cases b <;> simp [same] at h; rw [h.1, eq_of_sameList h.2]
  | .call a s, b, h => by
    cases b <;> simp [same] at h; rw [eq_of_same h.1, eq_of_sameList h.2]

theorem eq_of_sameList : ∀ {a b : List Node}, sameList a b = true → a = b
  | [], b, h => by cases b <;> simp [sameList] at h ⊢
  | a :: as, b, h => by
    cases b <;> simp [sameList] at h; rw [eq_of_same h.1, eq_of_sameList h.2]

theorem eq_of_samePairs : ∀ {a b : List (Node × Node)}, samePairs a b = true → a = b
  | [], b, h => by cases b <;> simp [samePairs] at h ⊢
  | (k, v) :: as, [], h => by simp [samePairs] at h
  | (k, v) :: as, (l, w) :: bs, h => by
    simp [samePairs] at h
    rw [eq_of_same h.1.1, eq_of_same h.1.2, eq_of_samePairs h.2]

theorem eq_of_sameBranch : ∀ {a b : Option (List Node)}, sameBranch a b = true → a = b
  | none, b, h => by cases b <;> simp [sameBranch] at h ⊢
  | some a, b, h => by
    cases b <;> simp [sameBranch] at h; rw [eq_of_sameList h]

end

theorem same_iff {a b : Node} : same a b = true ↔ a = b :=
  ⟨eq_of_same, fun h => h ▸ same_self a⟩

instance : DecidableEq Node :=
  fun _ _ => decidable_of_iff _ same_iff

end Monkey.Node
