import Monkey.Proofs.Traversal

/-!
# Rewritings that are refused

Rebuilding a tree stops when a rewriting answers a tree that cannot stand in the place of
the one that it was given. Of the exchanges up to there, the last one is the first
that went wrong. So the error says which answer was refused, and the rewriting is not
called again.

## Main definitions

* `Node.Refuses` — an answer cannot stand in the place of a tree.
* `Accepted`, `Refused` — exchanges that all went well, and exchanges of which the last did not.

## Main results

* `Traversal.all_accepted`, `Traversal.last_refused` — what becomes of the answers.
* `Node.rebuildM_refuses` — rebuilding stops exactly at the first answer that is refused.
-/

namespace Monkey

/-- An answer cannot stand in the place of a tree, for some reason. A block must stay a block. If the
tree stands in another one, a statement must stay a statement, and an expression must not become
a program or a statement. -/
inductive Node.Refuses (t : Node) (below : Prop) (answer : Node) : SortError → Prop where
  | block : t.isBlock = true → answer.isBlock = false → Refuses t below answer (.blockExpected answer)
  | statement : below → t.isStatement = true → t.isBlock = false → answer.isStatement = false →
    Refuses t below answer (.statementExpected answer)
  | expression : below → t.isExpression = true →
    answer.isProgram = true ∨ answer.isStatement = true →
    Refuses t below answer (.expressionExpected answer)

namespace Node
variable {n t answer : Node} {below : Prop} {e : SortError}

theorem isExpression_eq_false : n.isExpression = false ↔ n.isProgram = true ∨ n.isStatement = true := by
  cases n <;> simp [isExpression, isProgram, isStatement]

/-- What is refused does not suit. -/
theorem Refuses.unsuited (h : t.Refuses below answer e) :
    (below ∨ t.isBlock = true) ∧ t.suits answer = false ∧ e = t.refusal answer := by
  cases h with
  | block hblock hanswer => simp [suits, refusal, hblock, hanswer]
  | statement hbelow hstatement hblock hanswer =>
    simp [suits, refusal, hblock, hanswer, hstatement, hbelow]
  | expression hbelow hexpression hanswer =>
    rw [suits_expression hexpression, refusal, isBlock_of_isExpression hexpression,
      isStatement_of_isExpression hexpression]
    exact ⟨.inl hbelow, isExpression_eq_false.2 hanswer, rfl⟩

/-- What does not suit is refused, if it is for an expression or a statement that stands in a tree,
or for a block. -/
theorem refuses_iff (ht : below → t.isExpression = true ∨ t.isStatement = true) :
    t.Refuses below answer e ↔
      (below ∨ t.isBlock = true) ∧ t.suits answer = false ∧ e = t.refusal answer := by
  refine ⟨Refuses.unsuited, ?_⟩
  rintro ⟨hplace, hsuits, rfl⟩
  cases hblock : t.isBlock with
  | true =>
    rw [suits, if_pos hblock] at hsuits
    rw [refusal, if_pos hblock]
    exact .block hblock hsuits
  | false =>
    have hbelow : below := hplace.resolve_right (by simp [hblock])
    rcases ht hbelow with hexpression | hstatement
    · rw [suits_expression hexpression] at hsuits
      rw [refusal, hblock, isStatement_of_isExpression hexpression]
      exact .expression hbelow hexpression (isExpression_eq_false.1 hsuits)
    · rw [suits, hblock, if_neg (by simp), if_pos hstatement] at hsuits
      rw [refusal, hblock, if_neg (by simp), if_pos hstatement]
      exact .statement hbelow hstatement hblock hsuits

/-- Inside a well-sorted tree there are expressions and statements only. -/
theorem WellSorted.sort_of_mem_inside (hn : n.WellSorted) (ht : t ∈ n.inside) :
    t.isExpression = true ∨ t.isStatement = true := by
  induction n using child_induction with
  | h n ih =>
    obtain ⟨c, hc, ht⟩ := List.mem_flatMap.1 ht
    rw [subtrees_eq_inside, List.mem_append, List.mem_singleton] at ht
    rcases ht with ht | rfl
    · exact ih c hc (hn.child hc) ht
    · rcases mem_children.1 hc with he | hs | ⟨ss, -, rfl⟩
      · exact .inl ((wellSorted_iff.1 hn).operands t he).1
      · exact .inr ((wellSorted_iff.1 hn).listed t hs).1
      · exact .inr rfl

end Node

/-! ## The last exchange -/

/-- All answers can stand in the places of the trees. -/
def Accepted (ts : List Node) (xs : List Exchange) : Prop :=
  ∀ (i : Nat) (t : Node) (x : Exchange), ts[i]? = some t → xs[i]? = some x →
    t.suits x.answer = true

/-- All answers can, but for the last. -/
inductive Refused (ts : List Node) : List Exchange → SortError → Prop where
  | intro {xs : List Exchange} {x : Exchange} {t : Node} :
    Accepted ts xs → ts[xs.length]? = some t → t.suits x.answer = false →
    Refused ts (xs ++ [x]) (t.refusal x.answer)

section
variable {ts us : List Node} {xs ys : List Exchange} {t : Node} {x : Exchange} {e : SortError}

theorem Accepted.append_right (h : Accepted ts xs) (hle : xs.length ≤ ts.length) :
    Accepted (ts ++ us) xs :=
  fun i t x ht hx => h i t x (front_of_le hle ht hx) hx

theorem Accepted.append (h : Accepted ts xs) (hlength : xs.length = ts.length)
    (h' : Accepted us ys) : Accepted (ts ++ us) (xs ++ ys) := by
  intro i t x ht hx
  rcases front_or_behind hlength ht hx with ⟨ht, hx⟩ | ⟨j, -, ht, hx⟩
  · exact h i t x ht hx
  · exact h' j t x ht hx

theorem accepted_singleton (h : t.suits x.answer = true) : Accepted [t] [x] := by
  intro i t' x' ht hx
  obtain ⟨-, rfl⟩ : i = 0 ∧ t = t' := by simpa [List.getElem?_singleton] using ht
  obtain ⟨-, rfl⟩ : i = 0 ∧ x = x' := by simpa [List.getElem?_singleton] using hx
  exact h

theorem Refused.append_right (h : Refused ts xs e) : Refused (ts ++ us) xs e := by
  cases h with
  | intro haccepted ht hsuits =>
    have hlt := (List.getElem?_eq_some_iff.1 ht).1
    refine .intro (haccepted.append_right (Nat.le_of_lt hlt)) ?_ hsuits
    rwa [List.getElem?_append_left hlt]

theorem Refused.append_left (h : Refused us ys e) (haccepted : Accepted ts xs)
    (hlength : xs.length = ts.length) : Refused (ts ++ us) (xs ++ ys) e := by
  cases h with
  | intro haccepted' ht hsuits =>
    rw [← List.append_assoc]
    refine .intro (haccepted.append hlength haccepted') ?_ hsuits
    rwa [List.length_append, List.getElem?_append_right (by omega), hlength, Nat.add_sub_cancel_left]

end

namespace Traversal
variable {ns answers : List Node} {xs : List Exchange} {e : SortError}

/-- If all trees are rebuilt, all answers can stand in their places. -/
theorem all_accepted (h : Traversal ns xs (.ok answers)) : Accepted (ns.flatMap Node.subtrees) xs := by
  generalize hr : Except.ok answers = r at h
  induction h generalizing answers with
  | nil => exact fun _ _ _ ht => by simp at ht
  | inside | refused => cases hr
  | @accepted n g answer ns xs ys r hinside _ hsuits _ ih ih' =>
    cases r with
    | error e => cases hr
    | ok more =>
      rw [List.flatMap_cons, Node.subtrees_eq_inside, List.append_assoc]
      have hmore : Accepted ([n] ++ ns.flatMap Node.subtrees) ([⟨g, answer⟩] ++ ys) :=
        (accepted_singleton hsuits).append rfl (ih' rfl)
      exact (ih rfl).append hinside.length_eq hmore

/-- If not, the last answer cannot. -/
theorem last_refused (h : Traversal ns xs (.error e)) : Refused (ns.flatMap Node.subtrees) xs e := by
  generalize hr : Except.error e = r at h
  induction h with
  | nil => cases hr
  | @inside n ns xs e' _ ih =>
    rw [List.flatMap_cons, Node.subtrees_eq_inside, List.append_assoc]
    exact (ih hr).append_right
  | @refused n g answer ns xs hinside _ hsuits _ =>
    obtain rfl := Except.error.inj hr
    rw [List.flatMap_cons, Node.subtrees_eq_inside, List.append_assoc]
    refine .intro (hinside.all_accepted.append_right (Nat.le_of_eq hinside.length_eq)) ?_ hsuits
    simp [hinside.length_eq, Node.inside]
  | @accepted n g answer ns xs ys r hinside _ hsuits _ _ ih =>
    cases r with
    | ok more => cases hr
    | error e' =>
      obtain rfl := Except.error.inj hr
      rw [List.flatMap_cons, Node.subtrees_eq_inside, List.append_assoc]
      have hmore : Refused ([n] ++ ns.flatMap Node.subtrees) ([⟨g, answer⟩] ++ ys) e :=
        (ih rfl).append_left (accepted_singleton hsuits) rfl
      exact hmore.append_left hinside.all_accepted hinside.length_eq

end Traversal
namespace Node
variable {n : Node} {xs : List Exchange}

/-- No answer for a tree inside is refused. -/
def Unrefused (n : Node) (xs : List Exchange) : Prop :=
  ∀ (i : Nat) (t : Node) (x : Exchange) (e : SortError), n.subtrees[i]? = some t →
    xs[i]? = some x → ¬ t.Refuses (i + 1 < n.subtrees.length) x.answer e

/-- What stands in a tree of trees that are expressions or statements. -/
theorem WellSorted.refuses_iff_inside (hn : n.WellSorted) {i : Nat} {t answer : Node} {e : SortError}
    (ht : n.inside[i]? = some t) : t.Refuses (i + 1 < n.subtrees.length) answer e ↔
      t.suits answer = false ∧ e = t.refusal answer := by
  have hlt : i < n.inside.length := (List.getElem?_eq_some_iff.1 ht).1
  have hbelow : i + 1 < n.subtrees.length := by
    rw [length_subtrees]
    omega
  rw [refuses_iff fun _ => hn.sort_of_mem_inside (List.mem_of_getElem? ht)]
  simp [hbelow]

/-- The tree itself is answered with what cannot stand in its place only if it is a block. -/
theorem refuses_iff_root {answer : Node} {e : SortError} :
    n.Refuses (n.inside.length + 1 < n.subtrees.length) answer e ↔
      n.acceptRoot answer = .error e := by
  have habove : ¬ n.inside.length + 1 < n.subtrees.length := by
    rw [length_subtrees]
    omega
  rw [refuses_iff fun h => absurd h habove, acceptRoot, accept]
  cases hblock : n.isBlock with
  | false => simp [habove]
  | true => cases hsuits : n.suits answer <;> simp [eq_comm]

theorem WellSorted.unrefused (hn : n.WellSorted) (h : Accepted n.inside xs)
    (hle : xs.length ≤ n.inside.length) : n.Unrefused xs := by
  intro i t x e ht hx hrefuses
  rw [subtrees_eq_inside] at ht
  have ht := front_of_le hle ht hx
  obtain ⟨hsuits, -⟩ := (hn.refuses_iff_inside ht).1 hrefuses
  rw [h i t x ht hx] at hsuits
  cases hsuits

end Node

section
variable {n : Node} {xs : List Exchange}

/-- Of the exchanges when a tree is rebuilt only the last may be refused, and if it is, then
rebuilding stops. -/
theorem Handing.checked {r : Except SortError Node} (h : Handing n xs r) (hn : n.WellSorted) :
    match r >>= n.acceptRoot with
    | .ok _ => n.Unrefused xs
    | .error e => ∃ ys x t, xs = ys ++ [x] ∧ n.Unrefused ys ∧ n.subtrees[ys.length]? = some t ∧
        t.Refuses (ys.length + 1 < n.subtrees.length) x.answer e := by
  cases h with
  | inside hinside =>
    cases hinside.last_refused with
    | @intro ys x t haccepted ht hsuits =>
      have hlt : ys.length < n.inside.length := (List.getElem?_eq_some_iff.1 ht).1
      refine ⟨ys, x, t, rfl, hn.unrefused haccepted (Nat.le_of_lt hlt), ?_,
        (hn.refuses_iff_inside ht).2 ⟨hsuits, rfl⟩⟩
      rw [Node.subtrees_eq_inside, List.getElem?_append_left hlt]
      exact ht
  | @called g answer xs hinside hlifts =>
    -- Everything inside is rebuilt, so only the answer for the tree itself is left.
    have hunrefused := hn.unrefused hinside.all_accepted (Nat.le_of_eq hinside.length_eq)
    have hlength : xs.length = n.inside.length := hinside.length_eq
    show match n.acceptRoot answer with | .ok _ => _ | .error e => _
    cases hroot : n.acceptRoot answer with
    | ok n' =>
      intro i t x e ht hx hrefuses
      rw [Node.subtrees_eq_inside] at ht
      rcases front_or_behind hlength ht hx with ⟨htin, hx⟩ | ⟨j, rfl, ht, hx⟩
      · refine hunrefused i t x e ?_ hx hrefuses
        rwa [Node.subtrees_eq_inside]
      · obtain ⟨rfl, rfl⟩ : j = 0 ∧ n = t := by simpa [List.getElem?_singleton] using ht
        obtain rfl : ⟨g, answer⟩ = x := by simpa using hx
        rw [Nat.add_zero, Node.refuses_iff_root, hroot] at hrefuses
        cases hrefuses
    | error e =>
      refine ⟨xs, _, n, rfl, hunrefused, ?_, ?_⟩
      · rw [Node.subtrees_eq_inside, hlength]
        exact List.getElem?_concat_length
      · rw [hlength]
        exact Node.refuses_iff_root.2 hroot

end

/-- The error of a refused answer names its construct. -/
theorem Node.Refuses.message {t answer : Node} {below : Prop} {e : SortError}
    (h : t.Refuses below answer e) :
    ∃ sort ∈ ["block", "statement", "expression"],
      e.message = sort ++ " rewritten into " ++ answer.kindName := by
  cases h with
  | block => exact ⟨"block", by simp, rfl⟩
  | statement => exact ⟨"statement", by simp, rfl⟩
  | expression => exact ⟨"expression", by simp, rfl⟩

namespace Node.Unrefused
variable {n t : Node} {ys : List Exchange} {x y : Exchange} {i : Nat} {e e' : SortError}

/-- If none but the last is refused, one that is refused is the last. -/
theorem eq_last (h : n.Unrefused ys) (ht : n.subtrees[i]? = some t) (hx : (ys ++ [y])[i]? = some x)
    (hrefuses : t.Refuses (i + 1 < n.subtrees.length) x.answer e) : i = ys.length ∧ x = y := by
  by_cases hi : i < ys.length
  · rw [List.getElem?_append_left hi] at hx
    exact absurd hrefuses (h i t x e ht hx)
  · have hlast : i = ys.length := by
      have hlt := (List.getElem?_eq_some_iff.1 hx).1
      rw [List.length_append, List.length_singleton] at hlt
      omega
    subst hlast
    exact ⟨rfl, by simpa [eq_comm] using hx⟩

/-- If the last is refused, it is refused with an error that no other is refused with. -/
theorem eq_iff_refuses (h : n.Unrefused ys) (ht : n.subtrees[ys.length]? = some t)
    (hrefuses : t.Refuses (ys.length + 1 < n.subtrees.length) y.answer e) :
    e = e' ↔ ∃ (i : Nat) (t' : Node) (x : Exchange), n.subtrees[i]? = some t' ∧
      (ys ++ [y])[i]? = some x ∧ t'.Refuses (i + 1 < n.subtrees.length) x.answer e' := by
  constructor
  · rintro rfl
    exact ⟨_, t, y, ht, List.getElem?_concat_length, hrefuses⟩
  · rintro ⟨i, t', x, ht', hx, hrefuses'⟩
    obtain ⟨rfl, rfl⟩ := h.eq_last ht' hx hrefuses'
    obtain rfl : t = t' := Option.some.inj (ht.symm.trans ht')
    rw [hrefuses.unsuited.2.2, hrefuses'.unsuited.2.2]

end Node.Unrefused

/-- If well-sorted trees are answered for well-sorted ones, then trees are rebuilt to well-sorted
ones. -/
theorem Node.wellSorted_of_rebuildM {n n' : Node} {σ : Type} {f : Node → StateM σ Node} {s : σ}
    (hf : ∀ m s, m.WellSorted → ((f m).run s).1.WellSorted)
    (h : ((n.rebuildM f).run.run s).1 = .ok n') : n'.WellSorted := by
  have hbuilt : ∀ m : Node, m.Built WellSorted → (Judgement.always σ).holds (f m) WellSorted :=
    fun m hm s => hf m s (wellSorted_iff.2 hm)
  have hgood : Judgement.Either (fun _ => True) WellSorted ((n.rebuildM f).run.run s).1 :=
    Judgement.rebuildM hbuilt n s
  rwa [h] at hgood

/-- Rebuilding a well-sorted tree stops exactly if an answer is refused: one that is no block for
a block, one that is no statement for another statement in a tree, or a program or a statement for
an expression in a tree. The first such answer is the last exchange, and the error names it. If no
answer is refused, every tree is handed in, and if well-sorted trees are answered for well-sorted
ones, then the tree is rebuilt to a well-sorted one. -/
theorem Node.rebuildM_refuses {n : Node} (hn : n.WellSorted) {σ : Type} (f : Node → StateM σ Node)
    (s : σ) :
    let o := (n.rebuildM f).run.run s
    ∃ xs, (n.rebuildM (recording f)).run.run (s, []) = (o.1, o.2, xs) ∧ Exchanges f s xs o.2 ∧
      Follows n.subtrees xs ∧
      (∀ e, o.1 = .error e ↔ ∃ (i : Nat) (t : Node) (x : Exchange), n.subtrees[i]? = some t ∧
        xs[i]? = some x ∧ t.Refuses (i + 1 < n.subtrees.length) x.answer e) ∧
      (∀ (i : Nat) (t : Node) (x : Exchange) (e : SortError), n.subtrees[i]? = some t →
        xs[i]? = some x → t.Refuses (i + 1 < n.subtrees.length) x.answer e →
        xs.length = i + 1 ∧ ∃ sort ∈ ["block", "statement", "expression"],
          e.message = sort ++ " rewritten into " ++ x.answer.kindName) ∧
      ∀ n', o.1 = .ok n' → xs.length = n.subtrees.length ∧
        xs.getLast?.map Exchange.answer = some n' ∧
        ((∀ m s, m.WellSorted → ((f m).run s).1.WellSorted) → n'.WellSorted) := by
  intro o
  obtain ⟨xs, r, s', hxs, hhanding, hrun, hrecord⟩ := hn.exists_handing f s
  have ho : o = (r >>= n.acceptRoot, s') := hrun
  have hchecked := hhanding.checked hn
  rw [ho]
  refine ⟨xs, hrecord, hxs, hhanding.follows, ?_⟩
  rcases hresult : r >>= n.acceptRoot with e | n' <;> rw [hresult] at hchecked
  · obtain ⟨ys, y, t, rfl, hunrefused, ht, hrefuses⟩ := hchecked
    refine ⟨fun e' => ?_, fun i t' x e' ht' hx hrefuses' => ?_, nofun⟩
    · rw [Except.error.injEq, hunrefused.eq_iff_refuses ht hrefuses]
    · obtain ⟨rfl, -⟩ := hunrefused.eq_last ht' hx hrefuses'
      exact ⟨List.length_append, hrefuses'.message⟩
  · refine ⟨fun e => ⟨nofun, ?_⟩, fun i t x e ht hx hrefuses => ?_, fun m hm => ?_⟩
    · rintro ⟨i, t, x, ht, hx, hrefuses⟩
      exact absurd hrefuses (hchecked i t x e ht hx)
    · exact absurd hrefuses (hchecked i t x e ht hx)
    · obtain rfl := Except.ok.inj hm
      cases r with
      | error e => cases hresult
      | ok answer =>
        obtain rfl : answer = n' := eq_of_acceptRoot hresult
        have hok : o.1 = .ok answer := by rw [ho, hresult]
        exact ⟨hhanding.length_eq, hhanding.getLast?, fun hf => wellSorted_of_rebuildM hf hok⟩

/-- In `1; 2;` a statement for the second number is the last answer. -/
theorem Node.rebuildM_refuses_statement :
    let tree : Node := .program [.exprStmt (.int 1), .exprStmt (.int 2)]
    let f : Node → StateM Unit Node := fun n => pure (match n with
      | .int 2 => .exprStmt (.int 2)
      | n => n)
    let e : SortError := .expressionExpected (.exprStmt (.int 2))
    ∃ xs, xs.map Exchange.given = [.int 1, .exprStmt (.int 1), .int 2] ∧ Exchanges f () xs () ∧
      Follows tree.subtrees xs ∧
      ∃ (i : Nat) (t : Node) (x : Exchange), tree.subtrees[i]? = some t ∧ xs[i]? = some x ∧
        t.Refuses (i + 1 < tree.subtrees.length) x.answer e ∧ xs.length = i + 1 := by
  intro tree f e
  have hsorted : tree.WellSorted := by decide
  obtain ⟨xs, hrecord, hxs, hfollows, hstops, hlast, -⟩ := rebuildM_refuses hsorted f ()
  obtain ⟨i, t, x, ht, hx, hrefuses⟩ := (hstops e).1 rfl
  exact ⟨xs, (congrArg (fun o => o.2.2.map Exchange.given) hrecord).symm, hxs, hfollows, i, t, x, ht,
    hx, hrefuses, (hlast i t x e ht hx hrefuses).1⟩

end Monkey
