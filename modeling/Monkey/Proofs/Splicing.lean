import Monkey.Proofs.Every
import Monkey.Proofs.WellSorted
import Monkey.Value.Splice

/-!
# What is spliced into trees

`unquote` puts values into trees, as syntax: data as literals, and quoted trees
as they are, or as the expression that they consist of. So what is spliced
in is good when the quoted trees inside the value give good expressions, and
when literals are as good as their parts.

## Main results

* `Value.holds_toNode`, `Value.good_toNode` — what holds of the trees that values splice in.
* `Value.forall_subtrees_toNode` — the case of what holds everywhere in trees.
* `Value.wellSorted_toNode` — the case of well-sorted expressions.
-/

namespace Monkey

/-- The trees of data. -/
def Node.isLiteral : Node → Bool
  | int _ | str _ | bool _ | array _ | hash _ => true
  | _ => false

theorem Node.of_isLiteral {n : Node} (h : n.isLiteral = true) :
    n.isExpression = true ∧ n.listed = [] ∧ n.bodies = [] := by
  cases n <;> first | exact ⟨rfl, rfl, rfl⟩ | cases h

namespace Value

/-- If the value is a quotation, its tree is good. -/
def Quotes (good : Node → Prop) (v : Value) : Prop := ∀ i n, v = .quote i n → good n

theorem quotes_of_isData (good : Node → Prop) {v : Value} (h : v.isData = true) :
    v.Quotes good := by
  rintro i n rfl
  cases h

section Splicing
variable {shape : Value → Prop} {good : Node → Prop}

/-- It holds of the trees that quotations splice in, and of literals if it holds of their parts. -/
structure Spliceable (shape : Value → Prop) (good : Node → Prop) : Prop where
  quotation : ∀ i n e, shape (.quote i n) → n.asSpliced = .ok e → good e
  literal : ∀ n : Node, n.isLiteral = true → (∀ e ∈ n.operands, good e) → good n

theorem Spliceable.keyToNode (hgood : Spliceable shape good) (k : Key) : good k.toNode := by
  cases k <;> exact hgood.literal _ rfl (by simp [Key.toNode])

mutual

/-- What holds of the trees that quotations splice in, and of literals whose parts it holds of,
holds of everything that is spliced in. -/
theorem holds_toNode (hgood : Spliceable shape good) : ∀ (v : Value) (e : Node), v.Every shape →
    v.toNode = .ok e → good e
  | .int n, e, _, h | .bool n, e, _, h | .str n, e, _, h => by
    obtain rfl := Except.ok.inj h
    exact hgood.literal _ rfl (by simp)
  | .quote i n, e, hv, h => hgood.quotation i n e (every_iff.1 hv).1 h
  | .array i items, e, hv, h => by
    cases hes : toNodes items with
    | error f => simp [toNode, hes, bind, Except.bind] at h
    | ok es =>
      obtain rfl : Node.array es = e := by
        simpa [toNode, hes, bind, Except.bind, pure, Except.pure] using h
      exact hgood.literal _ rfl (holds_toNodes hgood items es (every_array.1 hv).2 hes)
  | .hash i entries, e, hv, h => by
    cases hps : toPairs entries with
    | error f => simp [toNode, hps, bind, Except.bind] at h
    | ok ps =>
      obtain rfl : Node.hash ps = e := by
        simpa [toNode, hps, bind, Except.bind, pure, Except.pure] using h
      exact hgood.literal _ rfl (holds_toPairs hgood entries ps (every_hash.1 hv).2 hps)
  | .error _ _, _, _, h | .null, _, _, h | .function _ _ _ _, _, _, h | .macroFn _ _ _ _, _, _, h
  | .builtin _, _, _, h | .returned _ _, _, _, h => by cases h
termination_by structural v => v

theorem holds_toNodes (hgood : Spliceable shape good) : ∀ (vs : List Value) (es : List Node),
    (∀ v ∈ vs, v.Every shape) → toNodes vs = .ok es → ∀ e ∈ es, good e
  | [], es, _, h => by
    obtain rfl := Except.ok.inj h
    simp
  | v :: vs, es, hvs, h => by
    cases he : toNode v with
    | error f => simp [toNodes, he, bind, Except.bind] at h
    | ok e =>
      cases hes : toNodes vs with
      | error f => simp [toNodes, he, hes, bind, Except.bind] at h
      | ok es' =>
        obtain rfl : e :: es' = es := by
          simpa [toNodes, he, hes, bind, Except.bind, pure, Except.pure] using h
        have hhead := holds_toNode hgood v e (hvs v List.mem_cons_self) he
        have htail := holds_toNodes hgood vs es' (fun v h => hvs v (List.mem_cons_of_mem _ h)) hes
        exact List.forall_mem_cons.2 ⟨hhead, htail⟩
termination_by structural vs => vs

theorem holds_toPairs (hgood : Spliceable shape good) :
    ∀ (entries : List (Key × Value)) (ps : List (Node × Node)),
    (∀ e ∈ entries, e.2.Every shape) → toPairs entries = .ok ps →
    ∀ e ∈ (Node.hash ps).operands, good e
  | [], ps, _, h => by
    obtain rfl := Except.ok.inj h
    simp
  | (k, v) :: entries, ps, hvs, h => by
    cases he : toNode v with
    | error f => simp [toPairs, he, bind, Except.bind] at h
    | ok e =>
      cases hps : toPairs entries with
      | error f => simp [toPairs, he, hps, bind, Except.bind] at h
      | ok ps' =>
        obtain rfl : (k.toNode, e) :: ps' = ps := by
          simpa [toPairs, he, hps, bind, Except.bind, pure, Except.pure] using h
        have hhead := holds_toNode hgood v e (hvs (k, v) List.mem_cons_self) he
        have htail :=
          holds_toPairs hgood entries ps' (fun v h => hvs v (List.mem_cons_of_mem _ h)) hps
        intro n hn
        simp only [Node.operands, List.flatMap_cons, List.mem_append, List.mem_cons,
          List.not_mem_nil, or_false] at hn
        rcases hn with (rfl | rfl) | hn
        · exact hgood.keyToNode k
        · exact hhead
        · exact htail n hn
termination_by structural entries => entries

end

/-- A value is spliced in as a good expression, if what is quoted in it is. -/
theorem good_toNode
    (hquote : ∀ i n e, shape (.quote i n) → n.asSpliced = .ok e → e.isExpression = true ∧ good e)
    (hbuilt : ∀ n : Node, n.isExpression = true → n.Built good → good n) (v : Value) (e : Node)
    (hv : v.Every shape) (h : v.toNode = .ok e) : e.isExpression = true ∧ good e := by
  refine holds_toNode ⟨hquote, fun n hn hparts => ?_⟩ v e hv h
  obtain ⟨hexpression, hlisted, hbodies⟩ := Node.of_isLiteral hn
  refine ⟨hexpression, hbuilt n hexpression ⟨hparts, ?_, ?_⟩⟩
  · rw [hlisted]
    nofun
  · rw [hbodies]
    nofun

end Splicing

/-- What holds everywhere in the trees that are quoted in a value, and of the trees of data, holds
everywhere in the tree of the value. -/
theorem forall_subtrees_toNode {p : Node → Prop} (hliteral : ∀ n : Node, n.isLiteral = true → p n)
    {v : Value} {e : Node} (hv : v.Every (Quotes fun n => ∀ t ∈ n.subtrees, p t))
    (h : v.toNode = .ok e) : ∀ t ∈ e.subtrees, p t := by
  let good (e : Node) : Prop := ∀ t ∈ e.subtrees, p t
  show good e
  refine holds_toNode ⟨fun i n e hq he => ?_, fun n hn hparts => ?_⟩ v e hv h
  · have hn : ∀ t ∈ n.subtrees, p t := hq i n rfl
    unfold Node.asSpliced at he
    split at he
    · next e' =>
      obtain rfl := Except.ok.inj he
      exact (Node.forall_subtrees_iff.1 hn).2 e' (by simp [Node.children])
    · split at he
      · obtain rfl := Except.ok.inj he
        exact hn
      · cases he
  · obtain ⟨-, hlisted, hbodies⟩ := Node.of_isLiteral hn
    have hchildren : n.children = n.operands := by rw [Node.children, hlisted, hbodies]; simp
    exact Node.forall_subtrees_iff.2 ⟨hliteral n hn, by rwa [hchildren]⟩

end Value

theorem Node.wellSorted_asSpliced {n e : Node} (hn : n.WellSorted) (h : n.asSpliced = .ok e) :
    e.isExpression = true ∧ e.WellSorted := by
  unfold Node.asSpliced at h
  split at h
  · next e' =>
    obtain rfl := Except.ok.inj h
    exact (Node.wellSorted_iff.1 hn).operands e' (by simp)
  · split at h
    · next he =>
      obtain rfl := Except.ok.inj h
      exact ⟨he, hn⟩
    · cases h

/-- A value in which all quoted trees are well sorted is spliced in as a well-sorted expression. -/
theorem Value.wellSorted_toNode (v : Value) (e : Node) (hv : v.Every (Quotes Node.WellSorted))
    (h : v.toNode = .ok e) : e.isExpression = true ∧ e.WellSorted :=
  good_toNode (fun i n _ hq => Node.wellSorted_asSpliced (hq i n rfl))
    (fun _ _ => Node.wellSorted_iff.2) v e hv h

end Monkey
