import Monkey.Proofs.DataText

/-!
# Values that come back from trees

A value has a place in trees if all that it is built from has one. If something in it has
none, then splicing fails because of the first such thing, where keys come before the
values that they stand for. What is spliced in for plain data is evaluated to the same
data, wherever this is done and however deep they are nested.

## Main definitions

* `Value.pieces` — what a value is built from, in the order in which it is spliced in.
* `Value.isSpliceable`, `Value.splicingFault` — what has a place in trees, and why the rest has none.
* `Value.Plain` — plain data.

## Main results

* `Value.fault_toNode` — splicing fails because of the first piece that has no place.
* `Value.exists_comesTo` — plain data are spliced in as expressions that come to them.
* `Value.evaluate_toNode` — which values are spliced in, and what they are evaluated to.
-/

namespace Monkey

open Monkey.Computation

namespace Value

/-! ## The pieces of a value -/

mutual

/-- A value and all that it is built from, in the order in which it is spliced into trees: members
from left to right, and each key before its value. -/
def pieces : Value → List Value
  | .array i items => .array i items :: piecesList items
  | .hash i entries => .hash i entries :: piecesEntries entries
  | v => [v]

/-- The pieces of the values of a list. -/
def piecesList : List Value → List Value
  | [] => []
  | v :: vs => v.pieces ++ piecesList vs

/-- The pieces of the entries of a hash. -/
def piecesEntries : List (Key × Value) → List Value
  | [] => []
  | (k, v) :: entries => k.toValue :: (v.pieces ++ piecesEntries entries)

end

/-- Whether a value has a place in trees if its members have: data have, and quoted expressions,
and quoted statements that consist of an expression. -/
def isSpliceable : Value → Bool
  | int _ | str _ | bool _ | array _ _ | hash _ _ => true
  | quote _ (.exprStmt _) => true
  | quote _ n => n.isExpression
  | _ => false

/-- Why a value has no place in trees. -/
def splicingFault : Value → Fault
  | error _ fault => fault
  | quote _ n => .notExpression n
  | v => .notSyntax v.kind

/-! ## The first fault -/

/-- What a computation has failed with. -/
def faultOf {α : Type} : Except Fault α → Option Fault
  | .ok _ => none
  | .error fault => some fault

theorem faultOf_eq_none {α : Type} {r : Except Fault α} : faultOf r = none ↔ ∃ a, r = .ok a := by
  cases r <;> simp [faultOf]

theorem faultOf_eq_some {α : Type} {r : Except Fault α} {fault : Fault} :
    faultOf r = some fault ↔ r = .error fault := by
  cases r <;> simp [faultOf]

/-- Why the first of some values that has no place in trees has none. -/
def firstFault (vs : List Value) : Option Fault :=
  (vs.find? fun v => !v.isSpliceable).map splicingFault

theorem firstFault_eq_none {vs : List Value} :
    firstFault vs = none ↔ ∀ v ∈ vs, v.isSpliceable = true := by
  simp [firstFault]

theorem firstFault_eq_some {vs : List Value} {fault : Fault} : firstFault vs = some fault ↔
    ∃ v, (vs.find? fun v => !v.isSpliceable) = some v ∧ fault = v.splicingFault := by
  rw [firstFault, Option.map_eq_some_iff]
  simp only [eq_comm]

theorem firstFault_append (vs ws : List Value) :
    firstFault (vs ++ ws) = (firstFault vs).or (firstFault ws) := by
  rw [firstFault, List.find?_append]
  cases hv : vs.find? fun v => !v.isSpliceable <;> simp [firstFault, hv]

theorem firstFault_cons {v : Value} (h : v.isSpliceable = true) (vs : List Value) :
    firstFault (v :: vs) = firstFault vs := by
  simp [firstFault, h]

theorem fault_asSpliced (i : Identity) (n : Node) :
    faultOf n.asSpliced = firstFault [quote i n] := by
  cases n <;> rfl

mutual

/-- Splicing fails because of the first piece that has no place in trees. -/
theorem fault_toNode : ∀ v : Value, faultOf v.toNode = firstFault v.pieces
  | .array i items => by
    rw [pieces, firstFault_cons rfl, ← fault_toNodes items, toNode]
    cases toNodes items <;> rfl
  | .hash i entries => by
    rw [pieces, firstFault_cons rfl, ← fault_toPairs entries, toNode]
    cases toPairs entries <;> rfl
  | .quote i n => fault_asSpliced i n
  | .int _ | .str _ | .bool _ | .null | .function _ _ _ _ | .macroFn _ _ _ _ | .builtin _
  | .returned _ _ | .error _ _ => rfl
termination_by structural v => v

theorem fault_toNodes : ∀ vs : List Value, faultOf (toNodes vs) = firstFault (piecesList vs)
  | [] => rfl
  | v :: vs => by
    rw [piecesList, firstFault_append, ← fault_toNode v, ← fault_toNodes vs, toNodes]
    cases v.toNode with
    | error fault => rfl
    | ok e => cases toNodes vs <;> rfl
termination_by structural vs => vs

theorem fault_toPairs : ∀ entries : List (Key × Value),
    faultOf (toPairs entries) = firstFault (piecesEntries entries)
  | [] => rfl
  | (k, v) :: entries => by
    have hkey : k.toValue.isSpliceable = true := by cases k <;> rfl
    rw [piecesEntries, firstFault_cons hkey, firstFault_append, ← fault_toNode v,
      ← fault_toPairs entries, toPairs]
    cases v.toNode with
    | error fault => rfl
    | ok e => cases toPairs entries <;> rfl
termination_by structural entries => entries

end

/-! ## What holds of all pieces -/

theorem piecesList_eq (vs : List Value) : piecesList vs = vs.flatMap pieces := by
  induction vs with
  | nil => rfl
  | cons v vs ih => rw [piecesList, ih, List.flatMap_cons]

theorem piecesEntries_eq (entries : List (Key × Value)) :
    piecesEntries entries = entries.flatMap fun e => e.1.toValue :: e.2.pieces := by
  induction entries with
  | nil => rfl
  | cons e entries ih =>
    obtain ⟨k, v⟩ := e
    rw [piecesEntries, ih, List.flatMap_cons]
    rfl

theorem self_mem_pieces (v : Value) : v ∈ v.pieces := by
  cases v <;> exact List.mem_cons_self

/-- What holds of all pieces of a value holds throughout it, if it does not hold of values being
returned. -/
theorem every_of_pieces {shape : Value → Prop} (hreturned : ∀ i w, ¬ shape (returned i w))
    {v : Value} (h : ∀ p ∈ v.pieces, shape p) : v.Every shape := by
  have hv : v.Every fun _ => True := every_of_forall (fun _ => trivial) v
  induction hv with
  | @intro v _ _ ih =>
    have here : shape v := h v v.self_mem_pieces
    refine .intro here fun c hc => ih c hc fun p hp => h p ?_
    cases v with
    | array i items =>
      rw [pieces, piecesList_eq]
      exact List.mem_cons_of_mem _ (List.mem_flatMap.2 ⟨c, hc, hp⟩)
    | hash i entries =>
      obtain ⟨e, he, rfl⟩ := List.mem_map.1 hc
      rw [pieces, piecesEntries_eq]
      exact List.mem_cons_of_mem _ (List.mem_flatMap.2 ⟨e, he, List.mem_cons_of_mem _ hp⟩)
    | returned i w => exact absurd here (hreturned i w)
    | _ => cases hc

/-! ## Plain data -/

/-- The value is a number, a text, a boolean, an array or a hash. That no key comes twice is no
condition on hashes, but what they are (`Table.nodup_keys_insert`). -/
def Plain : Value → Prop
  | int _ | str _ | bool _ | array _ _ => True
  | hash _ entries => (Table.keys entries).Nodup
  | _ => False

theorem comesTo_key (k : Key) : k.toNode.ComesTo 1 k.toValue := by
  cases k with
  | int n => exact fun _ st => ⟨.int n, st.nextIdentity, rfl, rfl⟩
  | str s => exact fun _ st => ⟨.str s, st.nextIdentity, rfl, rfl⟩
  | bool b => exact fun _ st => ⟨.bool b, st.nextIdentity, rfl, rfl⟩

/-- Plain data are spliced in as expressions that come to them. -/
theorem exists_comesTo {v : Value} (h : v.Every Plain) :
    ∃ n : Node, v.toNode = .ok n ∧ n.ComesTo (v.nesting + 1) v := by
  induction h with
  | @intro v here _ ih =>
    cases v with
    | int n => exact ⟨.int n, rfl, comesTo_key (.int n)⟩
    | str s => exact ⟨.str s, rfl, comesTo_key (.str s)⟩
    | bool b => exact ⟨.bool b, rfl, comesTo_key (.bool b)⟩
    | array i items =>
      let depth := nestingList items + 1
      have hitems : ∀ c ∈ items, ∃ n : Node, c.toNode = .ok n ∧ n.ComesTo depth c := by
        intro c hc
        obtain ⟨n, hn, hcomes⟩ := ih c hc
        exact ⟨n, hn, hcomes.mono (Nat.add_le_add_right (nesting_le_list hc) 1)⟩
      obtain ⟨ns, hns⟩ := Pointwise.exists_list hitems
      refine ⟨.array ns, ?_, .array (hns.mono fun n c hn => ⟨hn.2, isError_of_toNode hn.1⟩) i⟩
      rw [toNode, toNodes_eq (hns.mono fun n c hn => hn.1)]
      rfl
    | hash i entries =>
      let depth := nestingEntries entries + 1
      have hentries : ∀ e ∈ entries, ∃ p : Node × Node, p.1 = e.1.toNode ∧ e.2.toNode = .ok p.2 ∧
          p.2.ComesTo depth e.2 := by
        intro e he
        obtain ⟨n, hn, hcomes⟩ := ih e.2 (List.mem_map_of_mem he)
        have hdepth := Nat.add_le_add_right (nesting_le_entries he) 1
        exact ⟨(e.1.toNode, n), rfl, hn, hcomes.mono hdepth⟩
      obtain ⟨ps, hps⟩ := Pointwise.exists_list hentries
      refine ⟨.hash ps, ?_, .hash (hps.mono fun p e hp => ?_) here i⟩
      · rw [toNode, toPairs_eq (hps.mono fun p e hp => ⟨hp.1, hp.2.1⟩)]
        rfl
      · rw [hp.1]
        exact ⟨(comesTo_key e.1).mono (Nat.le_add_left 1 _), hp.2.2, isError_of_toNode hp.2.1⟩
    | _ => exact here.elim

/-- A value is spliced into trees exactly if all that it is built from is: numbers, texts, booleans,
arrays, hashes, and quoted expressions, also such as stand as a statement. If not, splicing fails
because of the first piece that is none of these. Where it is built from plain data only, what is
spliced in is evaluated to the same data in every scope, and does nothing else, unless evaluation
may nest no deeper than the data do. -/
theorem evaluate_toNode (v : Value) :
    ((∃ n, v.toNode = .ok n) ↔ ∀ p ∈ v.pieces, p.isSpliceable = true) ∧
    (∀ fault, v.toNode = .error fault ↔
      ∃ p, (v.pieces.find? fun p => !p.isSpliceable) = some p ∧ fault = p.splicingFault) ∧
    ((∀ p ∈ v.pieces, p.Plain) → ∃ n, v.toNode = .ok n ∧ ∀ (depth : Nat) (sc : Scope) (st : Store),
      (∃ w i, n.evaluate depth sc st = ⟨.ok w, { st with nextIdentity := i }⟩ ∧
        w.content = v.content) ∨
      depth ≤ v.nesting ∧ (n.evaluate depth sc st).result = .error .depthExceeded) := by
  refine ⟨?_, fun fault => ?_, fun hplain => ?_⟩
  · rw [← faultOf_eq_none, fault_toNode, firstFault_eq_none]
  · rw [← faultOf_eq_some, fault_toNode, firstFault_eq_some]
  · obtain ⟨n, hn, hcomes⟩ := exists_comesTo (every_of_pieces (fun _ _ => id) hplain)
    refine ⟨n, hn, fun depth sc st => ?_⟩
    have heval : n.evaluate depth sc st = evalWithin evalRule depth n sc st := by
      rw [Node.evaluate, run_eq, outcome_eval]
    rw [heval]
    by_cases hdepth : v.nesting + 1 ≤ depth
    · exact .inl (hcomes.mono hdepth sc st)
    have hlacks : depth ≤ v.nesting := by omega
    by_cases hfinished : (evalWithin evalRule depth n sc st).Finished
    · -- a run that lacks no depth comes to what it comes to in sufficient depth
      rw [← evalWithin_mono evalRule (Nat.le_succ_of_le hlacks) n sc st hfinished]
      exact .inl (hcomes sc st)
    · exact .inr ⟨hlacks, Classical.not_not.1 hfinished⟩

/-- An array with a number below zero and a text with a double quote comes back; one with a hash that
holds `null` is not spliced in, because of that and not because of the function behind it. -/
theorem evaluate_toNode_nested :
    let v : Value := .array 0 [.int (-5), .hash 1 [(.str "\"", .array 2 [.bool true])]]
    let w : Value := .array 0 [.hash 1 [(.int 1, .str ""), (.int 2, .null)], .builtin .len]
    (∃ n, v.toNode = .ok n ∧ ∃ u i, n.evaluate 4 ⟨0⟩ .empty =
      ⟨.ok u, { Store.empty with nextIdentity := i }⟩ ∧ u.content = v.content) ∧
    w.toNode = .error (.notSyntax .null) := by
  intro v w
  have hplain : ∀ p ∈ v.pieces, p.Plain := by
    simp [v, pieces, piecesList, piecesEntries, Plain, Key.toValue, Table.keys]
  obtain ⟨n, hn, hrun⟩ := (evaluate_toNode v).2.2 hplain
  have hdepth : ¬ 4 ≤ v.nesting := by decide
  refine ⟨⟨n, hn, (hrun 4 ⟨0⟩ .empty).resolve_right fun h => hdepth h.1⟩, ?_⟩
  exact ((evaluate_toNode w).2.1 _).2 ⟨.null, rfl, rfl⟩

end Value
end Monkey
