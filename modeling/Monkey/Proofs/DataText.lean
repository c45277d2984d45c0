import Monkey.Proofs.Composition
import Monkey.Proofs.Literals
import Monkey.Proofs.SortSafety

/-!
# Data and their text

Numbers, texts, booleans, arrays and hashes have a place in syntax trees, as literals. The
written form of such a literal is a program, and running it gives the data back: the same
kinds and contents, items in the same order, and keys in the same order with the same
values. New arrays and hashes are other ones than those that were written, so what comes
back is the same up to identities.

Nothing on the way touches the session. A literal defines no macros and calls none, so
there is nothing to replace in it, and evaluating it only hands out identities.

## Main definitions

* `Value.content` — a value without its identities.
* `Node.ComesTo` — expressions that come to a value and do nothing else.
* `Value.Denotable`, `Node.Denotes` — the values that literals denote, and their literals.

## Main results

* `Session.attempt_of_callFree` — a program that calls nothing is evaluated as it is.
* `Value.exists_denotes` — data have literals.
* `Value.run_render` — data are recovered from their text.
-/

namespace Monkey

open Monkey.Computation

/-! ## Values without identities -/

namespace Value

mutual

/-- The value with all identities in it forgotten. -/
def content : Value → Value
  | .array _ items => .array 0 (contentList items)
  | .hash _ entries => .hash 0 (contentEntries entries)
  | .function _ params body sc => .function 0 params body sc
  | .macroFn _ params body sc => .macroFn 0 params body sc
  | .quote _ n => .quote 0 n
  | .returned _ v => .returned 0 v.content
  | .error _ fault => .error 0 fault
  | v => v

/-- The values of a list with all identities in them forgotten. -/
def contentList : List Value → List Value
  | [] => []
  | v :: vs => v.content :: contentList vs

/-- The entries of a hash with all identities in them forgotten. -/
def contentEntries : List (Key × Value) → List (Key × Value)
  | [] => []
  | (k, v) :: entries => (k, v.content) :: contentEntries entries

end

mutual

/-- How many collections stand inside each other in a value. -/
def nesting : Value → Nat
  | .array _ items => nestingList items + 1
  | .hash _ entries => nestingEntries entries + 1
  | _ => 0

/-- How many collections stand inside each other in the values of a list. -/
def nestingList : List Value → Nat
  | [] => 0
  | v :: vs => max v.nesting (nestingList vs)

/-- How many collections stand inside each other in the entries of a hash. -/
def nestingEntries : List (Key × Value) → Nat
  | [] => 0
  | (_, v) :: entries => max v.nesting (nestingEntries entries)

end

theorem contentList_eq_map (vs : List Value) : contentList vs = vs.map content := by
  induction vs with
  | nil => rfl
  | cons v vs ih => rw [contentList, ih, List.map_cons]

theorem contentEntries_eq_map (entries : List (Key × Value)) :
    contentEntries entries = entries.map fun e => (e.1, e.2.content) := by
  induction entries with
  | nil => rfl
  | cons e entries ih => rw [contentEntries, ih, List.map_cons]

@[simp] theorem content_array (i : Identity) (items : List Value) :
    (array i items).content = .array 0 (items.map content) := by
  rw [content, contentList_eq_map]

@[simp] theorem content_hash (i : Identity) (entries : List (Key × Value)) :
    (hash i entries).content = .hash 0 (entries.map fun e => (e.1, e.2.content)) := by
  rw [content, contentEntries_eq_map]

theorem nesting_le_list {v : Value} {vs : List Value} (h : v ∈ vs) :
    v.nesting ≤ nestingList vs := by
  induction vs with
  | nil => cases h
  | cons u us ih =>
    rw [nestingList]
    rcases List.mem_cons.1 h with rfl | h
    · exact Nat.le_max_left ..
    · exact Nat.le_trans (ih h) (Nat.le_max_right ..)

theorem nesting_le_entries {e : Key × Value} {entries : List (Key × Value)} (h : e ∈ entries) :
    e.2.nesting ≤ nestingEntries entries := by
  induction entries with
  | nil => cases h
  | cons d entries ih =>
    rw [nestingEntries]
    rcases List.mem_cons.1 h with rfl | h
    · exact Nat.le_max_left ..
    · exact Nat.le_trans (ih h) (Nat.le_max_right ..)

/-- Values with the same content go on alike in a list of statements. -/
theorem stopsBlock_content (v : Value) : v.content.stopsBlock = v.stopsBlock := by
  cases v <;> rfl

theorem isError_content (v : Value) : v.content.isError = v.isError := by
  cases v <;> rfl

theorem key?_content (v : Value) : v.content.key? = v.key? := by
  cases v <;> rfl

end Value

/-! ## Trees without calls -/

/-- No call of a name stands in the tree. -/
def Node.CallFree (n : Node) : Prop :=
  ∀ t ∈ n.subtrees, ∀ name args, t ≠ .call (.ident name) args

theorem expandStep_of_callFree (sc : Scope) {n : Node} (hfree : n.CallFree) :
    ∀ t ∈ n.subtrees, expandStep sc t = pure t := by
  intro t ht
  unfold expandStep
  split
  · next name args => exact absurd rfl (hfree _ ht name args)
  · rfl

/-- Where no names are called, there are no macro calls to replace. -/
theorem expandMacros_eq_pure (sc : Scope) {program : Node} (hsorted : program.WellSorted)
    (hfree : program.CallFree) : expandMacros sc program = pure program := by
  rw [expandMacros, Node.rebuildM_eq_pure hsorted (expandStep_of_callFree sc hfree)]
  rfl

/-- A program that defines no macros and calls nothing is evaluated as it is. -/
theorem Session.attempt_of_callFree {s : Session} {source : String} {ss : List Node}
    (hparse : Source.parse source = .ok (.program ss))
    (hdefines : ∀ t ∈ ss, t.isMacroDefinition = false) (hfree : (Node.program ss).CallFree)
    {depth : Nat} {o : Outcome Value}
    (ho : (Node.program ss).evaluate depth s.values (s.store.quiet.note (.parsed ss.length)) = o) :
    s.attempt depth source = some ⟨o.result.map (⟨·, true⟩), o.store⟩ := by
  have hsorted : (Node.program ss).WellSorted := Source.parse_wellSorted hparse
  rw [← ho]
  refine attempt_of_expandProgram hparse ?_
  rw [outcome_expandProgram_of_undefining s.macros hdefines,
    expandMacros_eq_pure s.macros hsorted hfree]
  rfl

/-! ## Evaluating literals -/

/-- Within a depth, the expression comes to the value, but for identities, and does nothing else
than hand out identities. -/
def Node.ComesTo (e : Node) (depth : Nat) (v : Value) : Prop :=
  ∀ sc st, ∃ w i, evalWithin evalRule depth e sc st = ⟨.ok w, { st with nextIdentity := i }⟩ ∧
    w.content = v.content

namespace Node.ComesTo
variable {depth : Nat} {e : Node} {v : Value}

theorem mono {depth' : Nat} (h : e.ComesTo depth v) (hle : depth ≤ depth') :
    e.ComesTo depth' v := by
  intro sc st
  obtain ⟨w, i, heval, hw⟩ := h sc st
  refine ⟨w, i, ?_, hw⟩
  rw [evalWithin_mono evalRule hle e sc st (by rw [heval]; nofun), heval]

/-- An expression that comes to a value that is no error can be needed. -/
theorem need (h : e.ComesTo depth v) (hv : v.isError = false) (sc : Scope) (st : Store) :
    ∃ w i, (Attempt.need e sc).run.outcome evalRule depth st =
      ⟨.ok (.ok w), { st with nextIdentity := i }⟩ ∧ w.content = v.content := by
  obtain ⟨w, i, heval, hw⟩ := h sc st
  have herror : w.isError = false := by rw [← Value.isError_content, hw, Value.isError_content, hv]
  refine ⟨w, i, ?_, hw⟩
  rw [Attempt.outcome_need, heval]
  simp [herror]

/-- So can any number of them. -/
theorem needAll {es : List Node} {vs : List Value}
    (h : Pointwise (fun e v => e.ComesTo depth v ∧ v.isError = false) es vs) (sc : Scope)
    (st : Store) : ∃ ws i, (Attempt.needAll sc es).run.outcome evalRule depth st =
      ⟨.ok (.ok ws), { st with nextIdentity := i }⟩ ∧
        ws.map Value.content = vs.map Value.content := by
  induction h generalizing st with
  | nil => exact ⟨[], st.nextIdentity, rfl, rfl⟩
  | cons he _ ih =>
    obtain ⟨w, i, hneed, hw⟩ := he.1.need he.2 sc st
    obtain ⟨ws, j, hmore, hws⟩ := ih { st with nextIdentity := i }
    refine ⟨w :: ws, j, ?_, by rw [List.map_cons, List.map_cons, hw, hws]⟩
    rw [Attempt.needAll, Attempt.outcome_bind, hneed]
    dsimp only
    rw [Attempt.outcome_bind, hmore]
    rfl

theorem array {es : List Node} {vs : List Value}
    (h : Pointwise (fun e v => e.ComesTo depth v ∧ v.isError = false) es vs) (i : Identity) :
    (Node.array es).ComesTo (depth + 1) (.array i vs) := by
  intro sc st
  obtain ⟨ws, j, hneed, hws⟩ := needAll h sc st
  refine ⟨.array j ws, j + 1, ?_, by rw [Value.content_array, Value.content_array, hws]⟩
  show (evalRule (.array es) sc).outcome evalRule depth st = _
  rw [evalRule, Attempt.outcome_settle, Attempt.outcome_bind, hneed]
  rfl

/-- The entries of a hash literal are added to those that are there already. -/
theorem evalEntries {ps : List (Node × Node)} {entries : Table Key Value}
    (h : Pointwise (fun p e => p.1.ComesTo depth e.1.toValue ∧ p.2.ComesTo depth e.2 ∧
      e.2.isError = false) ps entries) (sc : Scope) (before : Table Key Value) (st : Store) :
    ∃ (more : Table Key Value) (i : Identity),
      (Monkey.evalEntries sc before ps).run.outcome evalRule depth st =
        ⟨.ok (.ok (Table.insertAll more before)), { st with nextIdentity := i }⟩ ∧
      more.map (fun e => (e.1, e.2.content)) = entries.map fun e => (e.1, e.2.content) := by
  induction h generalizing before st with
  | nil => exact ⟨[], st.nextIdentity, rfl, rfl⟩
  | @cons p e ps entries he _ ih =>
    obtain ⟨hkey, hvalue, herror⟩ := he
    have hkeyError : e.1.toValue.isError = false := by cases e.1 <;> rfl
    obtain ⟨k, i, hneedKey, hk⟩ := hkey.need hkeyError sc st
    have hkey? : k.key? = .ok e.1 := by
      rw [← Value.key?_content, hk, Value.key?_content, Value.key?_toValue]
    obtain ⟨w, j, hneed, hw⟩ := hvalue.need herror sc { st with nextIdentity := i }
    obtain ⟨more, l, hmore, hcontent⟩ := ih (before.insert e.1 w) { st with nextIdentity := j }
    refine ⟨(e.1, w) :: more, l, ?_, by rw [List.map_cons, List.map_cons, hcontent, hw]⟩
    rw [Monkey.evalEntries, Attempt.outcome_bind, hneedKey]
    dsimp only
    rw [hkey?, Attempt.outcome_bind]
    dsimp only [Attempt.check, Attempt.outcome_pure]
    rw [Attempt.outcome_bind, hneed]
    exact hmore

theorem hash {ps : List (Node × Node)} {entries : Table Key Value}
    (h : Pointwise (fun p e => p.1.ComesTo depth e.1.toValue ∧ p.2.ComesTo depth e.2 ∧
      e.2.isError = false) ps entries) (hkeys : (Table.keys entries).Nodup) (i : Identity) :
    (Node.hash ps).ComesTo (depth + 1) (.hash i entries) := by
  intro sc st
  obtain ⟨more, j, hentries, hcontent⟩ := evalEntries h sc [] st
  have hsame : Table.keys more = Table.keys entries := by
    simpa [Table.keys, Function.comp_def] using congrArg (List.map Prod.fst) hcontent
  -- as no key comes twice, all are added at the end
  have hall : Table.insertAll more [] = more :=
    Table.insertAll_of_nodup (hsame ▸ hkeys) (by simp [Table.keys])
  refine ⟨.hash j more, j + 1, ?_, by rw [Value.content_hash, Value.content_hash, hcontent]⟩
  show (evalRule (.hash ps) sc).outcome evalRule depth st = _
  rw [evalRule, Attempt.outcome_settle, Attempt.outcome_bind, hentries, hall]
  rfl

/-- A number below zero is what an operator makes of the number without the sign. -/
theorem int (n : Int) : (Node.int n).signed.ComesTo 2 (.int n) := by
  intro sc st
  refine ⟨.int n, st.nextIdentity, ?_, rfl⟩
  rw [Node.signed]
  split
  · next hneg =>
    have hsign : -(n.natAbs : Int) = n := by omega
    have hvalue : (Value.int n.natAbs).applyPrefix "-" = .ok (.int n) := by
      rw [Value.applyPrefix, if_neg (by decide)]
      simp only [hsign]
    have hneed : (Attempt.need (.int n.natAbs) sc).run.outcome evalRule 1 st =
        ⟨.ok (.ok (.int n.natAbs)), st⟩ := by
      rw [Attempt.outcome_need]
      rfl
    show (evalRule (.prefixOp "-" (.int n.natAbs)) sc).outcome evalRule 1 st = _
    rw [evalRule, Attempt.outcome_settle, Attempt.outcome_bind, hneed]
    dsimp only
    rw [hvalue]
    rfl
  · rfl

/-- A program that consists of an expression comes to what the expression comes to. -/
theorem program (h : e.ComesTo depth v) (hv : v.stopsBlock = false) (sc : Scope) (st : Store) :
    ∃ w i, (Node.program [.exprStmt e]).evaluate (depth + 2) sc st =
      ⟨.ok w, { st with nextIdentity := i }⟩ ∧ w.content = v.content := by
  obtain ⟨w, i, heval, hw⟩ := h sc st
  have hgoes : w.stopsBlock = false := by
    rw [← Value.stopsBlock_content, hw, Value.stopsBlock_content, hv]
  have hstatement : evalWithin evalRule (depth + 1) (.exprStmt e) sc st =
      ⟨.ok w, { st with nextIdentity := i }⟩ := by
    show (eval e sc).outcome evalRule depth st = _
    rw [outcome_eval, heval]
  have hunwrapped : w.unwrapped = w := by cases w <;> first | rfl | cases hgoes
  refine ⟨w, i, ?_, hw⟩
  rw [Node.evaluate_program, evalStatements, outcome_bind, outcome_eval, hstatement]
  simp [hgoes, evalStatements, hunwrapped]

end Node.ComesTo

/-! ## Data and literals -/

/-- The key can be written. -/
def Key.Denotable : Key → Prop
  | int n => Numeral.Writable n
  | str s => '"' ∉ s.toList
  | bool _ => True

instance : DecidablePred Key.Denotable
  | .int n => inferInstanceAs (Decidable (Numeral.Writable n))
  | .str s => inferInstanceAs (Decidable ('"' ∉ s.toList))
  | .bool _ => .isTrue trivial

/-- At the top, the value is data that can be written: a number that has a numeral, a text without
double quotes, a boolean, an array, or a hash with such keys. That no key comes twice is no
condition on hashes, but what they are (`Table.nodup_keys_insert`). -/
def Value.Denotable : Value → Prop
  | int n => (Key.int n).Denotable
  | str s => (Key.str s).Denotable
  | bool b => (Key.bool b).Denotable
  | array _ _ => True
  | hash _ entries => (∀ key ∈ Table.keys entries, key.Denotable) ∧ (Table.keys entries).Nodup
  | _ => False

instance : DecidablePred Value.Denotable
  | .int n => inferInstanceAs (Decidable (Key.int n).Denotable)
  | .str s => inferInstanceAs (Decidable (Key.str s).Denotable)
  | .bool b => inferInstanceAs (Decidable (Key.bool b).Denotable)
  | .array _ _ => .isTrue trivial
  | .hash _ entries => inferInstanceAs
    (Decidable ((∀ key ∈ Table.keys entries, key.Denotable) ∧ (Table.keys entries).Nodup))
  | .null | .function _ _ _ _ | .macroFn _ _ _ _ | .builtin _ | .quote _ _ | .returned _ _
  | .error _ _ => .isFalse id

/-- The literal denotes the value: the value is spliced in as it, it can be written, and what its
written form is read as comes to the value again. -/
structure Node.Denotes (n : Node) (v : Value) : Prop where
  toNode : v.toNode = .ok n
  literal : n.Literal
  comesTo : n.signed.ComesTo (v.nesting + 2) v

theorem Key.denotes {key : Key} (h : key.Denotable) : key.toNode.Denotes key.toValue := by
  have hliteral : key.toNode.Literal := by
    refine Node.literal_iff.2 ⟨?_, ?_⟩
    · cases key <;> exact h
    · cases key <;> simp [toNode, Node.children]
  cases key with
  | int n => exact ⟨rfl, hliteral, .int n⟩
  | str s => exact ⟨rfl, hliteral, fun _ st => ⟨.str s, st.nextIdentity, rfl, rfl⟩⟩
  | bool b => exact ⟨rfl, hliteral, fun _ st => ⟨.bool b, st.nextIdentity, rfl, rfl⟩⟩

namespace Value

/-- What is spliced into trees is no error. -/
theorem isError_of_toNode {v : Value} {n : Node} (h : v.toNode = .ok n) : v.isError = false := by
  cases v <;> first | rfl | cases h

/-- Nor does it stop a list of statements. -/
theorem stopsBlock_of_toNode {v : Value} {n : Node} (h : v.toNode = .ok n) :
    v.stopsBlock = false := by
  cases v <;> first | rfl | cases h

theorem toNodes_eq {ns : List Node} {vs : List Value}
    (h : Pointwise (fun n v => v.toNode = .ok n) ns vs) : toNodes vs = .ok ns := by
  induction h with
  | nil => rfl
  | cons hn _ ih => simp [toNodes, hn, ih, bind, Except.bind, pure, Except.pure]

theorem toPairs_eq {ps : List (Node × Node)} {entries : List (Key × Value)}
    (h : Pointwise (fun p e => p.1 = e.1.toNode ∧ e.2.toNode = .ok p.2) ps entries) :
    toPairs entries = .ok ps := by
  induction h with
  | nil => rfl
  | @cons p e ps entries he _ ih =>
    obtain ⟨hkey, hvalue⟩ := he
    simp [toPairs, ← hkey, hvalue, ih, bind, Except.bind, pure, Except.pure]

theorem exists_denotes_array {items : List Value} (i : Identity)
    (h : ∀ v ∈ items, ∃ n : Node, n.Denotes v) : ∃ n : Node, n.Denotes (array i items) := by
  let depth := nestingList items + 2
  have hitems : ∀ v ∈ items, ∃ n : Node, n.Denotes v ∧ n.signed.ComesTo depth v := by
    intro v hv
    obtain ⟨n, hn⟩ := h v hv
    exact ⟨n, hn, hn.comesTo.mono (Nat.add_le_add_right (nesting_le_list hv) 2)⟩
  obtain ⟨ns, hns⟩ := Pointwise.exists_list hitems
  refine ⟨.array ns, ?_, Node.literal_iff.2 ⟨trivial, fun n hn => ?_⟩, ?_⟩
  · rw [toNode, toNodes_eq (hns.mono fun n v hn => hn.1.toNode)]
    rfl
  · have hmem : n ∈ ns := by simpa [Node.children] using hn
    obtain ⟨v, -, hv⟩ := hns.exists_right n hmem
    exact hv.1.literal
  · rw [Node.signed_array]
    exact .array (hns.map_left fun n v hn => ⟨hn.2, isError_of_toNode hn.1.toNode⟩) i

theorem exists_denotes_hash {entries : List (Key × Value)} (i : Identity)
    (hkeys : ∀ key ∈ Table.keys entries, key.Denotable) (hnodup : (Table.keys entries).Nodup)
    (h : ∀ e ∈ entries, ∃ n : Node, n.Denotes e.2) : ∃ n : Node, n.Denotes (hash i entries) := by
  let depth := nestingEntries entries + 2
  have hentries : ∀ e ∈ entries, ∃ p : Node × Node, (p.1 = e.1.toNode ∧ p.1.Denotes e.1.toValue) ∧
      p.2.Denotes e.2 ∧ p.1.signed.ComesTo depth e.1.toValue ∧ p.2.signed.ComesTo depth e.2 := by
    intro e he
    obtain ⟨n, hn⟩ := h e he
    have hkey := Key.denotes (hkeys e.1 (List.mem_map_of_mem he))
    have hatom : e.1.toValue.nesting = 0 := by cases e.1 <;> rfl
    refine ⟨(e.1.toNode, n), ⟨rfl, hkey⟩, hn, hkey.comesTo.mono ?_, hn.comesTo.mono ?_⟩
    · rw [hatom]
      exact Nat.le_add_left 2 _
    · exact Nat.add_le_add_right (nesting_le_entries he) 2
  obtain ⟨ps, hps⟩ := Pointwise.exists_list hentries
  refine ⟨.hash ps, ?_, Node.literal_iff.2 ⟨trivial, fun n hn => ?_⟩, ?_⟩
  · rw [toNode, toPairs_eq (hps.mono fun p e hp => ⟨hp.1.1, hp.2.1.toNode⟩)]
    rfl
  · obtain ⟨p, hp, hn⟩ := Node.mem_children_hash.1 hn
    obtain ⟨e, -, he⟩ := hps.exists_right p hp
    rcases hn with rfl | rfl
    · exact he.1.2.literal
    · exact he.2.1.literal
  · rw [Node.signed_hash]
    refine .hash (hps.map_left fun p e hp => ?_) hnodup i
    exact ⟨hp.2.2.1, hp.2.2.2, isError_of_toNode hp.2.1.toNode⟩

/-- Data have literals. -/
theorem exists_denotes {v : Value} (h : v.Every Denotable) : ∃ n : Node, n.Denotes v := by
  induction h with
  | @intro v here _ ih =>
    cases v with
    | int n => exact ⟨_, Key.denotes (show (Key.int n).Denotable from here)⟩
    | str s => exact ⟨_, Key.denotes (show (Key.str s).Denotable from here)⟩
    | bool b => exact ⟨_, Key.denotes (show (Key.bool b).Denotable from here)⟩
    | array i items => exact exists_denotes_array i ih
    | hash i entries =>
      refine exists_denotes_hash i here.1 here.2 fun e he => ih e.2 ?_
      exact List.mem_map_of_mem he
    | _ => exact here.elim

end Value

/-! ## Running the text of data -/

namespace Node.Denotes
variable {n : Node} {v : Value} (h : n.Denotes v)
include h

/-- The text of a literal is a program in which nothing is called. -/
theorem callFree : (Node.program [.exprStmt n.signed]).CallFree := by
  have hsigned : ∀ t ∈ n.signed.subtrees, ∀ name args, t ≠ .call (.ident name) args := by
    rintro t ht name args rfl
    rcases h.literal.signed_cases _ ht with hliteral | ⟨r, hr⟩
    · cases hliteral
    · cases hr
  intro t ht
  simp only [subtrees, subtreesOf, List.append_nil, List.mem_append, List.mem_singleton] at ht
  rcases ht with (ht | rfl) | rfl
  · exact hsigned t ht
  · exact fun _ _ => Node.noConfusion
  · exact fun _ _ => Node.noConfusion

/-- In every session, the text of a literal comes to the value that the literal denotes, prints
nothing and binds nothing. -/
theorem attempt (s : Session) {depth : Nat} (hdepth : v.nesting + 4 ≤ depth) :
    ∃ w st, s.attempt depth n.render = some ⟨.ok ⟨w, true⟩, st⟩ ∧ w.content = v.content ∧
      st.output = "" ∧ st.frames = s.store.frames := by
  obtain ⟨depth, rfl⟩ : ∃ d, depth = d + 2 := ⟨depth - 2, by omega⟩
  have hcomes : n.signed.ComesTo depth v := h.comesTo.mono (by omega)
  have hdefines : ∀ t ∈ [Node.exprStmt n.signed], t.isMacroDefinition = false := by
    simp [isMacroDefinition]
  let before := s.store.quiet.note (.parsed 1)
  obtain ⟨w, i, hprogram, hw⟩ :=
    hcomes.program (Value.stopsBlock_of_toNode h.toNode) s.values before
  refine ⟨w, { before with nextIdentity := i }, ?_, hw, rfl, rfl⟩
  exact Session.attempt_of_callFree (Source.parse_literal h.literal) hdefines h.callFree hprogram

end Node.Denotes

/-- Data are recovered from their text. Every value that consists of numbers with a numeral, of
booleans, of texts without double quotes, of arrays and of hashes is spliced into trees as one that
can be written. In every session in which evaluation may nest a little deeper than the value does,
running what is written comes to the same data and does nothing else. So it does on its own, unless
it lacks depth. -/
theorem Value.run_render {v : Value} (h : v.Every Denotable) :
    ∃ n, v.toNode = .ok n ∧ n.writable = true ∧
      (∀ (s : Session) (depth : Nat), v.nesting + 4 ≤ depth → ∃ w st,
        s.attempt depth n.render = some ⟨.ok ⟨w, true⟩, st⟩ ∧ w.content = v.content ∧
          st.output = "" ∧ st.frames = s.store.frames) ∧
      ((∃ w, (run n.render).result = .ok w ∧ w.content = v.content ∧ (run n.render).output = "") ∨
        depthLimit < v.nesting + 4 ∧
          (run n.render).result = .error (.failure .depthExceeded)) := by
  obtain ⟨n, hn⟩ := exists_denotes h
  refine ⟨n, hn.toNode, hn.literal.writable, fun s _ => hn.attempt s, ?_⟩
  obtain ⟨o, ho⟩ : ∃ o, Session.new.attempt depthLimit n.render = some o := by
    rw [Session.attempt, Source.parse_literal hn.literal]
    exact ⟨_, rfl⟩
  obtain ⟨hresult, houtput⟩ := Session.new.run_of_attempt n.render ho
  by_cases hfinished : o.Finished
  · -- a run that lacks no depth comes to what it comes to in sufficient depth
    obtain ⟨w, st, hattempt, hw, hout, -⟩ :=
      hn.attempt Session.new (Nat.le_max_right depthLimit (v.nesting + 4))
    rw [Session.attempt_mono n.render _ (Nat.le_max_left ..) ho hfinished] at hattempt
    obtain rfl := Option.some.inj hattempt
    exact .inl ⟨w, hresult, hw, houtput.trans hout⟩
  · have hlacks : o.result = .error .depthExceeded := Classical.not_not.1 hfinished
    refine .inr ⟨Nat.lt_of_not_le fun hdepth => ?_, ?_⟩
    · obtain ⟨w, st, hattempt, -⟩ := hn.attempt Session.new hdepth
      obtain rfl := Option.some.inj (ho.symm.trans hattempt)
      cases hlacks
    · show (Session.new.run n.render).result = _
      rw [hresult, hlacks]
      rfl

/-- An array with a number below zero, and with a hash that has a number below zero for a key. -/
theorem Value.run_render_negative :
    let v : Value := .array 0 [.int (-5),
      .hash 1 [(.str "a b", .array 2 [.bool true, .str ""]), (.int (-1), .int 7)]]
    let text := "[-5, \x7b\"a b\": [true, \"\"], -1: 7\x7d]"
    v.Every Denotable ∧ v.toNode.toOption.map Node.render = some text ∧
      ∃ w, (run text).result = .ok w ∧ w.content = v.content ∧ (run text).output = "" := by
  intro v text
  have atom : ∀ {w : Value}, w.components = [] → w.Denotable → w.Every Denotable :=
    fun hw h => .intro h (by rw [hw]; nofun)
  have hflags : (Value.array 2 [.bool true, .str ""]).Every Denotable :=
    every_array.2 ⟨trivial, by simpa using ⟨atom rfl trivial, atom rfl (by decide)⟩⟩
  have hhash : (Value.hash 1 [(.str "a b", .array 2 [.bool true, .str ""]),
      (.int (-1), .int 7)]).Every Denotable :=
    every_hash.2 ⟨by decide +kernel, by simpa using ⟨hflags, atom rfl (by decide +kernel)⟩⟩
  have hdata : v.Every Denotable :=
    every_array.2 ⟨trivial, by simpa using ⟨atom rfl (by decide +kernel), hhash⟩⟩
  have htext : v.toNode.toOption.map Node.render = some text := by decide +kernel
  obtain ⟨n, hn, -, -, hrun⟩ := run_render hdata
  rw [hn] at htext
  have hrender : n.render = text := Option.some.inj htext
  have hdepth : ¬ depthLimit < v.nesting + 4 := by decide +kernel
  rw [hrender] at hrun
  refine ⟨hdata, ?_, hrun.resolve_right fun h => hdepth h.1⟩
  rw [hn]
  exact htext

end Monkey
