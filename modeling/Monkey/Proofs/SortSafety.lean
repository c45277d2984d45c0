import Monkey.Node.Equality
import Monkey.Proofs.Conduct
import Monkey.Proofs.History
import Monkey.Proofs.ParserSound
import Monkey.Proofs.Splicing
import Monkey.Proofs.Unwritable

/-!
# Nothing is put where it does not fit

Rebuilding a tree breaks off when a part is answered with a tree of the wrong sort.
That never happens to the trees of programs. The parser builds well-sorted trees,
and what takes the place of an expression, a quoted value or what a macro yields,
is a well-sorted expression again.

What has to be known for this is known of all values at once: a quoted tree is
a well-sorted expression and the body of a function or a macro is a well-sorted
block. Only a value of this shape comes into being when a well-sorted tree is
evaluated in a store of such values.

## Main definitions

* `Value.Sorted` — the shape of values.
* `Visit.Sorted` — an evaluation of a well-sorted tree among such values.

## Main results

* `Judgement.rebuild_self`, `Node.rebuildM_eq_pure` — a well-sorted tree is rebuilt to itself if the
  rewriting leaves every tree in it alone, and nothing is done if the rewriting does nothing.
* `Conduct.lawful_sorted` — evaluating well-sorted trees keeps all values in shape
  and never breaks off for a tree in the wrong place.
* `Session.runs_to_value` — a program that comes to an end comes to a value.
-/

namespace Monkey

open Monkey.Computation

/-- Quoted trees are well-sorted expressions, and bodies are well-sorted blocks. -/
def Value.Sorted : Value → Prop
  | .quote _ n => n.isExpression = true ∧ n.WellSorted
  | .function _ _ body _ | .macroFn _ _ body _ => body.isBlock = true ∧ body.WellSorted
  | _ => True

/-- A value in shape is spliced in as a well-sorted expression. -/
theorem Value.sorted_toNode (v : Value) (e : Node) (hv : v.Every Sorted) (h : v.toNode = .ok e) :
    e.isExpression = true ∧ e.WellSorted :=
  good_toNode (fun _ _ _ hq => Node.wellSorted_asSpliced hq.2) (fun _ _ => Node.wellSorted_iff.2)
    v e hv h

/-! ## Rebuilding well-sorted trees -/

/-- A well-sorted tree that fits wherever `n` does. -/
structure Node.FitsFor (n n' : Node) : Prop where
  wellSorted : n'.WellSorted
  expression : n.isExpression = true → n'.isExpression = true
  statement : n.isStatement = true → n'.isStatement = true
  block : n.isBlock = true → n'.isBlock = true

namespace Node.FitsFor
variable {n n' n'' : Node}

theorem refl (h : n.WellSorted) : n.FitsFor n := ⟨h, id, id, id⟩

theorem trans (h : n.FitsFor n') (h' : n'.FitsFor n'') : n.FitsFor n'' :=
  ⟨h'.wellSorted, h'.expression ∘ h.expression, h'.statement ∘ h.statement, h'.block ∘ h.block⟩

/-- A construct with parts that fit fits. -/
theorem of_lifts (h : n.Lifts FitsFor n') : n.FitsFor n' where
  wellSorted := Node.wellSorted_iff.2 (h.built fun _ _ => wellSorted)
  expression := by cases h <;> exact id
  statement := by cases h <;> exact id
  block := by cases h <;> exact id

/-- For a call any well-sorted expression fits. -/
theorem of_call {callee : Node} {args : List Node} (he : n.isExpression = true)
    (hn : n.WellSorted) : (Node.call callee args).FitsFor n where
  wellSorted := hn
  expression _ := he
  statement h := by cases h
  block h := by cases h

end Node.FitsFor

/-- A rewriting that answers fitting trees for well-sorted trees is never stopped. -/
theorem Judgement.rewriting_fitsFor {m : Type → Type} [Monad m] {J : Judgement m}
    {f : Node → m Node} (h : ∀ n, n.WellSorted → J.holds (f n) n.FitsFor) :
    J.Rewriting f Node.WellSorted Node.FitsFor fun _ => False where
  below _ hn _ hc := hn.child hc
  answers n n' _ hlift := by
    have hfits := Node.FitsFor.of_lifts hlift
    exact J.mono (h n' hfits.wellSorted) fun _ hn'' => hfits.trans hn''
  expression n hn e he _ hfits := .inl (hfits.expression ((Node.wellSorted_iff.1 hn).operands e he).1)
  statement n hn s hs _ hfits := .inl (hfits.statement ((Node.wellSorted_iff.1 hn).listed s hs).1)
  block _ _ _ hfits := .inl (hfits.block rfl)

/-- A rewriting is never stopped in a well-sorted tree if what it answers there always fits. -/
theorem Judgement.rewriting_subtrees {m : Type → Type} [Monad m] {J : Judgement m}
    {f : Node → m Node} {rel : Node → Node → Prop} {tree : Node} (htree : tree.WellSorted)
    (hfits : ∀ n n', rel n n' → n.FitsFor n')
    (answers : ∀ n ∈ tree.subtrees, ∀ n', n.Lifts rel n' → J.holds (f n') (rel n)) :
    J.Rewriting f (· ∈ tree.subtrees) rel fun _ => False where
  below _ hn _ hc := Node.mem_subtrees_trans hn (Node.mem_subtrees_of_child hc)
  answers n n' hn hlift := answers n hn n' hlift
  expression _ hn e he e' hr :=
    have hbuilt := Node.wellSorted_iff.1 (htree.of_mem_subtrees hn)
    .inl ((hfits e e' hr).expression (hbuilt.operands e he).1)
  statement _ hn s hs s' hr :=
    have hbuilt := Node.wellSorted_iff.1 (htree.of_mem_subtrees hn)
    .inl ((hfits s s' hr).statement (hbuilt.listed s hs).1)
  block _ _ n hr := .inl ((hfits _ n hr).block rfl)

/-- The judgement that a computation does nothing but give its answer. -/
def Judgement.idle (m : Type → Type) [Monad m] [LawfulMonad m] : Judgement m where
  holds x post := ∃ a, x = Pure.pure a ∧ post a
  pure h := ⟨_, rfl, h⟩
  bind := by
    rintro α β x f mid post ⟨a, rfl, ha⟩ hf
    obtain ⟨b, hb, hpost⟩ := hf a ha
    exact ⟨b, by rw [pure_bind, hb], hpost⟩
  mono := by
    rintro α x mid post ⟨a, rfl, ha⟩ h
    exact ⟨a, rfl, h a ha⟩

/-- A well-sorted tree is rebuilt to itself if the rewriting leaves every tree in it alone. -/
theorem Judgement.rebuild_self {m : Type → Type} [Monad m] [LawfulMonad m] {J : Judgement m}
    {f : Node → m Node} {tree : Node} (htree : tree.WellSorted)
    (hf : ∀ n ∈ tree.subtrees, J.holds (f n) (· = n)) :
    (J.except fun _ => False).holds (tree.rebuildM f) (· = tree) := by
  have hrewriting : J.Rewriting f (· ∈ tree.subtrees) (fun n n' => n.WellSorted ∧ n' = n)
      fun _ => False := by
    refine Judgement.rewriting_subtrees htree ?_ fun n hn n' hlifts => ?_
    · rintro n _ ⟨hn, rfl⟩
      exact .refl hn
    · obtain rfl := hlifts.eq_self fun _ _ _ hc => hc.2
      exact J.mono (hf _ hn) fun _ h => ⟨htree.of_mem_subtrees hn, h⟩
  exact Judgement.mono _ (Judgement.rebuild hrewriting tree tree.self_mem_subtrees) fun _ h => h.2

theorem Judgement.Either.eq_ok {ε α : Type} {a : α} {r : Except ε α}
    (h : Either (fun _ => False) (· = a) r) : r = .ok a := by
  cases r with
  | error e => exact h.elim
  | ok b => exact congrArg _ h

/-- Rebuilding a well-sorted tree does nothing if the rewriting does nothing with every tree in
it. -/
theorem Node.rebuildM_eq_pure {m : Type → Type} [Monad m] [LawfulMonad m] {f : Node → m Node}
    {tree : Node} (htree : tree.WellSorted) (hf : ∀ n ∈ tree.subtrees, f n = pure n) :
    tree.rebuildM f = pure tree := by
  obtain ⟨r, hr, hsame⟩ :=
    Judgement.rebuild_self (J := Judgement.idle m) htree fun n hn => ⟨n, hf n hn, rfl⟩
  rw [hsame.eq_ok] at hr
  exact ExceptT.ext hr

/-! ## Evaluation -/

/-- Well-sorted trees are evaluated among values in shape, and that does not fail for a tree in
the wrong place. -/
def Conduct.sorted : Conduct where
  invariant st := st.Every Value.Sorted
  trees := Node.WellSorted
  scopes _ := True
  failing e := ∀ s, e ≠ .illSorted s

namespace Conduct
variable {depth : Nat}

/-- Unquoting answers a well-sorted expression, if what is unquoted comes to a value in shape. -/
theorem unquoteStep_fitsFor {sc : Scope} (U : QuietSteps (sorted.judgement depth) Value.Sorted)
    (replies : ∀ n, n.WellSorted →
      (sorted.judgement depth).holds (eval n sc) (Value.Result Value.Sorted))
    (n : Node) (hn : n.WellSorted) :
    (Upkeep.attempts (sorted.judgement depth)).holds (unquoteStep sc n) n.FitsFor := by
  refine U.unquoteStep ?_ ?_ fun _ => .refl hn
  · rintro arg rfl
    exact replies arg ((Node.wellSorted_iff.1 hn).operands arg (by simp)).2
  · rintro arg v e rfl hv he
    obtain ⟨hsort, hwell⟩ := v.sorted_toNode e hv he
    exact .of_call hsort hwell

theorem lawful_sorted : sorted.Lawful Value.Sorted where
  tooDeep _ h := by cases h
  unwritable _ h := by cases h
  below _ hn _ hc := hn.child hc
  data v hv := by cases v <;> first | exact trivial | cases hv
  markers _ _ := trivial
  functions _ _ _ _ hb _ := ⟨rfl, hb⟩
  macros _ _ _ _ hb _ := ⟨rfl, hb⟩
  functionBody _ _ _ _ h := ⟨h.2, trivial⟩
  macroBody _ _ _ _ h := ⟨h.2, trivial⟩
  frames _ _ h hst := Store.every_of_frames hst h
  lookup _ _ _ _ hst _ hv := Store.every_lookup hst hv
  child _ _ _ hst _ hb := ⟨Store.every_addFrame hst hb, trivial⟩
  define _ _ _ _ hst _ hv := Store.every_define hst hv
  quotation depth arg sc U hcall replies := by
    obtain ⟨hsort, harg⟩ := (Node.wellSorted_iff.1 hcall).operands arg (by simp)
    refine U.quotation (fun _ h => h.elim)
      (Judgement.rewriting_fitsFor (unquoteStep_fitsFor U replies)) harg fun i n hfits => ?_
    exact ⟨hfits.expression hsort, hfits.wellSorted⟩

/-! ## Expansion -/

/-- What takes the place of a macro call is a well-sorted expression. -/
theorem expandStep_fitsFor (macros : Scope) (n : Node) (hn : n.WellSorted) :
    ((sorted.judgement depth).except fun _ => True).holds (expandStep macros n) n.FitsFor := by
  refine lawful_sorted.quietSteps.expandStep lawful_sorted.note ?_ (.refl hn)
  rintro name args rfl
  refine ⟨fun a ha i => ?_, lawful_sorted.findMacro name trivial, fun i n' hquote => ?_⟩
  · exact (Node.wellSorted_iff.1 hn).operands a (List.mem_cons_of_mem _ ha)
  · exact .of_call hquote.1 hquote.2

/-- A well-sorted program is expanded to a well-sorted tree. -/
theorem expandProgram_sorted (depth : Nat) (macros : Scope) {program : Node}
    (hprogram : program.WellSorted) :
    (sorted.judgement depth).holds (expandProgram macros program)
      (Judgement.Either (fun _ => True) Node.WellSorted) := by
  have hstatements : ∀ s ∈ program.statements, s.isStatement = true ∧ s.WellSorted := by
    cases program with
    | program ss => exact (Node.wellSorted_iff.1 hprogram).listed
    | _ => simp [Node.statements]
  refine lawful_sorted.quietSteps.expandProgram lawful_sorted.note ?_ fun kept hkept => ?_
  · intro name params body i hs
    have hmacro := (Node.wellSorted_iff.1 (hstatements _ hs).2).operands _ List.mem_cons_self
    have hbody : (Node.block body).WellSorted :=
      (Node.wellSorted_iff.1 hmacro.2).bodies body (by simp)
    exact sorted.modify depth fun st hst => Store.every_define hst (.intro ⟨rfl, hbody⟩ (by simp))
  · have hprogram : (Node.program kept).WellSorted :=
      Node.wellSorted_iff.2 ⟨by simp, fun s hs => hstatements s (hkept s hs), by simp⟩
    have hstep : ∀ n, n.WellSorted → ((sorted.judgement depth).except fun _ => True).holds
        (expandStep macros n) n.FitsFor := expandStep_fitsFor macros
    have hrebuild := Judgement.rebuild (Judgement.rewriting_fitsFor hstep) _ hprogram
    refine Judgement.bind _ hrebuild fun r hr => ?_
    cases r with
    | ok n => exact Judgement.pure _ hr.wellSorted
    | error e => exact hr.elim

/-- The run of a well-sorted program keeps values in shape and comes to one. -/
theorem runProgram_sorted (depth : Nat) (values macros : Scope) {program : Node}
    (hprogram : program.WellSorted) :
    (sorted.judgement depth).holds (runProgram values macros program)
      fun r => r.value.Result Value.Sorted :=
  lawful_sorted.quietSteps.runProgram lawful_sorted.note (expandProgram_sorted depth macros hprogram)
    fun n hn => lawful_sorted.eval depth n values hn trivial

end Conduct

/-! ## Sessions -/

/-- A result of values in shape is in shape; errors are. -/
theorem Value.Result.every_sorted {v : Value} (h : v.Result Sorted) : v.Every Sorted := by
  rcases h with he | hv
  · cases v with
    | error i fault => exact .intro trivial (by simp)
    | _ => cases he
  · exact hv

/-- An evaluation of a well-sorted tree, which finds and leaves values in shape and comes to one,
and does not fail for a tree in the wrong place. -/
structure Visit.Sorted (w : Visit) : Prop where
  node : w.node.WellSorted
  before : w.store.Every Value.Sorted
  after : (w.outcome evalRule).store.Every Value.Sorted
  value : ∀ v, (w.outcome evalRule).result = .ok v → v.Every Value.Sorted
  placed : ∀ e, (w.outcome evalRule).result ≠ .error (.illSorted e)

theorem Visit.sorted_of_admits {w : Visit} (h : Conduct.sorted.Admits w) : w.Sorted := by
  obtain ⟨hafter, hresult⟩ := Conduct.lawful_sorted.outcome_visit h
  refine ⟨h.tree, h.store, hafter, fun v hv => ?_, fun e he => ?_⟩
  · rw [hv] at hresult
    exact hresult.every_sorted
  · rw [he] at hresult
    exact hresult e rfl

namespace Session
variable {depth : Nat} {source : String}

/-- Every session that is reached holds values in shape. -/
theorem sorted_after (history : List Entry) : (after history).store.Every Value.Sorted := by
  induction history with
  | nil => exact every_new _
  | cons e history ih =>
    rw [after, next, attempt]
    cases hparse : Source.parse e.source with
    | error _ => exact ih
    | ok program =>
      have hquiet : (after history).store.quiet.Every Value.Sorted := Store.every_of_frames ih rfl
      have hrun := Conduct.runProgram_sorted e.depth (after history).values (after history).macros
        (Source.parse_wellSorted hparse) _ hquiet
      exact Store.every_of_frames hrun.2.1 rfl

/-- The run of a text comes to an end, and on the way no number is to be shown that has too many
digits. -/
structure Completes (s : Session) (depth : Nat) (source : String) : Prop where
  ends : ∀ o, s.attempt depth source = some o → o.result ≠ .error .depthExceeded
  shows : ∀ w ∈ s.visits depth source, ¬ w.ShowsUnwritable

/-- In a session with values in shape, a run that comes to an end comes to such a value. -/
theorem exists_ran_of_completes {s : Session} {program : Node}
    (hparse : Source.parse source = .ok program) (hst : s.store.Every Value.Sorted)
    (h : s.Completes depth source) :
    ∃ r, ((runProgram s.values s.macros program).outcome evalRule depth s.store.quiet).result =
      .ok r ∧ r.value.Every Value.Sorted := by
  have hquiet : s.store.quiet.Every Value.Sorted := Store.every_of_frames hst rfl
  obtain ⟨-, -, hresult⟩ := Conduct.runProgram_sorted depth s.values s.macros
    (Source.parse_wellSorted hparse) s.store.quiet hquiet
  cases ho : ((runProgram s.values s.macros program).outcome evalRule depth s.store.quiet).result with
  | ok r =>
    rw [ho] at hresult
    exact ⟨r, rfl, hresult.every_sorted⟩
  | error e =>
    rw [ho] at hresult
    cases e with
    | illSorted e => exact absurd rfl (hresult e)
    | depthExceeded =>
      refine absurd ho (h.ends _ ?_)
      rw [attempt, hparse]
    | unwritableNumber =>
      obtain ⟨w, hw, hshows⟩ := exists_showsUnwritable ho
      refine absurd hshows (h.shows w ?_)
      rw [visits, hparse]
      exact hw

/-- No program goes wrong for a tree in the wrong place. Whatever has been submitted before, a text
that is a program is expanded to a well-sorted program; all that is evaluated on the way is well
sorted, among values whose quoted trees are well-sorted expressions; and if its run comes to an end,
with no number to be shown that has too many digits, it comes to such a value. So it does when it
is run or submitted. -/
theorem runs_to_value {program : Node} (hparse : Source.parse source = .ok program)
    (history : List Entry) :
    let s := after history
    (∀ depth, (∀ w ∈ s.visits depth source, w.Sorted) ∧
      (∀ expanded st, (expandProgram s.macros program).outcome evalRule depth s.store.quiet =
        ⟨.ok (.ok expanded), st⟩ → (∃ ss, expanded = .program ss) ∧ expanded.WellSorted) ∧
      (s.next depth source).store.Every Value.Sorted ∧
      (s.Completes depth source → ∃ v, s.Yields depth source v ∧ v.Every Value.Sorted)) ∧
    (s.Completes depthLimit source →
      (∃ v, (s.run source).result = .ok v) ∧
      ∃ v silent, (s.submit source).result = .ok (v, silent)) := by
  intro s
  have hprogram : program.WellSorted := Source.parse_wellSorted hparse
  have hst : s.store.Every Value.Sorted := sorted_after history
  have hquiet : s.store.quiet.Every Value.Sorted := Store.every_of_frames hst rfl
  refine ⟨fun depth => ⟨fun w hw => ?_, fun expanded st hexpand => ?_, ?_, fun h => ?_⟩, fun h => ?_⟩
  · rw [visits, hparse] at hw
    have hrun := Conduct.runProgram_sorted depth s.values s.macros hprogram s.store.quiet hquiet
    exact Visit.sorted_of_admits (hrun.1 w hw)
  · refine ⟨program_of_expandProgram hexpand, ?_⟩
    obtain ⟨-, -, hresult⟩ :=
      Conduct.expandProgram_sorted depth s.macros hprogram s.store.quiet hquiet
    rw [hexpand] at hresult
    exact hresult
  · exact sorted_after (⟨depth, source⟩ :: history)
  · obtain ⟨r, hr, hvalue⟩ := exists_ran_of_completes hparse hst h
    refine ⟨r.value, ⟨_, r, ?_, hr, rfl⟩, hvalue⟩
    rw [attempt, hparse]
  · obtain ⟨r, hr, -⟩ := exists_ran_of_completes hparse hst h
    exact ⟨⟨_, s.result_withSource source hparse hr fun _ r => r.value⟩, _, _,
      s.result_withSource source hparse hr fun program r =>
        (r.value, r.expanded && endsInLet program)⟩

/-- A macro that an earlier text defined adds one to a tree. -/
theorem runs_to_value_increment :
    let history : List Entry :=
      [⟨9, "let inc = macro(x) \x7b quote(unquote(x) + 1) \x7d;"⟩]
    ∃ program, Source.parse "inc(2);" = .ok program ∧ (after history).Completes depthLimit "inc(2);" ∧
      (∃ v, ((after history).run "inc(2);").result = .ok v) ∧
      ∃ v silent, ((after history).submit "inc(2);").result = .ok (v, silent) := by
  intro history
  let program : Node := .program [.exprStmt (.call (.ident "inc") [.int 2])]
  have hparse : Source.parse "inc(2);" = .ok program := Source.parse_of_toOption (by decide +kernel)
  have hok : (((after history).attempt depthLimit "inc(2);").any fun o => o.result.isOk) = true := by
    decide +kernel
  have hcalls : ∀ w ∈ (after history).visits depthLimit "inc(2);", w.isCall = false := by
    decide +kernel
  have hcompletes : (after history).Completes depthLimit "inc(2);" := by
    refine ⟨fun o ho hdepth => ?_, fun w hw hshows => ?_⟩
    · rw [ho, Option.any_some, hdepth] at hok
      cases hok
    · exact absurd (hshows.isCall.symm.trans (hcalls w hw)) (by simp)
  exact ⟨program, hparse, hcompletes, (runs_to_value hparse history).2 hcompletes⟩

end Session
end Monkey
