import Monkey.Proofs.DataText
import Monkey.Proofs.RoundTrip
import Monkey.Proofs.Templates

/-!
# A program with a deep log

A macro may ignore its argument. Then the argument, which may nest as deeply as you
like, is not evaluated and is no part of what the call is replaced by, so the program
has a value for all that. But the note on the call has the argument in it.

## Main definitions

* `Node.negations` — a tree that nests deeply.
* `Node.discarding` — a program with a macro that ignores its argument.

## Main results

* `outcome_expandMacros_call` — a call that is the whole program is replaced.
* `Session.run_discarding` — what such a program comes to, and what it notes.
-/

namespace Monkey

open Monkey.Computation

namespace Node

/-- A tree is tidy if it is legible and has tidy parts of the sorts that their places ask for. -/
theorem tidy_of_children {n : Node} (hlegible : n.Legible) (hfits : n.fits = true)
    (hchildren : ∀ c ∈ n.children, c.Tidy) : n.Tidy where
  wellSorted := by
    obtain ⟨hoperands, hlisted⟩ := fits_iff.1 hfits
    exact .intro hoperands hlisted fun c hc => (hchildren c hc).wellSorted
  legible t ht := by
    rcases mem_subtrees.1 ht with rfl | ⟨c, hc, ht⟩
    · exact hlegible
    · exact (hchildren c hc).legible t ht

/-- `true`, negated `k` times. -/
def negations : Nat → Node
  | 0 => .bool true
  | k + 1 => .prefixOp "!" (negations k)

theorem renderDepth_negations (k : Nat) : (negations k).renderDepth = k + 1 := by
  induction k with
  | zero => rfl
  | succ k ih => rw [negations, renderDepth, ih]

theorem isExpression_negations (k : Nat) : (negations k).isExpression = true := by
  cases k <;> rfl

theorem negations_ne_ident (k : Nat) (name : String) : negations k ≠ .ident name := by
  cases k <;> nofun

theorem tidy_negations (k : Nat) : (negations k).Tidy := by
  induction k with
  | zero => exact ⟨by decide, by decide⟩
  | succ k ih =>
    refine tidy_of_children (by simp [negations, Legible]) ?_ ?_
    · simp [negations, fits, isExpression_negations]
    · simpa [negations, children] using ih

theorem callFree_negations (k : Nat) : (negations k).CallFree := by
  induction k with
  | zero => simp [CallFree, negations, subtrees]
  | succ k ih =>
    intro t ht
    rw [negations, subtrees, List.mem_append, List.mem_singleton] at ht
    rcases ht with ht | rfl
    · exact ih t ht
    · simp

/-- `let m = macro(x) { quote(true) }; m(n)` -/
def discarding (n : Node) : List Node :=
  [.letStmt "m" (.macroLit ["x"] [.exprStmt (.call (.ident "quote") [.bool true])]),
    .exprStmt (.call (.ident "m") [n])]

theorem tidy_discarding {n : Node} (h : n.Tidy) (hn : n.isExpression = true) :
    (program (discarding n)).Tidy := by
  have hname : (ident "m").Tidy := ⟨by decide, by decide⟩
  have hcall : (call (ident "m") [n]).Tidy := by
    refine tidy_of_children trivial (fits_iff.2 ⟨?_, by simp⟩) (by simp [children, hname, h])
    simp [hn, show (ident "m").isExpression = true from rfl]
  have hstatement : (exprStmt (call (ident "m") [n])).Tidy :=
    tidy_of_children trivial rfl (by simp [children, hcall])
  have hmacro :
      (letStmt "m" (macroLit ["x"] [exprStmt (call (ident "quote") [bool true])])).Tidy :=
    ⟨by decide, by decide⟩
  refine tidy_of_children ?_ rfl (by simp [children, discarding, hmacro, hstatement])
  exact ⟨by simp [discarding, isBlock], by simp [discarding, isExprStmt]⟩

end Node

variable {n : Node} {depth : Nat}

/-- A program that is a call is rebuilt with what is put in the place of the call, if all else stays
as it is. -/
theorem rebuildM_call {m : Type → Type} [Monad m] [LawfulMonad m] {f : Node → m Node} {name : String}
    (hn : n.isExpression = true) (hname : f (.ident name) = pure (.ident name))
    (hargument : n.rebuildM f = pure n) (hstatement : ∀ e, f (.exprStmt e) = pure (.exprStmt e))
    (hprogram : ∀ ss, f (.program ss) = pure (.program ss)) :
    (Node.program [.exprStmt (.call (.ident name) [n])]).rebuildM f = (do
      let e ← liftM (f (.call (.ident name) [n]))
      let e ← liftM e.asExpression
      return .program [.exprStmt e]) := by
  have hcallee : (liftM (Node.ident name).asExpression : ExceptT SortError m Node) =
      pure (.ident name) := rfl
  have hplaced : (liftM n.asExpression : ExceptT SortError m Node) = pure n := by
    rw [Node.asExpression, if_pos hn]
    rfl
  have hlisted (e : Node) : (liftM (Node.exprStmt e).asStatement : ExceptT SortError m Node) =
      pure (.exprStmt e) := rfl
  simp only [Node.rebuildM, Node.rebuildStatements, Node.rebuildExpressions, Node.expectExpression,
    Node.expectStatement, hargument, hname, hstatement, hprogram, liftM_pure, pure_bind, bind_assoc,
    hcallee, hplaced, hlisted]

/-- The call of a macro that is the whole program is replaced by what the macro yields, if no macro
is called in its argument. -/
theorem outcome_expandMacros_call {macros : Scope} {name : String} (hsorted : n.WellSorted)
    (hn : n.isExpression = true) (hfree : n.CallFree) {st st' : Store} {e : Node}
    (he : e.isExpression = true)
    (hcall : (expandStep macros (.call (.ident name) [n])).run.outcome evalRule depth st =
      ⟨.ok (.ok e), st'⟩) :
    (expandMacros macros (.program [.exprStmt (.call (.ident name) [n])])).run.outcome evalRule depth
      st = ⟨.ok (.ok (.program [.exprStmt e])), st'⟩ := by
  have hargument : n.rebuildM (fun n => expandStep macros n) = pure n :=
    Node.rebuildM_eq_pure hsorted (expandStep_of_callFree macros hfree)
  have hplaced : (liftM e.asExpression : ExceptT SortError Expansion Node) = pure e := by
    rw [Node.asExpression, if_pos he]
    rfl
  have hlift : (liftM (expandStep macros (.call (.ident name) [n])) :
      ExceptT SortError Expansion Node).run.run.outcome evalRule depth st =
        ⟨.ok (.ok (.ok e)), st'⟩ := by
    show (expandStep macros (.call (.ident name) [n]) >>= fun e => pure (Except.ok e)).run.outcome
      evalRule depth st = _
    rw [ExceptT.run_bind, Computation.outcome_bind, hcall]
    rfl
  have hrebuild : (Node.program [.exprStmt (.call (.ident name) [n])]).rebuildM
      (fun n => expandStep macros n) = _ :=
    rebuildM_call hn rfl hargument (fun _ => rfl) fun _ => rfl
  rw [expandMacros, hrebuild]
  simp only [ExceptT.run_bind, Computation.outcome_bind, hlift, hplaced]
  rfl

/-- The program comes to `true`, prints nothing, and notes its call. -/
theorem outcome_discarding (hsorted : n.WellSorted) (hn : n.isExpression = true)
    (hfree : n.CallFree) (hunquote : n ≠ .ident "unquote") (hdepth : 4 ≤ depth) :
    ∃ st, (runProgram Session.new.values Session.new.macros (.program (Node.discarding n))).outcome
        evalRule depth Session.new.store.quiet = ⟨.ok ⟨.bool true, true⟩, st⟩ ∧
      st.output = "" ∧ .expanded (.call (.ident "m") [n]) (.bool true) ∈ st.notes := by
  obtain ⟨d, rfl⟩ : ∃ d, depth = d + 4 := ⟨depth - 4, by omega⟩
  let macros : Scope := Session.new.macros
  let body : Node := .block [.exprStmt (.call (.ident "quote") [.bool true])]
  let m : Value := .macroFn Session.new.store.nextIdentity ["x"] body macros
  let st₀ : Store := Session.new.store.quiet.note (.parsed 2)
  let st₁ : Store := (st₀.freshIdentity.2.define macros "m" m).note (.defined "m" ["x"])
  have hmacro : st₁.lookup "m" macros = some m := Store.lookup_of_find? rfl
  have hframe : st₁.frame? macros = some ⟨none, [("m", m)]⟩ := rfl
  have hquote : st₁.lookup "quote" macros = none := Store.lookup_of_root hframe rfl rfl
  have hargs : ∀ a ∈ [n], a.isExpression = true ∧ a ≠ .ident "unquote" := by simp [hn, hunquote]
  have htemplate : (Node.bool true).IsTemplate ["x"] := ⟨by decide, by simp [Node.subtrees]⟩
  obtain ⟨st₂, hexpand, hprinted, -⟩ := outcome_expandCall_of_isTemplate "m" (Nat.le_add_left 4 d) rfl
    (by simp) (by simp) hquote htemplate hargs
  let st₃ : Store := st₂.note (.expanded (.call (.ident "m") [n]) (.bool true))
  have hnote : (takeNote (.parsed 2)).outcome evalRule (d + 4) Session.new.store.quiet =
      ⟨.ok (), st₀⟩ := rfl
  have hdefine : (defineMacros macros (Node.discarding n)).outcome evalRule (d + 4) st₀ =
      ⟨.ok [.exprStmt (.call (.ident "m") [n])], st₁⟩ := rfl
  have hfind : (findMacro "m" macros).outcome evalRule (d + 4) st₁ =
      ⟨.ok (some (["x"], body, macros)), st₁⟩ := by
    rw [findMacro, outcome_reading, hmacro]
  have hcall : (expandStep macros (.call (.ident "m") [n])).run.outcome evalRule (d + 4) st₁ =
      ⟨.ok (.ok (.bool true)), st₃⟩ :=
    (outcome_lift_bind hfind _).trans hexpand
  have hexpanded := outcome_expandMacros_call hsorted hn hfree rfl hcall
  have htrue : (Node.bool true).ComesTo (d + 2) (.bool true) :=
    fun _ st => ⟨.bool true, st.nextIdentity, rfl, rfl⟩
  obtain ⟨w, i, heval, hw⟩ := htrue.program rfl Session.new.values st₃
  obtain rfl : w = .bool true := by cases w <;> cases hw; rfl
  rw [Node.evaluate, run_eq] at heval
  refine ⟨{ st₃ with nextIdentity := i }, ?_, hprinted, List.mem_cons_self⟩
  show (takeNote (.parsed 2) >>= fun _ => defineMacros macros (Node.discarding n) >>= _).outcome
    evalRule (d + 4) Session.new.store.quiet = _
  rw [Computation.outcome_bind, hnote]
  dsimp only
  rw [Computation.outcome_bind, hdefine]
  dsimp only
  rw [Computation.outcome_bind, hexpanded]
  dsimp only
  rw [Computation.outcome_bind, heval]
  rfl

namespace Session

/-- The text of such a program comes to `true`, prints nothing, and notes its call. -/
theorem run_discarding (h : n.Tidy) (hn : n.isExpression = true) (hfree : n.CallFree)
    (hunquote : n ≠ .ident "unquote") (hdepth : 4 ≤ depth) :
    let sub := new.run (Node.program (Node.discarding n)).render depth
    sub.result = .ok (.bool true) ∧ sub.output = "" ∧
      .expanded (.call (.ident "m") [n]) (.bool true) ∈ sub.notes := by
  obtain ⟨st, hrun, houtput, hnote⟩ := outcome_discarding h.wellSorted hn hfree hunquote hdepth
  have hparse := Source.parse_of_tidy (Node.tidy_discarding h hn)
  intro sub
  have hsub : sub = _ := new.withSource_of_outcome depth _ fun _ r => r.value
  rw [hparse] at hsub
  dsimp only at hsub
  rw [hrun] at hsub
  rw [hsub]
  exact ⟨rfl, houtput, List.mem_reverse.2 hnote⟩

end Session
end Monkey
