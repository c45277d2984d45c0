import Monkey.Session
import Monkey.Proofs.Regime

/-!
# Invariants through macro expansion

Expanding macros does to the store what evaluation does, and binds macros as
well. So an invariant that evaluation keeps is also kept by the expansion of
a program, and by all that is done with a parsed text. As with evaluation, one
walk through the steps of expansion is made for every judgement.

## Main results

* `QuietSteps.expandStep` — a macro call is replaced by a tree that its macro quotes.
* `QuietSteps.runProgram` — a text runs to a result if what it expands to does.
* `Regime.Stable.expandProgram`, `Regime.Stable.runProgram` — the cases of a stable
  invariant.
-/

namespace Monkey

open Monkey.Computation

/-- Takes the macros out of a program and replaces their calls. -/
def expandProgram (macros : Scope) (program : Node) : Computation (Except Fault Node) := do
  modify (Store.note (.parsed program.statements.length))
  let kept ← defineMacros macros program.statements
  (expandMacros macros (.program kept)).run

/-- A text is run by expanding its program and evaluating what is left. -/
theorem runProgram_eq (values macros : Scope) (program : Node) :
    runProgram values macros program = (do
      match ← expandProgram macros program with
      | .ok expanded =>
        let v ← eval expanded values
        return ⟨v, true⟩
      | .error fault =>
        modify (Store.note (.expansionFailed fault))
        let v ← raise fault
        return ⟨v, false⟩) := by
  simp only [expandProgram, bind_assoc]
  rfl

/-! ## Expansion under any judgement -/

/-- In a new scope inside `sc`, where names mean values of the shape, the tree yields a result. -/
def Judgement.Opens (J : Judgement Computation) (shape : Value → Prop) (body : Node) (sc : Scope) :
    Prop :=
  ∀ bindings, (∀ b ∈ bindings, b.2.Every shape) → ∃ inner : Scope → Prop,
    J.holds (openScope sc bindings) inner ∧
      ∀ sc', inner sc' → J.holds (eval body sc') (Value.Result shape)

theorem Judgement.Opens.runs {J : Judgement Computation} {shape : Value → Prop} {body : Node}
    {sc : Scope} (h : J.Opens shape body sc) {bindings : Table String Value}
    (hb : ∀ b ∈ bindings, b.2.Every shape) :
    J.holds (openScope sc bindings >>= fun inner => eval body inner) (Value.Result shape) := by
  obtain ⟨inner, hopened, heval⟩ := h bindings hb
  exact J.bind hopened heval

/-- The tree that the body of a macro has yielded, if it has yielded one. -/
def yielded (name : String) (args : List Node) (v : Value) : Expansion Node :=
  match v.unwrapped with
  | .error _ fault => throw (.inMacro name fault)
  | .quote _ n => do
    modify (Store.note (.expanded (.call (.ident name) args) n))
    return n
  | v => throw (.macroYield name v.kind)

/-- A macro call is replaced by what its macro comes to in a new scope. -/
theorem expandCall_eq (name : String) (args : List Node) (params : List String) (body : Node)
    (sc : Scope) : expandCall name args params body sc = (do
      if args.length ≠ params.length then throw (.macroArity params.length args.length)
      let quotes ← quoteAll args
      let v ← (openScope sc (bindParams params quotes) >>= fun inner => eval body inner : Computation _)
      yielded name args v) := by
  simp only [expandCall, liftM_bind, bind_assoc]
  rfl

namespace QuietSteps
variable {J : Judgement Computation} {shape : Value → Prop} (U : QuietSteps J shape)
include U

theorem newQuote {n : Node} (h : ∀ i, shape (.quote i n)) :
    J.holds (newQuote n) (Value.Every shape) :=
  J.bind U.fresh fun i _ => J.pure (.intro (h i) (by simp))

theorem quoteAll : ∀ {ns : List Node}, (∀ n ∈ ns, ∀ i, shape (.quote i n)) →
    J.holds (quoteAll ns) fun qs => ∀ q ∈ qs, q.Every shape
  | [], _ => J.pure (by simp)
  | n :: ns, h => by
    refine J.bind (U.newQuote (h n List.mem_cons_self)) fun q hq => ?_
    refine J.bind (quoteAll fun m hm => h m (List.mem_cons_of_mem _ hm)) fun qs hqs => ?_
    exact J.pure (by simpa using ⟨hq, hqs⟩)

variable (note : ∀ n, J.holds (Computation.modify (Store.note n)) fun _ => True)
include note

/-- What takes the place of a macro call is a tree that the macro has quoted. -/
theorem expandCall {name : String} {args : List Node} (hargs : ∀ a ∈ args, ∀ i, shape (.quote i a))
    (params : List String) {body : Node} {sc : Scope}
    (hbody : ∀ bindings, (∀ b ∈ bindings, b.2.Every shape) →
      J.holds (openScope sc bindings >>= fun inner => eval body inner) (Value.Result shape)) :
    (J.except fun _ => True).holds (expandCall name args params body sc)
      fun n => ∃ i, shape (.quote i n) := by
  rw [expandCall_eq]
  split
  · exact J.throw trivial
  refine Judgement.bind _ (J.lift (U.quoteAll hargs)) fun qs hqs => ?_
  refine Judgement.bind _ (J.lift (hbody _ (Upkeep.bindParams hqs))) fun v hv => ?_
  have hresult := hv.unwrapped
  unfold yielded
  generalize v.unwrapped = v at hresult
  split
  · exact J.throw trivial
  · next i n =>
    have hn : shape (.quote i n) := by
      rcases hresult with he | hquote
      · cases he
      · exact (Value.every_iff.1 hquote).1
    refine Judgement.bind _ (J.lift (note _)) fun _ _ => ?_
    exact (J.except _).pure ⟨i, hn⟩
  · exact J.throw trivial

/-- A tree is put in the place of a macro call that has been quoted, and any other tree stays. -/
theorem expandStep {macros : Scope} {n : Node} {post : Node → Prop}
    (calls : ∀ name args, n = .call (.ident name) args → (∀ a ∈ args, ∀ i, shape (.quote i a)) ∧
      J.holds (findMacro name macros) (fun found => ∀ m, found = some m → J.Opens shape m.2.1 m.2.2) ∧
      ∀ i n', shape (.quote i n') → post n')
    (stays : post n) : (J.except fun _ => True).holds (expandStep macros n) post := by
  unfold Monkey.expandStep
  split
  · next name args =>
    obtain ⟨hargs, hfind, hpost⟩ := calls name args rfl
    refine Judgement.bind _ (J.lift hfind) fun found hfound => ?_
    cases found with
    | none => exact (J.except _).pure stays
    | some m =>
      refine Judgement.mono _ (U.expandCall note hargs m.1 fun _ => (hfound m rfl).runs) fun n' hn => ?_
      obtain ⟨i, hquote⟩ := hn
      exact hpost i n' hquote
  · exact (J.except _).pure stays

/-- Taking the macro definitions out of statements leaves some of the statements. -/
theorem defineMacros {macros : Scope} : ∀ ss : List Node,
    (∀ name params body i, .letStmt name (.macroLit params body) ∈ ss →
      J.holds (Computation.modify (Store.define macros name
        (.macroFn i params (.block body) macros))) fun _ => True) →
    J.holds (defineMacros macros ss) fun kept => ∀ s ∈ kept, s ∈ ss
  | [], _ => J.pure (by simp)
  | s :: ss, h => by
    have ih := defineMacros ss fun name params body i hs =>
      h name params body i (List.mem_cons_of_mem s hs)
    unfold Monkey.defineMacros
    split
    · next heq => cases heq
    · next name params body _ heq =>
      obtain ⟨rfl, rfl⟩ := List.cons.inj heq
      refine J.bind U.fresh fun i _ => J.bind (h name params body i List.mem_cons_self) fun _ _ => ?_
      refine J.bind (note _) fun _ _ => J.mono ih fun kept hkept s hs => ?_
      exact List.mem_cons_of_mem _ (hkept s hs)
    · next heq =>
      obtain ⟨rfl, rfl⟩ := List.cons.inj heq
      refine J.bind ih fun kept hkept => J.pure fun s hs => ?_
      rcases List.mem_cons.1 hs with rfl | hs
      · exact List.mem_cons_self
      · exact List.mem_cons_of_mem _ (hkept s hs)

/-- A program is expanded by taking its macro definitions out and replacing macro calls. -/
theorem expandProgram {macros : Scope} {program : Node} {post : Node → Prop}
    (defines : ∀ name params body i, .letStmt name (.macroLit params body) ∈ program.statements →
      J.holds (Computation.modify (Store.define macros name
        (.macroFn i params (.block body) macros))) fun _ => True)
    (expands : ∀ kept, (∀ s ∈ kept, s ∈ program.statements) →
      (J.except fun _ => True).holds (expandMacros macros (.program kept)) post) :
    J.holds (expandProgram macros program) (Judgement.Either (fun _ => True) post) :=
  J.bind (note _) fun _ _ => J.bind (U.defineMacros note _ defines) expands

/-- A text runs to a result if what its program is expanded to evaluates to one. -/
theorem runProgram {values macros : Scope} {program : Node} {expanded : Node → Prop}
    (expands : J.holds (Monkey.expandProgram macros program)
      (Judgement.Either (fun _ => True) expanded))
    (evaluates : ∀ n, expanded n → J.holds (eval n values) (Value.Result shape)) :
    J.holds (runProgram values macros program) fun r => r.value.Result shape := by
  rw [runProgram_eq]
  refine J.bind expands fun r hr => ?_
  cases r with
  | ok n => exact J.bind (evaluates n hr) fun v hv => J.pure hv
  | error fault => exact J.bind (note _) fun _ _ => J.bind (U.refuse fault) fun v hv => J.pure hv

end QuietSteps

/-! ## Stable invariants -/

/-- The judgement of a regime on expansions, which may fail for any reason. -/
abbrev Regime.expansions (R : Regime) (depth : Nat) : Judgement Expansion :=
  (R.judgement depth).except fun _ => True

namespace Regime.Stable
variable {R : Regime} {shape : Value → Prop} {inner : Scope → Prop} {good : Node → Prop}
  (S : R.Stable shape inner good) {depth : Nat}
include S

theorem quietSteps : QuietSteps (R.judgement depth) shape := (S.upkeep (S.eval depth)).toQuietSteps

theorem note (n : Note) :
    (R.judgement depth).holds (Computation.modify (Store.note n)) fun _ => True :=
  R.modify depth fun st h => S.frames st _ rfl (Nat.le_refl _) h

/-- Every tree yields a result in a new scope. -/
theorem opens (body : Node) (sc : Scope) : (R.judgement depth).Opens shape body sc :=
  fun _ hb => ⟨inner, R.yielding depth fun st h => S.addFrame st ⟨some sc, _⟩ h hb, S.eval depth body⟩

theorem expandStep (macros : Scope) {n : Node} (hn : n.Built good) :
    (R.expansions depth).holds (expandStep macros n) good := by
  refine S.quietSteps.expandStep S.note (fun name args hcall => ?_) (S.built n hn)
  subst hcall
  refine ⟨fun a ha i => (S.quoted i a).2 (hn.operands a (List.mem_cons_of_mem _ ha)).2, ?_, ?_⟩
  · exact R.reading depth fun _ _ m _ => S.opens m.2.1 m.2.2
  · exact fun i n' hquote => (S.quoted i n').1 hquote

/-- Replacing the macro calls in a program leaves a program of as many statements. -/
theorem expandMacros_program (macros : Scope) (ss : List Node) :
    (R.expansions depth).holds (Monkey.expandMacros macros (.program ss))
      fun n => ∃ ss', n = .program ss' ∧ ss'.length = ss.length := by
  have hstep : ∀ n : Node, n.Built good →
      (R.expansions depth).holds (Monkey.expandStep macros n) good :=
    fun n hn => S.expandStep macros hn
  have hrebuild : ((R.expansions depth).except fun _ => True).holds
      ((Node.program ss).rebuildM (Monkey.expandStep macros))
      fun n => ∃ ss', n = .program ss' ∧ ss'.length = ss.length := by
    have hlisted : ∀ s ∈ ss, s ∈ (Node.program ss).listed := fun s hs => hs
    rw [Node.rebuildM]
    refine Judgement.bind _ (Judgement.rebuildListed (Judgement.rewriting_of_built hstep) ss trivial
      hlisted) fun ss' hss => ?_
    exact (R.expansions depth).lift ((R.expansions depth).pure ⟨ss', rfl, hss.length_eq⟩)
  refine (R.expansions depth).bind hrebuild fun r hr => ?_
  cases r with
  | ok n => exact (R.expansions depth).pure hr
  | error e => exact (R.judgement depth).lift (R.fail depth _ _)

/-- The expansion of a program keeps a stable invariant and yields a program, if names may be bound
in the scope of macros. -/
theorem expandProgram {macros : Scope} (hmacros : inner macros) (program : Node) :
    (R.judgement depth).holds (expandProgram macros program)
      (Judgement.Either (fun _ => True) fun n => ∃ ss, n = .program ss) := by
  refine S.quietSteps.expandProgram S.note (fun name params body i _ => ?_) fun kept _ => ?_
  · exact R.modify depth fun st h => S.define st macros name _ h hmacros
      (.intro (S.macros i params _ macros) (by simp))
  · exact Judgement.mono _ (S.expandMacros_program macros kept) fun n ⟨ss, hn, _⟩ => ⟨ss, hn⟩

/-- A text is run with a stable invariant kept and yields a result, if names may be bound in the
two scopes that it runs in. -/
theorem runProgram {values macros : Scope} (hvalues : inner values) (hmacros : inner macros)
    (program : Node) :
    (R.judgement depth).holds (runProgram values macros program)
      fun r => r.value.Result shape :=
  S.quietSteps.runProgram S.note (S.expandProgram hmacros program) fun n _ =>
    S.eval depth n values hvalues

end Regime.Stable

/-- The regime that asks for nothing. -/
def Regime.free : Regime := ⟨fun _ => True, fun _ => True⟩

theorem Regime.stable_free :
    Regime.free.Stable (fun _ => True) (fun _ => True) fun _ => True where
  built _ _ := trivial
  spliced _ _ _ _ := trivial
  quoted _ _ := Iff.rfl
  data _ _ := trivial
  functions _ _ _ _ := trivial
  macros _ _ _ _ := trivial
  markers _ _ _ _ _ _ _ _ := trivial
  frames _ _ _ _ _ := trivial
  lookup _ _ _ v _ _ := Value.every_of_forall (fun _ => trivial) v
  addFrame _ _ _ _ := ⟨trivial, trivial⟩
  define _ _ _ _ _ _ _ := trivial

/-- The expansion of a program is a program again. -/
theorem program_of_expandProgram {macros : Scope} {program n : Node} {depth : Nat} {st st' : Store}
    (h : (expandProgram macros program).outcome evalRule depth st = ⟨.ok (.ok n), st'⟩) :
    ∃ ss, n = .program ss := by
  have hkeeps : (Regime.free.judgement depth).holds (expandProgram macros program)
      (Judgement.Either (fun _ => True) fun n => ∃ ss, n = .program ss) :=
    Regime.stable_free.expandProgram trivial program
  exact (hkeeps st trivial fun _ _ => trivial).2.2 (.ok n) (by rw [h])

end Monkey
