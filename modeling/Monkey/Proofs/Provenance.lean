import Monkey.Proofs.Effects
import Monkey.Proofs.History
import Monkey.Proofs.Rebuilding

/-!
# Where the parts of an expanded program come from

Macro calls are replaced while a program is rebuilt from the leaves up, and what a
macro has yielded is not looked at again. So what is found in an expanded program
was either written there, with other parts, and is no macro call, or is inside the tree
that a macro yielded for the call that was in its place. That is said position
by position: equal trees may be written in one place and yielded in another.

## Main definitions

* `Node.at?` — the tree at a position.
* `Node.Expands` — how an expanded tree comes from the tree in whose place it stands.
* `Store.MacroCall` — the calls that are to be replaced.
* `Store.Replaces` — a macro call was replaced by a tree in a run.

## Main results

* `Node.Expands.exists_site` — around every macro call there is a position whose tree
  a macro yielded.
* `Store.expandMacros_macroCall_inside` — so it is in every program that can be expanded,
  and the frames stay as they are.
-/

namespace Monkey

open Monkey.Computation

/-! ## Positions -/

namespace Node

/-- The tree at a position, which is given by the numbers of the children on the way there. -/
def at? (n : Node) : List Nat → Option Node
  | [] => some n
  | i :: path => n.children[i]?.bind fun c => c.at? path

/-! ## What a tree expands to -/

/-- What a tree expands to, when it is told which trees are macro calls and what may replace them.
With its parts expanded a tree stays if it is no macro call, and is replaced if it is. -/
inductive Expands (macroCall : Node → Prop) (replaces : Node → Node → Prop) : Node → Node → Prop where
  -- `rel` may be taken to be `Expands` itself, which could not be written inside `Lifts`:
  -- see `Expands.exists_lifts`.
  | kept {rel : Node → Node → Prop} {n n' : Node} : n.Lifts rel n' →
    (∀ c c', rel c c' → Expands macroCall replaces c c') → ¬ macroCall n' →
    Expands macroCall replaces n n'
  | replaced {rel : Node → Node → Prop} {n call r : Node} : n.Lifts rel call →
    (∀ c c', rel c c' → Expands macroCall replaces c c') → macroCall call → replaces call r →
    Expands macroCall replaces n r

variable {macroCall : Node → Prop} {replaces : Node → Node → Prop}

/-- A tree is expanded by expanding its parts, and then replacing it if it is a macro call. -/
theorem Expands.exists_lifts {n n' : Node} (h : n.Expands macroCall replaces n') :
    ∃ m, n.Lifts (Expands macroCall replaces) m ∧
      (n' = m ∧ ¬ macroCall m ∨ macroCall m ∧ replaces m n') := by
  cases h with
  | kept hlifts hrel hno => exact ⟨_, hlifts.mono_of_mem fun c _ => hrel c, .inl ⟨rfl, hno⟩⟩
  | replaced hlifts hrel hyes hreplaces =>
    exact ⟨_, hlifts.mono_of_mem fun c _ => hrel c, .inr ⟨hyes, hreplaces⟩⟩

/-- In an expanded tree there is around every macro call a position where there was a tree that
became a macro call when its parts were expanded, and where there is now what replaced that call. -/
theorem Expands.exists_site {n n' : Node} (h : n.Expands macroCall replaces n') {path : List Nat}
    {c : Node} (hc : n'.at? path = some c) (hcall : macroCall c) :
    ∃ site m call r, site <+: path ∧ n.at? site = some m ∧
      m.Lifts (Expands macroCall replaces) call ∧ macroCall call ∧ replaces call r ∧
      n'.at? site = some r := by
  induction path generalizing n n' with
  | nil =>
    obtain ⟨m, hlifts, ⟨rfl, hno⟩ | ⟨hyes, hreplaces⟩⟩ := h.exists_lifts
    · obtain rfl := Option.some.inj hc
      exact absurd hcall hno
    · exact ⟨[], n, m, n', List.nil_prefix, rfl, hlifts, hyes, hreplaces, rfl⟩
  | cons i path ih =>
    obtain ⟨m, hlifts, ⟨rfl, hno⟩ | ⟨hyes, hreplaces⟩⟩ := h.exists_lifts
    · obtain ⟨d', hd', hc⟩ := Option.bind_eq_some_iff.1 hc
      have hparts := hlifts.children.getElem? i
      rw [hd'] at hparts
      generalize hd : n.children[i]? = o at hparts
      cases hparts with
      | @some d _ hexpands =>
      obtain ⟨site, m, call, r, hsite, hm, hrest⟩ := ih hexpands hc
      refine ⟨i :: site, m, call, r, (List.prefix_cons_inj i).2 hsite, ?_, ?_⟩
      · rw [at?, hd]
        exact hm
      · rw [at?, hd']
        exact hrest
    · exact ⟨[], n, m, n', List.nil_prefix, rfl, hlifts, hyes, hreplaces, rfl⟩

end Node

/-! ## The macro calls of a program -/

namespace Store

/-- A call of a name that means a macro in the scope. -/
def MacroCall (st : Store) (sc : Scope) (n : Node) : Prop :=
  ∃ name args i params body inner, n = .call (.ident name) args ∧
    st.lookup name sc = some (.macroFn i params body inner)

/-- The call of a macro of the scope `sc` was replaced by `r` in a run: expanding the call answered
`r`, and all evaluations in that, of which there is at least one, took place in the run. -/
def Replaces (st : Store) (sc : Scope) (depth : Nat) (run : List Visit) (call r : Node) : Prop :=
  ∃ name args i params body inner st', call = .call (.ident name) args ∧
    st.lookup name sc = some (.macroFn i params body inner) ∧
    let x := (expandCall name args params body inner).run
    (x.outcome evalRule depth st').result = .ok (.ok r) ∧
      x.visits evalRule depth st' ≠ [] ∧ x.visits evalRule depth st' ⊆ run

end Store

/-- The regime of a run: its evaluations are those listed, and all frames that were there when it
began are as they were. -/
def Regime.keeping (st₀ : Store) (run : List Visit) : Regime where
  known w := w ∈ run
  invariant st := ∀ sc f, st₀.frame? sc = some f → st.frame? sc = some f

variable {st₀ : Store} {run : List Visit}

/-- Evaluation keeps the frames that are there, if names are bound in other scopes only. -/
theorem Regime.stable_keeping : (Regime.keeping st₀ run).Stable (fun _ => True)
    (fun sc => st₀.frame? sc = none) fun _ => True where
  built _ _ := trivial
  spliced _ _ _ _ := trivial
  quoted _ _ := Iff.rfl
  data _ _ := trivial
  functions _ _ _ _ := trivial
  macros _ _ _ _ := trivial
  markers _ _ _ _ _ _ _ _ := trivial
  frames st st' h _ hst sc f hf := by
    rw [Store.frame?, h]
    exact hst sc f hf
  lookup _ _ _ v _ _ := Value.every_of_forall (fun _ => trivial) v
  addFrame st frame hst _ := by
    refine ⟨fun sc f hf => Store.frame?_addFrame_of_some _ (hst sc f hf), ?_⟩
    cases hnew : st₀.frame? ⟨st.frames.size⟩ with
    | none => rfl
    | some f =>
      have hlt := (Array.getElem?_eq_some_iff.1 (hst _ f hnew)).1
      exact absurd hlt (Nat.lt_irrefl _)
  define st sc name v hst hsc _ sc' f hf := by
    rw [Store.frame?_define, if_neg, hst sc' f hf]
    rintro rfl
    rw [hsc] at hf
    cases hf

/-- Names mean what they meant, as long as the frames are kept that were there. -/
theorem Regime.lookup_keeping {st : Store} (h : (Regime.keeping st₀ run).invariant st) {sc : Scope}
    (hsc : sc.index < st₀.frames.size) (name : String) : st.lookup name sc = st₀.lookup name sc := by
  refine Store.lookup_congr (fun sc' hle => ?_) name
  have hf : st₀.frame? sc' = some st₀.frames[sc'.index] :=
    Array.getElem?_eq_getElem (Nat.lt_of_le_of_lt hle hsc)
  rw [hf, h sc' _ hf]

/-! ## The run of an expansion -/

/-- The judgement that nothing is answered without an evaluation, unless `post` holds of it. -/
def evaluating (depth : Nat) : Judgement Computation where
  holds x post := ∀ st a st', x.visits evalRule depth st = [] →
    x.outcome evalRule depth st = ⟨.ok a, st'⟩ → post a
  pure h := by
    rintro _ _ _ - ⟨⟩
    exact h
  bind {α β x f mid post} hx hf := by
    intro st b st' hvisits hout
    rw [visits_bind] at hvisits
    rw [outcome_bind] at hout
    obtain ⟨hnone, hrest⟩ := List.append_eq_nil_iff.1 hvisits
    generalize ho : x.outcome evalRule depth st = o at hrest hout
    obtain ⟨result, st₁⟩ := o
    cases result with
    | error e => cases hout
    | ok a => exact hf a (hx st a st₁ hnone ho) st₁ b st' hrest hout
  mono hx h st a st' hvisits hout := h a (hx st a st' hvisits hout)

/-- No macro call is replaced without an evaluation. -/
theorem visits_expandCall {name : String} {args : List Node} {params : List String} {body : Node}
    {sc : Scope} {depth : Nat} {st : Store} {r : Node}
    (h : ((expandCall name args params body sc).run.outcome evalRule depth st).result = .ok (.ok r)) :
    (expandCall name args params body sc).run.visits evalRule depth st ≠ [] := by
  have heval : ∀ inner, (evaluating depth).holds (eval body inner) fun _ => False := by
    intro inner st v st' hvisits hout
    cases depth with
    | zero =>
      rw [outcome_eval] at hout
      cases hout
    | succ depth =>
      rw [visits_eval_succ] at hvisits
      cases hvisits
  have hany : ∀ {α : Type} (x : Computation α), (evaluating depth).holds x fun _ => True :=
    fun _ _ _ _ _ _ => trivial
  have hcall : ((evaluating depth).except fun _ => True).holds (expandCall name args params body sc)
      fun _ => False := by
    unfold expandCall
    split
    · exact Judgement.throw _ trivial
    refine Judgement.bind _ (Judgement.lift _ (hany _)) fun quotes _ => ?_
    refine Judgement.bind _ (Judgement.lift _ (hany _)) fun inner _ => ?_
    exact Judgement.bind _ (Judgement.lift _ (heval inner)) fun v hv => hv.elim
  intro hvisits
  exact hcall st (.ok r) _ hvisits (by rw [← h])

namespace Regime
variable {sc : Scope} {depth : Nat} (hsc : sc.index < st₀.frames.size)

/-- A macro call is replaced in the run. -/
theorem expandCall_keeping {name : String} {args : List Node} {i : Identity} {params : List String}
    {body : Node} {inner : Scope} (h : st₀.lookup name sc = some (.macroFn i params body inner)) :
    ((keeping st₀ run).expansions depth).holds (expandCall name args params body inner)
      (st₀.Replaces sc depth run (.call (.ident name) args)) := by
  have S : (keeping st₀ run).Stable _ _ _ := stable_keeping
  have hkeeps : ((keeping st₀ run).expansions depth).holds (expandCall name args params body inner) _ :=
    S.quietSteps.expandCall S.note (fun _ _ _ => trivial) params fun _ => (S.opens body inner).runs
  intro st hst hknown
  obtain ⟨hvisits, hend, -⟩ := hkeeps st hst hknown
  refine ⟨hvisits, hend, fun r hr => ?_⟩
  cases r with
  | error fault => trivial
  | ok r => exact ⟨name, args, i, params, body, inner, st, rfl, h, hr, visits_expandCall hr, hknown⟩

include hsc

/-- The macro calls are those that they were when the run began. -/
theorem findMacro_keeping (name : String) :
    ((keeping st₀ run).judgement depth).holds (findMacro name sc) fun found =>
      (∃ i m, found = some m ∧ st₀.lookup name sc = some (.macroFn i m.1 m.2.1 m.2.2)) ∨
      (found = none ∧ ∀ args, ¬ st₀.MacroCall sc (.call (.ident name) args)) := by
  refine (keeping st₀ run).reading depth fun st hst => ?_
  rw [lookup_keeping hst hsc]
  split
  · next i params body inner h => exact .inl ⟨i, _, rfl, h⟩
  · next hno =>
    refine .inr ⟨rfl, ?_⟩
    rintro args ⟨_, _, i, params, body, inner, ⟨⟩, h⟩
    exact hno _ _ _ _ h

/-- Replacing a tree whose parts have been expanded expands the tree. -/
theorem expandStep_keeping {n n' : Node}
    (h : n.Lifts (Node.Expands (st₀.MacroCall sc) (st₀.Replaces sc depth run)) n') :
    ((keeping st₀ run).expansions depth).holds (expandStep sc n')
      (n.Expands (st₀.MacroCall sc) (st₀.Replaces sc depth run)) := by
  unfold expandStep
  split
  · next name args =>
    refine Judgement.bind _ (Judgement.lift _ (findMacro_keeping hsc name)) fun found hfound => ?_
    obtain ⟨i, m, rfl, hm⟩ | ⟨rfl, hno⟩ := hfound
    · refine Judgement.mono _ (expandCall_keeping hm) fun r hr => ?_
      exact .replaced h (fun _ _ => id) ⟨name, args, i, _, _, _, rfl, hm⟩ hr
    · exact Judgement.pure _ (.kept h (fun _ _ => id) (hno args))
  · next hno =>
    refine Judgement.pure _ (.kept h (fun _ _ => id) ?_)
    rintro ⟨name, args, _, _, _, _, rfl, -⟩
    exact hno name args rfl

/-- Replacing all macro calls in a program expands it. -/
theorem expandMacros_keeping (program : Node) :
    ((keeping st₀ run).expansions depth).holds (expandMacros sc program)
      (program.Expands (st₀.MacroCall sc) (st₀.Replaces sc depth run)) := by
  have hrewriting : ((keeping st₀ run).expansions depth).Rewriting (expandStep sc) (fun _ => True)
      (Node.Expands (st₀.MacroCall sc) (st₀.Replaces sc depth run)) fun _ => True :=
    { below := fun _ _ _ _ => trivial
      answers := fun _ _ _ h => expandStep_keeping hsc h
      expression := fun _ _ _ _ _ _ => .inr trivial
      statement := fun _ _ _ _ _ _ => .inr trivial
      block := fun _ _ _ _ => .inr trivial }
  refine ((keeping st₀ run).expansions depth).bind (Judgement.rebuild hrewriting program trivial) ?_
  intro r hr
  cases r with
  | ok n => exact Judgement.pure _ hr
  | error e => exact Judgement.lift _ (fail _ depth _ _)

end Regime

namespace Store

/-- In an expanded program every macro call is inside a tree that a macro yielded when the program
was expanded, whichever position it has: around it there is a position where there is such a tree
now, and where there was a tree in the program that became the call of that macro when its parts
were expanded. The frames that were there stay as they were, and so do the meanings of names. -/
theorem expandMacros_macroCall_inside {st st' : Store} {macros : Scope}
    (hmacros : macros.index < st.frames.size) {ss : List Node} {depth : Nat} {n : Node}
    (h : (expandMacros macros (.program ss)).run.outcome evalRule depth st = ⟨.ok (.ok n), st'⟩) :
    let replaces := st.Replaces macros depth
      ((expandMacros macros (.program ss)).run.visits evalRule depth st)
    let expands := Node.Expands (st.MacroCall macros) replaces
    expands (.program ss) n ∧
      (∀ path c, n.at? path = some c → st.MacroCall macros c →
        ∃ site m call r, site <+: path ∧ (Node.program ss).at? site = some m ∧
          m.Lifts expands call ∧ st.MacroCall macros call ∧ replaces call r ∧ n.at? site = some r) ∧
      (∀ sc f, st.frame? sc = some f → st'.frame? sc = some f) ∧
      ∀ name, st'.lookup name macros = st.lookup name macros := by
  intro replaces expands
  obtain ⟨-, hkept, hanswer⟩ :=
    Regime.expandMacros_keeping hmacros (.program ss) st (fun _ _ hf => hf) fun _ hw => hw
  rw [h] at hkept hanswer
  have hexpands : expands (.program ss) n := hanswer _ rfl
  refine ⟨hexpands, fun path c hc hcall => hexpands.exists_site hc hcall, hkept, ?_⟩
  exact Regime.lookup_keeping hkept hmacros

/-- The call of a macro that another macro has quoted is not replaced. It is inside what that other
macro yielded. -/
theorem expandMacros_macroCall_inside_quoted :
    let s := Session.after [⟨9, "let late = macro(x) { quote(inc(unquote(x))) };"⟩,
      ⟨9, "let inc = macro(x) { quote(unquote(x) + 1) };"⟩]
    let c : Node := .call (.ident "inc") [.infixOp (.ident "y") "+" (.int 1)]
    ∃ ss n st', Source.parse "fn(y) { [late(inc(y))] };" = .ok (.program ss) ∧
      (expandMacros s.macros (.program ss)).run.outcome evalRule 9 s.store = ⟨.ok (.ok n), st'⟩ ∧
      n.at? [0, 0, 0, 0, 0, 0] = some c ∧ s.store.MacroCall s.macros c ∧
      ∃ site call r, site <+: [0, 0, 0, 0, 0, 0] ∧ n.at? site = some r ∧
        s.store.Replaces s.macros 9
          ((expandMacros s.macros (.program ss)).run.visits evalRule 9 s.store) call r := by
  intro s c
  let ss : List Node :=
    [.exprStmt (.fnLit ["y"] [.exprStmt (.array [.call (.ident "late")
      [.call (.ident "inc") [.ident "y"]]])])]
  let n : Node := .program [.exprStmt (.fnLit ["y"] [.exprStmt (.array [c])])]
  have hparse : Source.parse "fn(y) { [late(inc(y))] };" = .ok (.program ss) :=
    Source.parse_of_toOption (by decide +kernel)
  have hexpanded : ((expandMacros s.macros (.program ss)).run.outcome evalRule 9
      s.store).result.toOption.bind Except.toOption = some n := by
    decide +kernel
  have hmacro : (s.store.lookup "inc" s.macros).any (fun v => decide (v.kind = .macroFn)) = true := by
    decide +kernel
  have hmacros : s.macros.index < s.store.frames.size := by decide +kernel
  have hcall : s.store.MacroCall s.macros c := by
    obtain ⟨v, hv, hkind⟩ := (Option.any_eq_true _ _).1 hmacro
    cases v with
    | macroFn i params body inner => exact ⟨_, _, i, params, body, inner, rfl, hv⟩
    | _ => cases hkind
  generalize hout : (expandMacros s.macros (.program ss)).run.outcome evalRule 9 s.store = o
    at hexpanded
  obtain ⟨result, st'⟩ := o
  rcases result with _ | (_ | n')
  · cases hexpanded
  · cases hexpanded
  · obtain rfl : n' = n := Option.some.inj hexpanded
    obtain ⟨-, hinside, -⟩ := expandMacros_macroCall_inside hmacros hout
    obtain ⟨site, _, call, r, hsite, -, -, -, hreplaces, hr⟩ :=
      hinside [0, 0, 0, 0, 0, 0] c rfl hcall
    exact ⟨ss, _, st', hparse, hout, rfl, hcall, site, call, r, hsite, hr, hreplaces⟩

end Store
end Monkey
