import Monkey.Proofs.Correlation
import Monkey.Proofs.Effects

/-!
# Macro expansion in two surroundings

Expanding a program is made of the steps that evaluation is made of, so it goes alike
in two runs if these do: the same macro calls are replaced by the same trees, and the
program comes to the same program, or to the same fault. So do the definitions of
macros, and all that is done with a parsed text.

Expansion goes through the statements of a program one after the other, so the
expansion of a program in two parts is that of the one and then that of the other.

## Main definitions

* `Pairing.expansions` — the pairing of expansions, which fail with the same fault.

## Main results

* `Correspondence.expandMacros`, `Correspondence.runProgram` — expanding and running
  programs goes alike.
* `expandMacros_append` — the expansion of statements behind others.
-/

namespace Monkey

open Monkey.Computation

/-! ## Expansion goes alike -/

/-- The pairing of expansions: both fail with the same fault. -/
abbrev Pairing.expansions (P : Pairing Computation) : Pairing Expansion :=
  P.except (fun _ fault fault' => fault = fault') fun _ _ _ _ _ h => h

/-- The parameters, body and scope of a macro. -/
def Value.macro? : Option Value → Option (List String × Node × Scope)
  | some (.macroFn _ params body sc) => some (params, body, sc)
  | _ => none

/-- A macro is found by finding what its name means. -/
theorem findMacro_eq (name : String) (sc : Scope) :
    findMacro name sc = reading (·.lookup name sc) >>= fun r => pure (Value.macro? r) := rfl

namespace Correspondence
variable {P : Pairing Computation} (C : Correspondence P) {M : Matching} {sc sc' : Scope}

/-- Trees are quoted alike if they are to be quoted. -/
theorem quoteAll (C : Correspondence P) : ∀ (ns : List Node) {M : Matching}, (∀ n, M.quoted n) →
    P.holds M (Monkey.quoteAll ns) (Monkey.quoteAll ns) fun M' qs qs' =>
      Pointwise M'.Alike qs qs' ∧ qs.length = ns.length
  | [], _, _ => P.pure fun _ _ => ⟨.nil, rfl⟩
  | n :: ns, M, h => by
    have hquote : P.holds M (newQuote n) (newQuote n) Matching.Alike :=
      C.new ⟨fun _ => rfl, fun _ => rfl, fun _ _ => ⟨.quote (h n), .nil⟩, by simp⟩
    refine P.bind hquote fun M' q q' hle hq => ?_
    have hrest := quoteAll C ns fun n => (hle.quoted n).1 (h n)
    refine P.bind hrest fun M'' qs qs' hle' hqs => P.pure fun M₃ hle'' => ⟨.cons ?_ ?_, ?_⟩
    · exact (hq.mono hle').mono hle''
    · exact hqs.1.mono fun _ _ hv => hv.mono hle''
    · rw [List.length_cons, List.length_cons, hqs.2]

include C

/-- The macros that a name means have the same parameters and body, in scopes that correspond. -/
theorem findMacro {name : String} (h : M.admits sc sc' (.ident name)) :
    P.holds M (Monkey.findMacro name sc) (Monkey.findMacro name sc') fun M' =>
      Option.Rel fun m m' => m.1 = m'.1 ∧ m.2.1 = m'.2.1 ∧ M'.closes m.2.2 m'.2.2 m.1 m.2.1 := by
  rw [findMacro_eq, findMacro_eq]
  refine P.bind (C.found M sc sc' name h) fun M' r r' _ hr => P.pure fun M'' hle => ?_
  cases hr with
  | none => exact .none
  | some hv =>
    cases (hv.mono hle).heads with
    | macroFn hcloses => exact .some ⟨rfl, rfl, hcloses⟩
    | _ => exact .none

variable (notes : ∀ M n, P.holds M (modify (Store.note n)) (modify (Store.note n)) fun _ _ _ => True)
  (quotes : ∀ n, M.quoted n)
  (bodies : ∀ M' inner inner' body, M'.admits inner inner' body →
    P.holds M' (eval body inner) (eval body inner') Matching.Alike)
include notes quotes bodies

/-- A macro call is replaced by the same tree. -/
theorem expandCall (name : String) (args : List Node) {params : List String} {body : Node}
    (h : M.closes sc sc' params body) :
    P.expansions.holds M (Monkey.expandCall name args params body sc)
      (Monkey.expandCall name args params body sc') fun _ n n' => n = n' := by
  unfold Monkey.expandCall
  split
  · exact P.throw rfl
  next hlength =>
  have hquotes := C.quoteAll args quotes
  refine P.expansions.bind (P.lift ?_ hquotes) fun M₁ qs qs' hle₁ hqs => ?_
  · exact fun _ _ _ _ hle h => ⟨h.1.mono fun _ _ hv => hv.mono hle, h.2⟩
  have hentered := C.entered M₁ sc sc' params body qs qs' (hle₁.closes _ _ _ _ h) hqs.1
    (by rw [hqs.2]; exact Classical.not_not.1 hlength)
  refine P.expansions.bind (P.lift ?_ hentered) fun M₂ inner inner' _ hinner => ?_
  · exact fun _ _ inner inner' hle h => hle.admits inner inner' body h
  have hbody := bodies M₂ inner inner' body hinner
  refine P.expansions.bind (P.lift (fun _ _ _ _ hle h => h.mono hle) hbody) fun M₃ v v' _ hv => ?_
  have hunwrapped := hv.unwrapped
  generalize v.unwrapped = v at hunwrapped ⊢
  generalize v'.unwrapped = v' at hunwrapped ⊢
  cases hunwrapped.heads with
  | error => exact P.throw rfl
  | @quote i j n =>
    refine P.expansions.bind (P.lift (fun _ _ _ _ _ => id) (notes M₃ _)) fun _ _ _ _ _ => ?_
    exact P.expansions.pure fun _ _ => rfl
  | _ => exact P.throw rfl

/-- Every tree is answered by the same tree. -/
theorem expandStep (hmacros : ∀ n, M.admits sc sc' n) (n : Node) :
    P.expansions.holds M (Monkey.expandStep sc n) (Monkey.expandStep sc' n)
      fun _ a b => a = b ∧ True := by
  unfold Monkey.expandStep
  split
  · next name args =>
    have hfound := C.findMacro (hmacros (.ident name))
    refine P.expansions.bind (P.lift ?_ hfound) fun M' m m' hle hm => ?_
    · exact fun _ _ _ _ hle h => rel_mono h fun _ _ h =>
        ⟨h.1, h.2.1, hle.closes _ _ _ _ h.2.2⟩
    cases hm with
    | none => exact P.expansions.pure fun _ _ => ⟨rfl, trivial⟩
    | @some m m' hm =>
      obtain ⟨params, body, inner⟩ := m
      obtain ⟨params', body', inner'⟩ := m'
      obtain ⟨rfl, rfl, hcloses⟩ := hm
      have hcall := C.expandCall notes (fun n => (hle.quoted n).1 (quotes n)) bodies name args
        hcloses
      exact P.expansions.mono hcall fun _ _ _ _ h => ⟨h, trivial⟩
  · exact P.expansions.pure fun _ _ => ⟨rfl, trivial⟩

/-- Programs are expanded to the same program, or fail to be for the same fault. -/
theorem expandMacros (hmacros : ∀ n, M.admits sc sc' n) (program : Node) :
    P.expansions.holds M (Monkey.expandMacros sc program) (Monkey.expandMacros sc' program)
      fun _ n n' => n = n' := by
  have hasks : (program.rebuildM Dialogue.question).run.Asks (fun _ => True) (fun _ _ => True)
      fun _ => True := Dialogue.asks_of_forall (fun _ => trivial) (fun _ => trivial) _
  have hstep : ∀ M' n, M ≤ M' → True →
      P.expansions.holds M' (Monkey.expandStep sc n) (Monkey.expandStep sc' n)
        fun _ a b => a = b ∧ True := by
    intro M' n hle _
    exact C.expandStep notes (fun n => (hle.quoted n).1 (quotes n)) bodies
      (fun n => hle.admits _ _ _ (hmacros n)) n
  unfold Monkey.expandMacros
  rw [← Dialogue.lead_rebuildM_question (Monkey.expandStep sc),
    ← Dialogue.lead_rebuildM_question (Monkey.expandStep sc')]
  refine P.expansions.bind (P.expansions.lead hstep hasks) fun M' r r' _ hr => ?_
  obtain ⟨rfl, -⟩ := hr
  cases r with
  | ok n => exact P.expansions.pure fun _ _ => rfl
  | error e => exact P.lift (fun _ _ _ _ _ => id) (C.fails M' _ _)

omit quotes bodies in
/-- Macros are defined alike, and the same statements are left. -/
theorem defineMacros : ∀ (ss : List Node) {M : Matching}, (∀ n, M.admits sc sc' n) →
    P.holds M (Monkey.defineMacros sc ss) (Monkey.defineMacros sc' ss) fun _ kept kept' =>
      kept = kept'
  | [], _, _ => P.pure fun _ _ => rfl
  | s :: ss, M, hmacros => by
    have ih : ∀ M', M ≤ M' → P.holds M' (Monkey.defineMacros sc ss) (Monkey.defineMacros sc' ss)
        fun _ kept kept' => kept = kept' :=
      fun M' hle => defineMacros ss fun n => hle.admits _ _ _ (hmacros n)
    cases hs : s.isMacroDefinition with
    | true =>
      obtain ⟨name, params, body, rfl⟩ := Node.isMacroDefinition_iff.1 hs
      have hcloses : M.closes sc sc' params (.block body) :=
        M.functions sc sc' params body (.inr (hmacros _))
      have hmakes : M.Makes (.macroFn · params (.block body) sc)
          (.macroFn · params (.block body) sc') :=
        ⟨fun _ => rfl, fun _ => rfl, fun _ _ => ⟨.macroFn hcloses, .nil⟩, by simp⟩
      -- making the value of the macro is a step of its own for the two runs
      have hsplit : ∀ sc, Monkey.defineMacros sc (.letStmt name (.macroLit params body) :: ss) =
          ((fresh >>= fun i => pure (.macroFn i params (.block body) sc)) >>= fun v => do
            modify (Store.define sc name v)
            modify (Store.note (.defined name params))
            Monkey.defineMacros sc ss) := fun _ => rfl
      rw [hsplit, hsplit]
      refine P.bind (C.new hmakes) fun M₁ v v' hle₁ hv => ?_
      have hdefined := C.defined M₁ sc sc' name (.macroLit params body) v v'
        (hle₁.admits _ _ _ (hmacros _)) hv
      refine P.bind hdefined fun M₂ _ _ hle₂ _ => P.bind (notes M₂ _) fun M₃ _ _ hle₃ _ => ?_
      exact ih M₃ (Matching.le_trans hle₁ (Matching.le_trans hle₂ hle₃))
    | false =>
      rw [defineMacros_cons hs, defineMacros_cons hs]
      refine P.bind (ih M M.le_refl) fun _ kept kept' _ h => P.pure fun _ _ => ?_
      rw [h]

/-- Running a program goes alike: it is expanded to the same, and comes to values that look
alike. -/
theorem runProgram {values values' : Scope} (hvalues : ∀ n, M.admits values values' n)
    (hmacros : ∀ n, M.admits sc sc' n) (program : Node) :
    P.holds M (Monkey.runProgram values sc program) (Monkey.runProgram values' sc' program)
      fun M' r r' => r.value.Like M' r'.value ∧ r.expanded = r'.expanded := by
  refine P.bind (notes M _) fun M₁ _ _ hle₁ _ => ?_
  refine P.bind (C.defineMacros notes program.statements fun n => hle₁.admits _ _ _ (hmacros n)) ?_
  intro M₂ kept kept' hle₂ hkept
  subst hkept
  have hle := Matching.le_trans hle₁ hle₂
  refine P.bind (C.expandMacros notes (fun n => (hle.quoted n).1 (quotes n)) bodies
    (fun n => hle.admits _ _ _ (hmacros n)) (.program kept)) fun M₃ r r' hle₃ hr => ?_
  cases hr with
  | ok hn =>
    subst hn
    refine P.bind (bodies M₃ values values' _ ?_) fun M₄ v v' _ hv => P.pure fun _ hle => ?_
    · exact hle₃.admits _ _ _ (hle.admits _ _ _ (hvalues _))
    · exact ⟨hv.mono hle, rfl⟩
  | error hfault =>
    subst hfault
    refine P.bind (notes M₃ _) fun M₄ _ _ _ _ => ?_
    refine P.bind (C.refuse _) fun M₅ v v' _ hv => P.pure fun _ hle => ?_
    exact ⟨hv.mono hle, rfl⟩

end Correspondence

/-! ## Expansion of statements behind others -/

/-- Statements behind others are rebuilt after these. -/
theorem Node.rebuildStatements_append {m : Type → Type} [Monad m] [LawfulMonad m]
    (f : Node → m Node) (ss ts : List Node) :
    rebuildStatements f (ss ++ ts) = (do
      let ss' ← rebuildStatements f ss
      let ts' ← rebuildStatements f ts
      return ss' ++ ts') := by
  induction ss with
  | nil => simp [rebuildStatements]
  | cons s ss ih =>
    rw [List.cons_append, rebuildStatements, rebuildStatements, ih]
    simp only [bind_assoc, pure_bind, List.cons_append]

/-- The statements of a program are expanded, and make up a program again. -/
theorem expandMacros_program (sc : Scope) (ss : List Node) :
    expandMacros sc (.program ss) = (do
      match ← (Node.rebuildStatements (expandStep sc) ss).run with
      | .ok ss' => return .program ss'
      | .error e => fail (.illSorted e)) := by
  unfold expandMacros
  rw [Node.rebuildM, ExceptT.run_bind, bind_assoc]
  refine bind_congr fun r => ?_
  cases r with
  | ok ss' => rfl
  | error e => rfl

/-- A program in two parts is expanded by expanding the one and then the other. -/
theorem expandMacros_append (sc : Scope) (ss ts : List Node) :
    expandMacros sc (.program (ss ++ ts)) = (do
      let n ← expandMacros sc (.program ss)
      let n' ← expandMacros sc (.program ts)
      return .program (n.statements ++ n'.statements)) := by
  rw [expandMacros_program, expandMacros_program, expandMacros_program,
    Node.rebuildStatements_append, ExceptT.run_bind, bind_assoc, bind_assoc]
  refine bind_congr fun r => ?_
  cases r with
  | error e => rfl
  | ok ss' =>
    dsimp only
    rw [pure_bind, ExceptT.run_bind, bind_assoc, bind_assoc]
    refine bind_congr fun r => ?_
    cases r with
    | error e => rfl
    | ok ts' => rfl

end Monkey
