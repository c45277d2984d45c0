import Monkey.Node.Equality
import Monkey.Proofs.PairedExpansion
import Monkey.Proofs.Renaming

/-!
# Sessions compose

Two programs that are submitted one after the other do what one program does that has
the statements of the first and then those of the second, if the first runs through
and the second defines no macros. The two ways interleave differently: the one
evaluates the first program before it expands the second, and the other expands both
before it evaluates anything. So scopes and identities are handed out in another
order, and the stores are the same only up to renaming.

Expanding the second program looks at the scope of macros only, and evaluating the
first does not change that. Evaluating looks at no scope that expanding has made, and
expanding changes none that is there. So each step of the one way has a step of the
other that goes alike.

## Main definitions

* `Store.passes` — statements after which a program goes on.
* `Value.ShowsLike` — values that cannot be told apart by what is shown.
* `Session.ExpandsTo` — what is left of a text when its macro calls are replaced.

## Main results

* `Session.renamed_after` — a session that is reached is the same as itself, whatever
  else happens to it.
* `Session.composes_after` — submitting two programs, and submitting them as one.
-/

namespace Monkey

open Monkey.Computation

/-! ## Statements in two parts -/

/-- Whether each of the statements comes to a value with which a program goes on. -/
def Store.passes (depth : Nat) (sc : Scope) : List Node → Store → Bool
  | [], _ => true
  | s :: ss, st =>
    match evalWithin evalRule depth s sc st with
    | ⟨.ok v, st'⟩ => !v.stopsBlock && st'.passes depth sc ss
    | _ => false

/-- Statements that pass come to a value with which a program goes on. -/
theorem Store.outcome_of_passes {depth : Nat} {sc : Scope} {ss : List Node} {st : Store}
    (h : st.passes depth sc ss = true) {otherwise : Value} (ho : otherwise.stopsBlock = false) :
    ∃ v st', (evalStatements sc otherwise ss).outcome evalRule depth st = ⟨.ok v, st'⟩ ∧
      v.stopsBlock = false := by
  induction ss generalizing st otherwise with
  | nil => exact ⟨otherwise, st, rfl, ho⟩
  | cons s ss ih =>
    rw [evalStatements, outcome_bind, outcome_eval]
    rw [passes] at h
    generalize evalWithin evalRule depth s sc st = o at h
    obtain ⟨result, st'⟩ := o
    cases result with
    | error e => cases h
    | ok v =>
      obtain ⟨hv, hrest⟩ := Bool.and_eq_true_iff.1 h
      have hgoes : v.stopsBlock = false := by simpa using hv
      dsimp only
      rw [if_neg (by simp [hgoes])]
      exact ih hrest hgoes

/-- A program comes to what its statements come to, with one `return` taken off. -/
theorem Node.evaluate_program (depth : Nat) (ss : List Node) (sc : Scope) (st : Store) :
    (Node.program ss).evaluate (depth + 1) sc st =
      match (evalStatements sc .null ss).outcome evalRule depth st with
      | ⟨.ok v, st'⟩ => ⟨.ok v.unwrapped, st'⟩
      | ⟨.error e, st'⟩ => ⟨.error e, st'⟩ := by
  rw [evaluate, run_eq, outcome_eval_succ]
  refine (outcome_bind evalRule depth st (evalStatements sc .null ss) _).trans ?_
  generalize (evalStatements sc .null ss).outcome evalRule depth st = o
  obtain ⟨result, st'⟩ := o
  cases result <;> rfl

/-! ## Identities are handed out once -/

/-- At least the identities below `i` have been handed out. -/
def Regime.handedOut (i : Identity) : Regime := ⟨fun _ => True, fun st => i ≤ st.nextIdentity⟩

theorem Regime.stable_handedOut (i : Identity) :
    (handedOut i).Stable (fun _ => True) (fun _ => True) fun _ => True where
  toQuotable := stable_free.toQuotable
  data _ _ := trivial
  functions _ _ _ _ := trivial
  macros _ _ _ _ := trivial
  markers _ _ _ _ _ _ _ _ := trivial
  frames _ _ _ hle h := Nat.le_trans h hle
  lookup _ _ _ v _ _ := Value.every_of_forall (fun _ => trivial) v
  addFrame _ _ h _ := ⟨h, trivial⟩
  define _ _ _ _ h _ _ := h

/-- Replacing macro calls hands out no identity a second time. -/
theorem Store.nextIdentity_expandMacros (macros : Scope) (ss : List Node) (depth : Nat)
    (st : Store) : st.nextIdentity ≤
      ((expandMacros macros (.program ss)).run.outcome evalRule depth st).store.nextIdentity := by
  have hexpand : ((Regime.handedOut st.nextIdentity).judgement depth).holds
      (expandMacros macros (.program ss)).run _ :=
    (Regime.stable_handedOut _).expandMacros_program macros ss
  exact (hexpand st (Nat.le_refl _) fun _ _ => trivial).2.1

/-- Neither does evaluation. -/
theorem Store.nextIdentity_evaluate (n : Node) (depth : Nat) (sc : Scope) (st : Store) :
    st.nextIdentity ≤ (n.evaluate depth sc st).store.nextIdentity :=
  Regime.invariant_evaluate (fun _ => trivial)
    ((Regime.stable_handedOut st.nextIdentity).eval depth n sc trivial) (Nat.le_refl _)

/-! ## Definitions in two parts -/

section Undefining
variable {ts : List Node} (h : ∀ t ∈ ts, t.isMacroDefinition = false)
include h

theorem Node.undefining_eq_self : undefining ts = ts :=
  List.filter_eq_self.2 fun t ht => by simp [h t ht]

theorem Node.undefining_append (ss : List Node) :
    undefining (ss ++ ts) = undefining ss ++ ts := by
  rw [undefining, List.filter_append]
  exact congrArg _ (undefining_eq_self h)

/-- Statements that define no macros bind none. -/
theorem Store.defineAll_eq_self (sc : Scope) (st : Store) : st.defineAll sc ts = st := by
  induction ts with
  | nil => rfl
  | cons t ts ih =>
    rw [defineAll_cons (h t List.mem_cons_self)]
    exact ih fun t ht => h t (List.mem_cons_of_mem _ ht)

theorem Store.defineAll_append (sc : Scope) (ss : List Node) (st : Store) :
    st.defineAll sc (ss ++ ts) = st.defineAll sc ss := by
  induction ss generalizing st with
  | nil => exact defineAll_eq_self h sc st
  | cons s ss ih =>
    cases hs : s.isMacroDefinition with
    | true =>
      obtain ⟨name, params, body, rfl⟩ := Node.isMacroDefinition_iff.1 hs
      exact ih _
    | false => rw [List.cons_append, defineAll_cons hs, defineAll_cons hs, ih]

end Undefining

/-- A program is expanded by taking its definitions out, which always succeeds, and replacing the
macro calls in the rest. -/
theorem Computation.outcome_expandProgram (macros : Scope) (ss : List Node) (depth : Nat)
    (st : Store) :
    (expandProgram macros (.program ss)).outcome evalRule depth st =
      (expandMacros macros (.program (Node.undefining ss))).run.outcome evalRule depth
        ((st.note (.parsed ss.length)).defineAll macros ss) := by
  rw [expandProgram, outcome_bind, outcome_modify]
  dsimp only
  rw [outcome_bind, outcome_defineMacros]
  rfl

/-- Of a program without definitions the macro calls are replaced. -/
theorem Computation.outcome_expandProgram_of_undefining (macros : Scope) {ts : List Node}
    (h : ∀ t ∈ ts, t.isMacroDefinition = false) (depth : Nat) (st : Store) :
    (expandProgram macros (.program ts)).outcome evalRule depth st =
      (expandMacros macros (.program ts)).run.outcome evalRule depth
        (st.note (.parsed ts.length)) := by
  rw [outcome_expandProgram, Node.undefining_eq_self h, Store.defineAll_eq_self h]

/-- A program is expanded to as many statements. -/
theorem Computation.length_of_expandMacros {macros : Scope} {ss es : List Node} {depth : Nat}
    {st st' : Store} (h : (expandMacros macros (.program ss)).run.outcome evalRule depth st =
      ⟨.ok (.ok (.program es)), st'⟩) : es.length = ss.length := by
  have hexpand : (Regime.free.judgement depth).holds (expandMacros macros (.program ss)).run _ :=
    Regime.stable_free.expandMacros_program macros ss
  obtain ⟨es', hsame, hlength⟩ :=
    (hexpand st trivial fun _ _ => trivial).2.2 (.ok (.program es)) (by rw [h])
  cases hsame
  exact hlength

/-- A program in two parts is expanded by expanding the one and then the other. -/
theorem Computation.outcome_expandMacros_append {macros : Scope} {ss ts es : List Node}
    {depth : Nat} {st st' : Store}
    (h : (expandMacros macros (.program ss)).run.outcome evalRule depth st =
      ⟨.ok (.ok (.program es)), st'⟩) {es' : List Node} {st'' : Store}
    (h' : (expandMacros macros (.program ts)).run.outcome evalRule depth st' =
      ⟨.ok (.ok (.program es')), st''⟩) :
    (expandMacros macros (.program (ss ++ ts))).run.outcome evalRule depth st =
      ⟨.ok (.ok (.program (es ++ es'))), st''⟩ := by
  rw [expandMacros_append, ExceptT.run_bind, outcome_bind, h]
  dsimp only
  rw [ExceptT.run_bind, outcome_bind, h']
  rfl

/-! ## The two ways -/

namespace Store
variable {before before' : String} {ρ : Renaming} {values macros : Scope} {st st' : Store}

/-- What the runs do to frames that do not correspond makes no difference. -/
theorem Renamed.of_frames (h : Renamed before before' ρ st st') {st₁ st₁' : Store}
    (hframes : ∀ sc f, st.frame? sc = some f → (∃ sc', ρ.scopes sc sc') → st₁.frame? sc = some f)
    (hframes' : ∀ sc f, st'.frame? sc = some f → st₁'.frame? sc = some f)
    (hnext : st.nextIdentity ≤ st₁.nextIdentity) (hnext' : st'.nextIdentity ≤ st₁'.nextIdentity) :
    Renamed st₁.output st₁'.output ρ st₁ st₁' := by
  refine ⟨h.relates.of_frames hframes (fun sc f hf _ => hframes' sc f hf) fun i i' hi => ?_, "", ?_⟩
  · obtain ⟨hlt, hlt'⟩ := h.relates.handedOut i i' hi
    exact ⟨Nat.lt_of_lt_of_le hlt hnext, Nat.lt_of_lt_of_le hlt' hnext'⟩
  · simp

/-- Nothing leads out of a scope that holds its own macros only, so that scope may be all that
corresponds. -/
theorem Renamed.only (h : Renamed before before' ρ st st') {f : Frame}
    (hf : st.frame? macros = some f) (hroot : f.parent = none) (hholds : f.HoldsMacros macros) :
    Renamed before before' (ρ.only (· = macros)) st st' := by
  refine ⟨⟨fun sc sc' hsc => h.relates.made sc sc' hsc.1, h.relates.handedOut, ?_⟩, h.output⟩
  rintro sc sc' ⟨hsc, rfl⟩
  have halike := h.relates.frames sc sc' hsc
  rw [hf] at halike ⊢
  generalize st'.frame? sc' = o at halike
  cases halike with
  | @some _ f' halike =>
    have hparent := halike.parent
    rw [hroot] at hparent
    refine .some ⟨halike.bindings.mono_of_mem fun b hb b' hbb => ⟨hbb.1, ?_⟩, ?_⟩
    · obtain ⟨i, params, body, hmacro⟩ := hholds b hb
      obtain ⟨name, v⟩ := b
      obtain ⟨name', v'⟩ := b'
      subst hmacro
      have hlike := hbb.2
      cases hlike.heads with
      | macroFn hcloses =>
        exact Value.like_iff.2 ⟨⟨.macroFn ⟨hcloses, rfl⟩, .nil⟩, hlike.marks⟩
    · rw [hroot]
      generalize f'.parent = p at hparent ⊢
      cases hparent
      exact .none

variable (hmacros : ρ.scopes macros macros) {ss ts es : List Node} {depth : Nat}
include hmacros

/-- A program is expanded alike with other statements behind its own, which are then expanded in
a store that is the same up to renaming. -/
theorem Renamed.expandProgram (h : Renamed "" "" ρ st st)
    (hts : ∀ t ∈ ts, t.isMacroDefinition = false) {st₁ : Store}
    (hexpand : (Monkey.expandProgram macros (.program ss)).outcome evalRule depth st =
      ⟨.ok (.ok (.program es)), st₁⟩) :
    ∃ σ st₁', ρ ≤ σ ∧ Renamed "" "" σ st₁ st₁' ∧ ∀ es' st₂',
      (expandMacros macros (.program ts)).run.outcome evalRule depth st₁' =
        ⟨.ok (.ok (.program es')), st₂'⟩ →
      (Monkey.expandProgram macros (.program (ss ++ ts))).outcome evalRule depth st =
        ⟨.ok (.ok (.program (es ++ es'))), st₂'⟩ := by
  have L := laws_renamed "" ""
  have C := L.correspondence depth
  have notes := renamed_notes "" "" depth
  rw [outcome_expandProgram] at hexpand
  -- the macros that are defined are the same
  have hdefine := C.defineMacros (M := .renamed ρ) notes ss fun _ => hmacros
  obtain ⟨σ, hle, hσ, -⟩ :=
    (h.note (.parsed ss.length) (.parsed (ss ++ ts).length)).run hdefine
  rw [outcome_defineMacros, outcome_defineMacros] at hσ
  have hexpanded := C.expandMacros (M := .renamed σ) notes (fun _ => trivial)
    (fun _ _ _ _ => L.eval depth) (fun _ => hle.scopes _ _ hmacros) (.program (Node.undefining ss))
  obtain ⟨τ, hle', hτ, hresult⟩ := hσ.run hexpanded
  dsimp only at hτ hresult
  rw [hexpand] at hτ hresult
  refine ⟨τ, _, ⟨fun sc sc' => hle'.scopes sc sc' ∘ hle.scopes sc sc',
    fun i i' => hle'.identities i i' ∘ hle.identities i i'⟩, hτ, fun es' st₂' h' => ?_⟩
  rw [outcome_expandProgram, Node.undefining_append hts, defineAll_append hts]
  generalize ho : (expandMacros macros (.program (Node.undefining ss))).run.outcome evalRule depth _
    = o at hresult h'
  obtain ⟨result, st₁'⟩ := o
  cases hresult with
  | ok hsame =>
    cases hsame with
    | ok hsame =>
      subst hsame
      exact outcome_expandMacros_append ho h'

/-- A program that follows is expanded to the same if what was done in between is not done: that
has left the scope of macros as it was, in which there is nothing else than its macros. -/
theorem Renamed.expandMacros (h : Renamed "" "" ρ st st')
    (hts : ∀ t ∈ ts, t.isMacroDefinition = false) {st₁ st₂ : Store}
    (hnext : st.nextIdentity ≤ st₁.nextIdentity) {f : Frame} (hf : st.frame? macros = some f) (hf₁ : st₁.frame? macros = some f)
    (hroot : f.parent = none) (hholds : f.HoldsMacros macros)
    (hexpand : (Monkey.expandProgram macros (.program ts)).outcome evalRule depth st₁.quiet =
      ⟨.ok (.ok (.program es)), st₂⟩) :
    ∃ st₂', (Monkey.expandMacros macros (.program ts)).run.outcome evalRule depth st' =
        ⟨.ok (.ok (.program es)), st₂'⟩ ∧ st₂'.output = st'.output ++ st₂.output := by
  have hnext' : st.nextIdentity ≤ (st₁.quiet.note (.parsed ts.length)).nextIdentity := hnext
  have hstart : Renamed "" st'.output (ρ.only (· = macros))
      (st₁.quiet.note (.parsed ts.length)) st' := by
    refine (h.only hf hroot hholds).of_frames ?_ (fun _ _ => id) hnext' (Nat.le_refl _)
    rintro sc g hg ⟨sc', -, rfl⟩
    obtain rfl := Option.some.inj (hf.symm.trans hg)
    exact hf₁
  rw [outcome_expandProgram_of_undefining macros hts] at hexpand
  have L := laws_renamed "" st'.output
  have hexpanded := (L.correspondence depth).expandMacros (M := .renamed (ρ.only (· = macros)))
    (renamed_notes _ _ depth) (fun _ => trivial) (fun _ _ _ _ => L.eval depth)
    (fun _ => ⟨hmacros, rfl⟩) (.program ts)
  obtain ⟨σ, -, hσ, hresult⟩ := hstart.run hexpanded
  rw [hexpand] at hσ hresult
  generalize (Monkey.expandMacros macros (.program ts)).run.outcome evalRule depth st' = o
    at hσ hresult
  obtain ⟨result, st₂'⟩ := o
  obtain ⟨printed, hprinted, hprinted'⟩ := hσ.output
  cases hresult with
  | ok hsame =>
    cases hsame with
    | ok hsame =>
      subst hsame
      refine ⟨st₂', rfl, ?_⟩
      dsimp only at hprinted hprinted'
      rw [hprinted', hprinted, String.empty_append]

omit hmacros

/-- Statements are evaluated alike in stores that are the same up to renaming. -/
theorem Renamed.evalStatements (h : Renamed before before' ρ st st') (hvalues : ρ.scopes values values)
    (ss : List Node) (depth : Nat) {v v' : Value} (hv : v.Like (.renamed ρ) v') :
    ∃ σ, ρ ≤ σ ∧ Renamed before before' σ
        ((Monkey.evalStatements values v ss).outcome evalRule depth st).store
        ((Monkey.evalStatements values v' ss).outcome evalRule depth st').store ∧
      Both Eq (Matching.renamed σ).Alike
        ((Monkey.evalStatements values v ss).outcome evalRule depth st).result
        ((Monkey.evalStatements values v' ss).outcome evalRule depth st').result :=
  h.run (Pairing.evalStatements hv fun _ _ => (laws_renamed before before').eval depth hvalues)

/-- What two programs do one after the other, and what they do as one. After the macro calls of the
second have been replaced, in the one way or the other, it is evaluated in stores that are the
same up to renaming. -/
theorem Renamed.compose (h : Renamed "" "" ρ st st) (hvalues : ρ.scopes values values)
    (hmacros : ρ.scopes macros macros) (hne : macros ≠ values) (hts : ts ≠ [])
    (hdefines : ∀ t ∈ ts, t.isMacroDefinition = false) {st₁ st₂ st₃ : Store} {es' : List Node}
    (hexpand : (Monkey.expandProgram macros (.program ss)).outcome evalRule (depth + 1) st =
      ⟨.ok (.ok (.program es)), st₁⟩)
    (hpasses : st₁.passes depth values es = true)
    (hst₂ : ((Node.program es).evaluate (depth + 1) values st₁).store = st₂)
    (hholds : ∀ f, st₂.frame? macros = some f → f.parent = none ∧ f.HoldsMacros macros)
    (hexpand' : (Monkey.expandProgram macros (.program ts)).outcome evalRule (depth + 1) st₂.quiet =
      ⟨.ok (.ok (.program es')), st₃⟩) :
    ∃ st₃' before' σ,
      (Monkey.expandProgram macros (.program (ss ++ ts))).outcome evalRule (depth + 1) st =
        ⟨.ok (.ok (.program (es ++ es'))), st₃'⟩ ∧ ρ ≤ σ ∧
      (st₃.output = "" → before' = st₂.output) ∧
      Renamed st₃.output before' σ ((Node.program es').evaluate (depth + 1) values st₃).store
        ((Node.program (es ++ es')).evaluate (depth + 1) values st₃').store ∧
      Both Eq (Matching.renamed σ).Alike
        ((Node.program es').evaluate (depth + 1) values st₃).result
        ((Node.program (es ++ es')).evaluate (depth + 1) values st₃').result := by
  obtain ⟨σ₁, st₁', hle₁, h₁, hjoint⟩ := h.expandProgram hmacros hdefines hexpand
  -- evaluating the first program leaves the scope of macros alone
  obtain ⟨hmade, -⟩ := h₁.relates.made macros macros (hle₁.scopes _ _ hmacros)
  have hf := Array.getElem?_eq_getElem hmade
  have hf₂ : st₂.frame? macros = some st₁.frames[macros.index] :=
    hst₂ ▸ frame?_evaluate_of_ne hf hne _ _
  have hnext₂ : st₁.nextIdentity ≤ st₂.nextIdentity := hst₂ ▸ nextIdentity_evaluate _ _ _ _
  obtain ⟨hroot, hmacrosOnly⟩ := hholds _ hf₂
  obtain ⟨st₂', hexpanded, hout₂'⟩ := h₁.expandMacros (hle₁.scopes _ _ hmacros) hdefines hnext₂ hf hf₂
    hroot hmacrosOnly hexpand'
  -- so the first program may as well be evaluated after the second has been expanded
  have hkept₂ : ∀ sc f, st₁'.frame? sc = some f → st₂'.frame? sc = some f := fun sc f hf => by
    have hkept := frame?_expandMacros hf macros ts (depth + 1)
    rwa [hexpanded] at hkept
  have hnext₂' : st₁'.nextIdentity ≤ st₂'.nextIdentity := by
    have hnext := nextIdentity_expandMacros macros ts (depth + 1) st₁'
    rwa [hexpanded] at hnext
  have h₂ : Renamed st₁.output st₂'.output σ₁ st₁ st₂' :=
    h₁.of_frames (fun _ _ hf _ => hf) hkept₂ (Nat.le_refl _) hnext₂'
  have hnull : Value.null.stopsBlock = false := rfl
  obtain ⟨v, st₂₀, hevaluated, hgoes⟩ := outcome_of_passes hpasses hnull
  obtain rfl : st₂₀ = st₂ := by
    rw [← hst₂, Node.evaluate_program, hevaluated]
  have hnulls : ∀ ρ : Renaming, Value.null.Like (.renamed ρ) .null := fun _ => .of_isAtom rfl
  have hvalues₁ := hle₁.scopes _ _ hvalues
  obtain ⟨σ₂, hle₂, h₃, hresult⟩ := h₂.evalStatements hvalues₁ es depth (hnulls σ₁)
  rw [hevaluated] at h₃ hresult
  generalize hevaluated' : (Monkey.evalStatements values .null es).outcome evalRule depth st₂' = o
    at h₃ hresult
  obtain ⟨result, st₃''⟩ := o
  cases hresult with
  | @ok _ w hw =>
  have hgoes' : w.stopsBlock = false := hw.stopsBlock_eq ▸ hgoes
  -- neither does the second program see that its macro calls have been replaced
  rw [outcome_expandProgram_of_undefining macros hdefines] at hexpand'
  have hkept₃ : ∀ sc f, st₂₀.frame? sc = some f → st₃.frame? sc = some f := fun sc f hf => by
    have hquiet : (st₂₀.quiet.note (.parsed ts.length)).frame? sc = some f := hf
    have hkept := frame?_expandMacros hquiet macros ts (depth + 1)
    rwa [hexpand'] at hkept
  have hnext₃ : st₂₀.nextIdentity ≤ st₃.nextIdentity := by
    have hnext := nextIdentity_expandMacros macros ts (depth + 1)
      (st₂₀.quiet.note (.parsed ts.length))
    rwa [hexpand'] at hnext
  have h₄ : Renamed st₃.output st₃''.output σ₂ st₃ st₃'' :=
    h₃.of_frames (fun sc f hf _ => hkept₃ sc f hf) (fun _ _ hf => hf) hnext₃ (Nat.le_refl _)
  obtain ⟨σ₃, hle₃, h₅, hresult'⟩ :=
    h₄.evalStatements (hle₂.scopes _ _ hvalues₁) es' depth (hnulls σ₂)
  have hjoined : (Monkey.evalStatements values .null (es ++ es')).outcome evalRule depth st₂' =
      (Monkey.evalStatements values .null es').outcome evalRule depth st₃'' := by
    rw [evalStatements_append values es es' hnull, outcome_bind, hevaluated']
    dsimp only
    rw [if_neg (by simp [hgoes'])]
    -- what the first program came to does not matter, as there are statements to come
    cases es' with
    | nil => exact absurd (List.eq_nil_of_length_eq_zero (length_of_expandMacros hexpand').symm) hts
    | cons => rfl
  refine ⟨st₂', st₃''.output, σ₃, hjoint es' st₂' hexpanded, ?_, fun hsilent => ?_, ?_⟩
  · exact ⟨fun sc sc' hsc => hle₃.scopes _ _ (hle₂.scopes _ _ (hle₁.scopes _ _ hsc)),
      fun i i' hi => hle₃.identities _ _ (hle₂.identities _ _ (hle₁.identities _ _ hi))⟩
  · obtain ⟨printed, hout₁, hout₁'⟩ := h₁.output
    obtain ⟨printed', hout₃, hout₃'⟩ := h₃.output
    dsimp only at hout₃ hout₃'
    rw [hout₃', hout₃, hout₂', hsilent, String.append_empty, hout₁, hout₁']
  · rw [Node.evaluate_program, Node.evaluate_program, hjoined]
    generalize (Monkey.evalStatements values .null es').outcome evalRule depth st₃ = o at h₅ hresult'
    generalize (Monkey.evalStatements values .null es').outcome evalRule depth st₃'' = o'
      at h₅ hresult'
    obtain ⟨result, st₄⟩ := o
    obtain ⟨result', st₄'⟩ := o'
    cases hresult' with
    | ok hu => exact ⟨h₅, .ok hu.unwrapped⟩
    | error he => exact ⟨h₅, .error he⟩

/-- A program runs alike in corresponding scopes of stores that are the same up to renaming. -/
theorem Renamed.runProgram {before before' : String} {ρ : Renaming} {st st' : Store}
    (h : Renamed before before' ρ st st') {values values' macros macros' : Scope}
    (hvalues : ρ.scopes values values') (hmacros : ρ.scopes macros macros') (program : Node)
    (depth : Nat) :
    let o := (Monkey.runProgram values macros program).outcome evalRule depth st
    let o' := (Monkey.runProgram values' macros' program).outcome evalRule depth st'
    ∃ σ, ρ ≤ σ ∧ Renamed before before' σ o.store o'.store ∧
      Both Eq (fun r r' => r.value.Like (.renamed σ) r'.value ∧ r.expanded = r'.expanded)
        o.result o'.result := by
  have L := laws_renamed before before'
  exact h.run ((L.correspondence depth).runProgram (renamed_notes before before' depth)
    (M := .renamed ρ) (fun _ => trivial) (fun _ _ _ _ => L.eval depth) (fun _ => hvalues)
    (fun _ => hmacros) program)

end Store

/-! ## Sessions that are the same up to renaming -/

/-- Nobody can tell from what is shown of them which of the two values it is. -/
structure Value.ShowsLike (v v' : Value) : Prop where
  kind : v.kind = v'.kind
  inspect : v.inspect = v'.inspect
  showable : v.showable = v'.showable

theorem Value.Like.showsLike {M : Matching} {v v' : Value} (h : v.Like M v') : v.ShowsLike v' :=
  ⟨h.kind_eq, h.inspect_eq, h.showable_eq⟩

namespace Session

/-- A session that is reached is the same as itself up to some renaming, in which its two scopes
correspond to themselves. So whatever happens to it otherwise, it goes on alike. -/
theorem renamed_after (history : List Entry) : ∃ ρ,
    Store.Renamed "" "" ρ (after history).store (after history).store ∧
      ρ.scopes new.values new.values ∧ ρ.scopes new.macros new.macros := by
  refine after_induction (P := fun st => ∃ ρ, Store.Renamed "" "" ρ st st ∧
    ρ.scopes new.values new.values ∧ ρ.scopes new.macros new.macros) ?_ ?_ ?_ history
  · let ρ : Renaming :=
      { scopes := fun sc sc' => sc = sc' ∧ sc.index < 2
        identities := fun _ _ => False
        scopes_oneToOne := by
          rintro a _ b _ ⟨rfl, -⟩ ⟨rfl, -⟩
          exact Iff.rfl
        identities_oneToOne := nofun }
    refine ⟨ρ, ⟨⟨?_, nofun, ?_⟩, "", rfl, rfl⟩, ⟨rfl, by decide⟩, rfl, by decide⟩
    · rintro sc _ ⟨rfl, hlt⟩
      exact ⟨hlt, hlt⟩
    · rintro sc _ ⟨rfl, hlt⟩
      rw [frame?_new hlt]
      exact .some ⟨.nil, .none⟩
  · rintro st ⟨ρ, h, hscopes⟩
    exact ⟨ρ, h.quiet, hscopes⟩
  · rintro program depth st ⟨ρ, h, hvalues, hmacros⟩
    obtain ⟨σ, hle, hσ, -⟩ := h.runProgram hvalues hmacros program depth
    exact ⟨σ, hσ, hle.scopes _ _ hvalues, hle.scopes _ _ hmacros⟩

variable (depth : Nat) (source : String) (s : Session)

/-- What is left of a text when its macros have been defined and its macro calls have been replaced,
and the store then; nothing if that fails. -/
def expansion? : Option (List Node × Store) :=
  match Source.parse source with
  | .ok program =>
    match (expandProgram s.macros program).outcome evalRule depth s.store.quiet with
    | ⟨.ok (.ok n), st⟩ => some (n.statements, st)
    | _ => none
  | .error _ => none

/-- What is printed while a text is run. -/
def printed : String :=
  match s.attempt depth source with
  | some o => o.store.output
  | none => ""

variable {depth source s} {es : List Node} {st : Store}

theorem of_expansion? (h : s.expansion? depth source = some (es, st)) {program : Node}
    (hparse : Source.parse source = .ok program) :
    (expandProgram s.macros program).outcome evalRule depth s.store.quiet =
      ⟨.ok (.ok (.program es)), st⟩ := by
  unfold expansion? at h
  rw [hparse] at h
  dsimp only at h
  generalize ho : (expandProgram s.macros program).outcome evalRule depth s.store.quiet = o at h
  obtain ⟨result, st'⟩ := o
  rcases result with e | (fault | n)
  · cases h
  · cases h
  · obtain ⟨ss, rfl⟩ := program_of_expandProgram ho
    cases h
    rfl

/-- A text whose macro calls can be replaced comes to what the evaluation of the rest comes to. -/
theorem attempt_of_expandProgram {program : Node} (hparse : Source.parse source = .ok program)
    (h : (expandProgram s.macros program).outcome evalRule depth s.store.quiet =
      ⟨.ok (.ok (.program es)), st⟩) :
    s.attempt depth source = some
      ⟨((Node.program es).evaluate depth s.values st).result.map (⟨·, true⟩),
        ((Node.program es).evaluate depth s.values st).store⟩ := by
  unfold attempt
  rw [hparse]
  dsimp only
  rw [outcome_runProgram, h]
  dsimp only
  generalize (Node.program es).evaluate depth s.values st = o
  obtain ⟨result, st'⟩ := o
  cases result <;> rfl

theorem next_of_attempt {o : Outcome Ran} (h : s.attempt depth source = some o) :
    s.next depth source = { s with store := o.store.quiet } := by
  unfold next
  rw [h]

theorem printed_of_attempt {o : Outcome Ran} (h : s.attempt depth source = some o) :
    s.printed depth source = o.store.output := by
  unfold printed
  rw [h]

/-- What two texts come to one after the other, and what they come to as one. -/
structure Composes (depth : Nat) (first second both : String) (s : Session) : Prop where
  /-- The final values show the same, or the runs are broken off for the same reason. -/
  results : ∃ o o', (s.next depth first).attempt depth second = some o ∧
    s.attempt depth both = some o' ∧
    Both Eq (fun r r' => r.value.ShowsLike r'.value) o.result o'.result
  /-- In both scopes of the session the same names are bound in the same order, to values that show
  the same. -/
  bindings : ∀ sc, sc = s.values ∨ sc = s.macros → Table.Alike Value.ShowsLike
    (((s.next depth first).next depth second).store.bindings sc)
    ((s.next depth both).store.bindings sc)

/-- Frames of scopes that correspond bind the same names in the same order, to values that show the
same. -/
theorem bindings_alike {before before' : String} {ρ : Renaming} {st st' : Store}
    (h : st.Renamed before before' ρ st') {sc sc' : Scope} (hsc : ρ.scopes sc sc') :
    Table.Alike Value.ShowsLike (st.bindings sc) (st'.bindings sc') := by
  have hframes := h.relates.frames sc sc' hsc
  unfold Store.bindings
  generalize st.frame? sc = o, st'.frame? sc' = o' at hframes
  cases hframes with
  | none => exact .nil
  | some halike => exact halike.bindings.mono fun _ _ hb => ⟨hb.1, hb.2.showsLike⟩

/-- Two texts do one after the other what one text does that has the statements of both, if the
first is expanded and no statement of it comes to an error or a `return`, and the second is expanded,
defines no macros and is not empty. If one of the two ways comes to an end so does the other. What
is printed is the same, too, if replacing the macro calls of the second prints nothing. -/
theorem composes_after (history : List Entry) (depth : Nat) {first second both : String}
    {ss ts es es' : List Node} {st st' : Store} (hfirst : Source.parse first = .ok (.program ss))
    (hsecond : Source.parse second = .ok (.program ts))
    (hboth : Source.parse both = .ok (.program (ss ++ ts))) (hne : ts ≠ [])
    (hdefines : ∀ t ∈ ts, t.isMacroDefinition = false)
    (hexpands : (after history).expansion? (depth + 1) first = some (es, st))
    (hpasses : st.passes depth (after history).values es = true)
    (hexpands' : ((after history).next (depth + 1) first).expansion? (depth + 1) second =
      some (es', st')) :
    Composes (depth + 1) first second both (after history) ∧
      (st'.output = "" → (after history).printed (depth + 1) both =
        (after history).printed (depth + 1) first ++
          ((after history).next (depth + 1) first).printed (depth + 1) second) := by
  obtain ⟨ρ, h, hvalues, hmacros⟩ := renamed_after history
  obtain ⟨hv, hm⟩ := scopes_after history
  rw [← hv] at hvalues
  rw [← hm] at hmacros
  have hquiet := h.quiet
  have hexpanded := of_expansion? hexpands hfirst
  have hfirst' := attempt_of_expandProgram hfirst hexpanded
  have hnext := next_of_attempt hfirst'
  -- the scope of macros of the session in between
  have hholds : ∀ f, ((Node.program es).evaluate (depth + 1) (after history).values st).store.frame?
      (after history).macros = some f → f.parent = none ∧ f.HoldsMacros (after history).macros := by
    intro f hf
    have hbetween : ((after history).next (depth + 1) first).store.frame? (after history).macros =
        some f := by rw [hnext]; exact hf
    obtain ⟨g, hg, hroot⟩ := exists_frame_after (⟨depth + 1, first⟩ :: history) new.macros (by decide)
    have hmacrosOnly := (holdsMacros_after (⟨depth + 1, first⟩ :: history)).2
    rw [after, ← hm, hbetween] at hg
    obtain rfl := Option.some.inj hg
    unfold HoldsMacros at hmacrosOnly
    rw [after, macros_next, Store.bindings, hbetween] at hmacrosOnly
    exact ⟨hroot, hmacrosOnly⟩
  have hexpanded' := of_expansion? hexpands' hsecond
  have hsecond' := attempt_of_expandProgram hsecond hexpanded'
  rw [values_next] at hsecond'
  rw [hnext] at hexpanded'
  have hne' : (after history).macros ≠ (after history).values := by
    rw [hv, hm]
    exact values_ne_macros.symm
  obtain ⟨st₃', before', σ, hjoint, hle, hout, hσ, hresult⟩ := hquiet.compose hvalues hmacros hne' hne
    hdefines hexpanded hpasses rfl hholds hexpanded'
  have hboth' := attempt_of_expandProgram hboth hjoint
  refine ⟨⟨⟨_, _, hsecond', hboth', ?_⟩, ?_⟩, ?_⟩
  · exact hresult.map fun v v' hv => hv.showsLike
  · rintro sc hsc
    have hscopes : σ.scopes sc sc := by
      rcases hsc with rfl | rfl
      · exact hle.scopes _ _ hvalues
      · exact hle.scopes _ _ hmacros
    rw [next_of_attempt hsecond', next_of_attempt hboth']
    exact bindings_alike hσ hscopes
  · intro hsilent
    obtain ⟨printed, hprinted, hprinted'⟩ := hσ.output
    rw [printed_of_attempt hfirst', printed_of_attempt hsecond', printed_of_attempt hboth']
    rw [hprinted', hprinted, hout hsilent, hsilent, String.empty_append]

/-- Of two texts that call a macro the second changes what a function of the first prints. -/
theorem composes_after_macro_calls :
    let history : List Entry :=
      [⟨99, "let twice = macro(a) \x7b quote(unquote(a) + unquote(a)) \x7d;"⟩]
    let first := "let x = twice(2); let f = fn() \x7b puts(x); x \x7d;"
    let second := "let x = twice(x); f()"
    let both := "let x = twice(2); let f = fn() \x7b puts(x); x \x7d; let x = twice(x); f()"
    Composes 99 first second both (after history) ∧
      (after history).printed 99 both = (after history).printed 99 first ++
        ((after history).next 99 first).printed 99 second ∧
      (after history).printed 99 both = "8\n" := by
  intro history first second both
  let twice (e : Node) : Node := .call (.ident "twice") [e]
  have hfirst : Source.parse first = .ok (.program [.letStmt "x" (twice (.int 2)),
      .letStmt "f" (.fnLit [] [.exprStmt (.call (.ident "puts") [.ident "x"]),
        .exprStmt (.ident "x")])]) := Source.parse_of_toOption (by decide +kernel)
  have hsecond : Source.parse second = .ok (.program [.letStmt "x" (twice (.ident "x")),
      .exprStmt (.call (.ident "f") [])]) := Source.parse_of_toOption (by decide +kernel)
  have hboth : Source.parse both = .ok (.program [.letStmt "x" (twice (.int 2)),
      .letStmt "f" (.fnLit [] [.exprStmt (.call (.ident "puts") [.ident "x"]),
        .exprStmt (.ident "x")]), .letStmt "x" (twice (.ident "x")),
      .exprStmt (.call (.ident "f") [])]) := Source.parse_of_toOption (by decide +kernel)
  have hruns : ((after history).expansion? 99 first).any
      (fun p => p.2.passes 98 (after history).values p.1) = true := by decide +kernel
  have hsilent : (((after history).next 99 first).expansion? 99 second).any
      (fun p => p.2.output == "") = true := by decide +kernel
  obtain ⟨⟨es, st⟩, hexpands, hpasses⟩ := (Option.any_eq_true _ _).1 hruns
  obtain ⟨⟨es', st'⟩, hexpands', hnothing⟩ := (Option.any_eq_true _ _).1 hsilent
  obtain ⟨hcomposes, hprinted⟩ := composes_after history 98 hfirst hsecond hboth (by simp)
    (by decide) hexpands hpasses hexpands'
  exact ⟨hcomposes, hprinted (by simpa using hnothing), by decide +kernel⟩

end Session

end Monkey
