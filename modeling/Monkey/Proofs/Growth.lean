import Monkey.Proofs.PairedExpansion

/-!
# How a store comes from an earlier one

An invariant says the same of every moment of a run. To say how a moment comes from an
earlier one, say that nothing was lost in between, takes a relation between the two
stores. If every step leads along it, and what it says goes through sequence, then
the moments at which visits begin and end lie in order between the start and the
end of the run.

A step may lead along only because of what is invariant, so this is stated on top of
a relation that two runs keep.

## Main definitions

* `StoreRelation.Growth` — every step leads along a relation between stores.
* `Computation.Leads` — a computation does, with all moments on the way.

## Main results

* `StoreRelation.Growth.eval`, `StoreRelation.Growth.runProgram` — evaluation and the
  run of a program lead along the relation.
-/

namespace Monkey

open Monkey.Computation

/-- The end comes from the start as `le` says, and on the way the start of each visit from the
start, the end of the visit from its start, and the end from the end of the visit. -/
structure Computation.Leads (le : Store → Store → Prop) (depth : Nat) {α : Type} (x : Computation α)
    (st : Store) : Prop where
  end_ : le st (x.outcome evalRule depth st).store
  visits : ∀ w ∈ x.visits evalRule depth st, le st w.store ∧
    le w.store (w.outcome evalRule).store ∧
    le (w.outcome evalRule).store (x.outcome evalRule depth st).store

/-- A step without visits leads along `le` if its end does. -/
theorem Computation.leads_of_visits {le : Store → Store → Prop} {depth : Nat} {α : Type}
    {x : Computation α} {st : Store} (hvisits : x.visits evalRule depth st = [])
    (h : le st (x.outcome evalRule depth st).store) : x.Leads le depth st :=
  ⟨h, by simp [hvisits]⟩

namespace StoreRelation

/-- Every step of the first of two runs leads along `le`, as long as they keep the relation. -/
structure Growth (R : StoreRelation) (le : Store → Store → Prop) : Prop where
  refl : ∀ st, le st st
  trans : ∀ {st₁ st₂ st₃}, le st₁ st₂ → le st₂ st₃ → le st₁ st₃
  fresh : ∀ st, le st st.freshIdentity.2
  define : ∀ {M st st' sc sc' name e v v'}, R M st st' → M.admits sc sc' (.letStmt name e) →
    v.Like M v' → le st (st.define sc name v)
  block : ∀ {M st st' sc sc' ss}, R M st st' → M.admits sc sc' (.block ss) →
    le st (st.child sc []).2
  body : ∀ {M st st' sc sc' ps body args args'}, R M st st' → M.closes sc sc' ps body →
    Pointwise M.Alike args args' → args.length = ps.length →
    le st (st.child sc (bindParams ps args)).2
  printLine : ∀ st line, le st (st.printLine line)
  note : ∀ st n, le st (st.note n)

namespace Growth
variable {R : StoreRelation} {le : Store → Store → Prop} (G : R.Growth le) {depth : Nat}
include G

/-- The pairing of computations that keep the relation, the first of which leads along `le`. -/
def pairing (depth : Nat) : Pairing Computation where
  holds M x y post := R.Keeps depth M x y post ∧
    ∀ M' st st', M ≤ M' → R M' st st' → x.Leads le depth st
  up hle h := ⟨(R.pairing depth).up hle h.1, fun M' st st' hle' =>
    h.2 M' st st' (Matching.le_trans hle hle')⟩
  pure h := ⟨(R.pairing depth).pure h, fun _ st _ _ _ => leads_of_visits rfl (G.refl st)⟩
  mono hx h := ⟨(R.pairing depth).mono hx.1 h, hx.2⟩
  bind {α β M x y f g mid post} hx hf := by
    refine ⟨keeps_bind hx.1 fun M' a b hle hab => (hf M' a b hle hab).1, ?_⟩
    intro M' st st' hle hR
    obtain ⟨hend, hvisits⟩ := hx.2 M' st st' hle hR
    obtain ⟨-, M₂, hle₂, hR₂, hresult⟩ := hx.1 M' st st' hle hR
    generalize hx' : x.outcome evalRule depth st = o at hend hvisits hR₂ hresult
    obtain ⟨result, st₂⟩ := o
    generalize y.outcome evalRule depth st' = o' at hR₂ hresult
    obtain ⟨result', st₂'⟩ := o'
    have houtcome := outcome_bind evalRule depth st x f
    have hall := visits_bind evalRule depth st x f
    rw [hx'] at houtcome hall
    cases hresult with
    | error he =>
      constructor
      · rw [houtcome]
        exact hend
      · rw [houtcome, hall]
        simpa using hvisits
    | @ok a b hab =>
      obtain ⟨hend', hvisits'⟩ :=
        (hf M₂ a b (Matching.le_trans hle hle₂) hab).2 M₂ st₂ st₂' M₂.le_refl hR₂
      constructor
      · rw [houtcome]
        exact G.trans hend hend'
      · rw [houtcome, hall]
        intro w hw
        rcases List.mem_append.1 hw with hw | hw
        · obtain ⟨hbegin, hvisit, hafter⟩ := hvisits w hw
          exact ⟨hbegin, hvisit, G.trans hafter hend'⟩
        · obtain ⟨hbegin, hvisit, hafter⟩ := hvisits' w hw
          exact ⟨G.trans hend hbegin, hvisit, hafter⟩

variable (L : R.Laws)
include L

/-- The steps of evaluation go alike, and lead along `le`. -/
theorem correspondence (depth : Nat) : Correspondence (G.pairing depth) where
  mint M f g hmakes := by
    refine ⟨(L.correspondence depth).mint M f g hmakes, fun M' st st' _ _ => ?_⟩
    exact leads_of_visits (by rw [visits_bind]; simp [Computation.fresh]) (G.fresh st)
  found M sc sc' name h := ⟨(L.correspondence depth).found M sc sc' name h, fun _ st _ _ _ =>
    leads_of_visits rfl (G.refl st)⟩
  defined M sc sc' name e v v' h hv :=
    ⟨(L.correspondence depth).defined M sc sc' name e v v' h hv, fun _ _ _ hle hR =>
      leads_of_visits rfl (G.define hR (hle.admits _ _ _ h) (hv.mono hle))⟩
  opened M sc sc' ss h := ⟨(L.correspondence depth).opened M sc sc' ss h, fun _ _ _ hle hR =>
    leads_of_visits rfl (G.block hR (hle.admits _ _ _ h))⟩
  entered M sc sc' ps body args args' h hargs hlength :=
    ⟨(L.correspondence depth).entered M sc sc' ps body args args' h hargs hlength,
      fun _ _ _ hle hR => leads_of_visits rfl
        (G.body hR (hle.closes _ _ _ _ h) (hargs.mono fun _ _ h => h.mono hle) hlength)⟩
  printLine M line := ⟨(L.correspondence depth).printLine M line, fun _ st _ _ _ =>
    leads_of_visits rfl (G.printLine st line)⟩
  fails M e post := ⟨(L.correspondence depth).fails M e post, fun _ st _ _ _ =>
    leads_of_visits rfl (G.refl st)⟩

/-- Evaluation in scopes that admit a tree leads along `le`. -/
theorem eval (depth : Nat) {M : Matching} {n : Node} {sc sc' : Scope} (h : M.admits sc sc' n) :
    (G.pairing depth).holds M (Computation.eval n sc) (Computation.eval n sc') Matching.Alike := by
  induction depth generalizing M n sc sc' with
  | zero =>
    refine ⟨L.eval 0 h, fun _ st _ _ _ => leads_of_visits ?_ ?_⟩
    · rw [visits_eval]
      rfl
    · rw [outcome_eval]
      exact G.refl st
  | succ depth ih =>
    refine ⟨L.eval (depth + 1) h, fun M' st st' hle hR => ?_⟩
    obtain ⟨hend, hvisits⟩ :=
      ((G.correspondence L depth).evalRule h fun _ _ _ _ => ih).2 M' st st' hle hR
    constructor
    · rw [outcome_eval_succ]
      exact hend
    · rw [outcome_eval_succ, visits_eval_succ]
      exact List.forall_mem_cons.2 ⟨⟨G.refl st, hend, G.refl _⟩, hvisits⟩

/-- So does the run of a program. -/
theorem runProgram (hR : ∀ {M st st'} n, R M st st' → R M (st.note n) (st'.note n)) (depth : Nat)
    {M : Matching} (hquotes : ∀ n, M.quoted n) {values values' macros macros' : Scope}
    (hvalues : ∀ n, M.admits values values' n) (hmacros : ∀ n, M.admits macros macros' n)
    (program : Node) :
    (G.pairing depth).holds M (Monkey.runProgram values macros program)
      (Monkey.runProgram values' macros' program)
      fun M' r r' => r.value.Like M' r'.value ∧ r.expanded = r'.expanded := by
  have hnotes : ∀ M n, (G.pairing depth).holds M (modify (Store.note n)) (modify (Store.note n))
      fun _ _ _ => True := by
    refine fun M n => ⟨fun M₁ st st' _ h => ?_, fun _ st _ _ _ => ?_⟩
    · exact ⟨by simp, M₁, M₁.le_refl, hR n h, .ok trivial⟩
    · exact leads_of_visits rfl (G.note st n)
  exact (G.correspondence L depth).runProgram hnotes hquotes (fun _ _ _ _ => G.eval L depth) hvalues
    hmacros program

end Growth
end StoreRelation
end Monkey
