import Monkey.Proofs.Correspondence

/-!
# Runs from related stores

A relation between stores, under a matching, is kept by two runs if every single
step keeps it: `StoreRelation.Laws`. The matching grows on the way, as new scopes and
new values come to correspond. Then two evaluations of a tree, in scopes that admit
it and from stores that are related, come to values that look alike or fail for the
same reason, and leave related stores; one comes to an end exactly if the other
does.

A relation between a store and itself says what is invariant in a single run, so
that is a case of this. For that use, what is known of each visit is recorded.

## Main definitions

* `StoreRelation`, `StoreRelation.Laws` — a relation that every step keeps.
* `StoreRelation.pairing` — two computations keep the relation.

## Main results

* `StoreRelation.Laws.eval` — evaluation keeps the relation.
-/

namespace Monkey

open Monkey.Computation

/-- Two frames that are alike: they bind the same names to values that look alike, and the scopes
around them are related. -/
structure Frame.Alike (alike : Value → Value → Prop) (around : Scope → Scope → Prop)
    (f f' : Frame) : Prop where
  bindings : Table.Alike alike f.bindings f'.bindings
  parent : Option.Rel around f.parent f'.parent

section Alike
variable {alike alike' : Value → Value → Prop} {around around' : Scope → Scope → Prop}

theorem Frame.Alike.bind {f f' : Frame} (h : f.Alike alike around f') (name : String) {v v' : Value}
    (hv : alike v v') : (f.bind name v).Alike alike around (f'.bind name v') :=
  ⟨h.bindings.insert name hv, h.parent⟩

theorem Frame.Alike.mono {f f' : Frame} (h : f.Alike alike around f')
    (halike : ∀ v v', alike v v' → alike' v v') (haround : ∀ p p', around p p' → around' p p') :
    f.Alike alike' around' f' where
  bindings := h.bindings.mono fun _ _ h => ⟨h.1, halike _ _ h.2⟩
  parent := rel_mono h.parent haround

theorem bindParams_alike {args args' : List Value} (h : Pointwise alike args args')
    (params : List String) :
    Table.Alike alike (bindParams params args) (bindParams params args') :=
  Table.Alike.insertAll (Table.alike_zip params h) .nil

/-- Scopes that are made inside related ones with alike bindings have frames that are alike. -/
theorem Store.frame?_child_alike {st st' : Store} {u u' : Scope}
    (hnew : u.index = st.frames.size ↔ u'.index = st'.frames.size)
    {sc sc' : Scope} (hsc : around sc sc') {bs bs' : Table String Value}
    (hbs : Table.Alike alike bs bs') (h : u.index ≠ st.frames.size →
      Option.Rel (Frame.Alike alike around) (st.frame? u) (st'.frame? u')) :
    Option.Rel (Frame.Alike alike around) ((st.child sc bs).2.frame? u)
      ((st'.child sc' bs').2.frame? u') := by
  simp only [Store.child, Store.frame?_addFrame, ← hnew]
  split
  · exact .some ⟨hbs, .some hsc⟩
  · next hne => exact h hne

/-- Frames that are alike are so when a name has been bound alike. -/
theorem Store.frame?_define_alike {st st' : Store} {sc sc' u u' : Scope} (hsc : sc = u ↔ sc' = u')
    (name : String) {v v' : Value} (hv : alike v v')
    (h : Option.Rel (Frame.Alike alike around) (st.frame? u) (st'.frame? u')) :
    Option.Rel (Frame.Alike alike around) ((st.define sc name v).frame? u)
      ((st'.define sc' name v').frame? u') := by
  simp only [Store.frame?_define, ← hsc]
  split
  · generalize st.frame? u = o, st'.frame? u' = o' at h
    cases h with
    | none => exact .none
    | some hf => exact .some (hf.bind name hv)
  · exact h

/-- Names mean values that are alike in related scopes, if the frames of these are alike unless it
is known anyway. -/
theorem Store.lookup_related {st st' : Store} {R : Scope → Scope → Prop} {name : String}
    (h : ∀ sc sc', R sc sc' → Option.Rel alike (st.lookup name sc) (st'.lookup name sc') ∨
      Option.Rel (Frame.Alike alike fun p p' =>
        R p p' ∧ (p.index < sc.index ↔ p'.index < sc'.index)) (st.frame? sc) (st'.frame? sc'))
    {sc sc' : Scope} (hsc : R sc sc') :
    Option.Rel alike (st.lookup name sc) (st'.lookup name sc') := by
  -- the scope around a scope was made before it
  induction hindex : sc.index using Nat.strongRecOn generalizing sc sc' with
  | ind k ih =>
  rcases h sc sc' hsc with hknown | hframes
  · exact hknown
  rw [Store.lookup.eq_def st, Store.lookup.eq_def st']
  generalize st.frame? sc = o, st'.frame? sc' = o' at hframes
  cases hframes with
  | none => exact .none
  | @some f f' hframe =>
    have hfind := hframe.bindings.find? name
    have hparent := hframe.parent
    dsimp only
    generalize f.bindings.find? name = r, f'.bindings.find? name = r' at hfind
    cases hfind with
    | some hv => exact .some hv
    | none =>
      dsimp only
      generalize f.parent = around, f'.parent = around' at hparent
      cases hparent with
      | none => exact .none
      | @some p p' hp =>
        obtain ⟨hrelated, hindices⟩ := hp
        dsimp only
        by_cases hlt : p.index < sc.index
        · rw [if_pos hlt, if_pos (hindices.1 hlt)]
          exact ih p.index (by omega) hrelated rfl
        · rw [if_neg hlt, if_neg fun h => hlt (hindices.2 h)]
          exact .none

end Alike

/-- What is to hold of the stores of two runs, as far as a matching goes. -/
abbrev StoreRelation : Type := Matching → Store → Store → Prop

namespace StoreRelation
variable (R : StoreRelation) (depth : Nat)

/-- The visit has a partner: when it begins, its store is related to another, and its tree is
admitted. -/
def Meets (M : Matching) (w : Visit) : Prop :=
  ∃ M' sc' st', M ≤ M' ∧ M'.admits w.scope sc' w.node ∧ R M' w.store st'

/-- From related stores, the computations come to related stores and to answers that satisfy
`post`, or fail for the same reason; and what the first visits has partners. -/
def Keeps {α : Type} (M : Matching) (x y : Computation α) (post : Matching → α → α → Prop) : Prop :=
  ∀ M₁ st st', M ≤ M₁ → R M₁ st st' →
    (∀ w ∈ x.visits evalRule depth st, R.Meets M₁ w) ∧
    ∃ M₂, M₁ ≤ M₂ ∧ R M₂ (x.outcome evalRule depth st).store (y.outcome evalRule depth st').store ∧
      Both Eq (post M₂) (x.outcome evalRule depth st).result (y.outcome evalRule depth st').result

variable {R depth}

theorem Meets.mono {M M' : Matching} {w : Visit} (h : R.Meets M' w) (hle : M ≤ M') :
    R.Meets M w := by
  obtain ⟨M'', sc', st', hle', hw⟩ := h
  exact ⟨M'', sc', st', Matching.le_trans hle hle', hw⟩

theorem keeps_bind {α β : Type} {M : Matching} {x y : Computation α} {f g : α → Computation β}
    {mid : Matching → α → α → Prop} {post : Matching → β → β → Prop} (hx : R.Keeps depth M x y mid)
    (hf : ∀ M' a b, M ≤ M' → mid M' a b → R.Keeps depth M' (f a) (g b) post) :
    R.Keeps depth M (x >>= f) (y >>= g) post := by
  intro M₁ st st' hle hR
  rw [visits_bind, outcome_bind, outcome_bind]
  obtain ⟨hvisits, M₂, hle₂, hR₂, hresult⟩ := hx M₁ st st' hle hR
  generalize x.outcome evalRule depth st = o at hR₂ hresult ⊢
  generalize y.outcome evalRule depth st' = o' at hR₂ hresult ⊢
  obtain ⟨result, st₂⟩ := o
  obtain ⟨result', st₂'⟩ := o'
  cases hresult with
  | error he =>
    subst he
    exact ⟨by simpa using hvisits, M₂, hle₂, hR₂, .error rfl⟩
  | @ok a b hab =>
    obtain ⟨hvisits', M₃, hle₃, hR₃, hresult'⟩ :=
      hf M₂ a b (Matching.le_trans hle hle₂) hab M₂ st₂ st₂' M₂.le_refl hR₂
    refine ⟨fun w hw => ?_, M₃, Matching.le_trans hle₂ hle₃, hR₃, hresult'⟩
    rcases List.mem_append.1 hw with hw | hw
    · exact hvisits w hw
    · exact (hvisits' w hw).mono hle₂

variable (R depth)

/-- The pairing of computations that keep a relation between stores. -/
def pairing : Pairing Computation where
  holds := R.Keeps depth
  up hle h := fun M₁ st st' hle' => h M₁ st st' (Matching.le_trans hle hle')
  pure h := fun M₁ st st' hle hR => ⟨by simp, M₁, M₁.le_refl, hR, .ok (h M₁ hle)⟩
  bind := keeps_bind
  mono {α M x y mid post} hx h := fun M₁ st st' hle hR => by
    obtain ⟨hvisits, M₂, hle₂, hR₂, hresult⟩ := hx M₁ st st' hle hR
    exact ⟨hvisits, M₂, hle₂, hR₂, hresult.mono fun a b => h M₂ a b (Matching.le_trans hle hle₂)⟩

/-- Every step of evaluation keeps the relation. -/
structure Laws : Prop where
  fresh : ∀ {M st st'} {f g : Identity → Value}, R M st st' → M.Makes f g →
    ∃ M', M ≤ M' ∧ R M' st.freshIdentity.2 st'.freshIdentity.2 ∧
      M'.marks (f st.nextIdentity) (g st'.nextIdentity)
  lookup : ∀ {M st st' sc sc' name}, R M st st' → M.admits sc sc' (.ident name) →
    Option.Rel M.Alike (st.lookup name sc) (st'.lookup name sc')
  define : ∀ {M st st' sc sc' name e v v'}, R M st st' → M.admits sc sc' (.letStmt name e) →
    v.Like M v' → R M (st.define sc name v) (st'.define sc' name v')
  block : ∀ {M st st' sc sc' ss}, R M st st' → M.admits sc sc' (.block ss) →
    ∃ M', M ≤ M' ∧ R M' (st.child sc []).2 (st'.child sc' []).2 ∧
      ∀ s ∈ ss, M'.admits ⟨st.frames.size⟩ ⟨st'.frames.size⟩ s
  body : ∀ {M st st' sc sc' ps body args args'}, R M st st' → M.closes sc sc' ps body →
    Pointwise M.Alike args args' → args.length = ps.length →
    ∃ M', M ≤ M' ∧
      R M' (st.child sc (bindParams ps args)).2 (st'.child sc' (bindParams ps args')).2 ∧
      M'.admits ⟨st.frames.size⟩ ⟨st'.frames.size⟩ body
  printLine : ∀ {M st st'} line, R M st st' → R M (st.printLine line) (st'.printLine line)

namespace Laws
variable {R depth} (L : R.Laws)
include L

/-- So the steps of evaluation go alike. -/
theorem correspondence (depth : Nat) : Correspondence (R.pairing depth) where
  mint M f g hmakes M₁ st st' hle hR := by
    obtain ⟨M₂, hle₂, hR₂, hmarks⟩ := L.fresh hR (hmakes.mono hle)
    have hlike : (f st.nextIdentity).Like M₂ (g st'.nextIdentity) :=
      Value.like_iff.2 ⟨((hmakes.seems _ _).mono hle).mono hle₂, hmarks⟩
    refine ⟨?_, M₂, hle₂, hR₂, .ok ⟨hlike, _, rfl⟩⟩
    rw [visits_bind]
    simp [Computation.fresh]
  found M sc sc' name h M₁ st st' hle hR :=
    ⟨by simp, M₁, M₁.le_refl, hR, .ok (L.lookup hR (hle.admits _ _ _ h))⟩
  defined M sc sc' name e v v' h hv M₁ st st' hle hR :=
    ⟨by simp, M₁, M₁.le_refl, L.define hR (hle.admits _ _ _ h) (hv.mono hle), .ok trivial⟩
  opened M sc sc' ss h M₁ st st' hle hR := by
    obtain ⟨M₂, hle₂, hR₂, hadmits⟩ := L.block hR (hle.admits _ _ _ h)
    exact ⟨by simp [openScope], M₂, hle₂, hR₂, .ok hadmits⟩
  entered M sc sc' ps body args args' h hargs hlength M₁ st st' hle hR := by
    obtain ⟨M₂, hle₂, hR₂, hadmits⟩ := L.body hR (hle.closes _ _ _ _ h)
      (hargs.mono fun _ _ h => h.mono hle) hlength
    exact ⟨by simp [openScope], M₂, hle₂, hR₂, .ok hadmits⟩
  printLine M line M₁ st st' _ hR := ⟨by simp, M₁, M₁.le_refl, L.printLine line hR, .ok trivial⟩
  fails M e post M₁ st st' _ hR := ⟨by simp, M₁, M₁.le_refl, hR, .error rfl⟩

/-- Evaluation in scopes that admit a tree keeps the relation and comes to values that look alike. -/
theorem eval (depth : Nat) {M : Matching} {n : Node} {sc sc' : Scope} (h : M.admits sc sc' n) :
    (R.pairing depth).holds M (Computation.eval n sc) (Computation.eval n sc') Matching.Alike := by
  induction depth generalizing M n sc sc' with
  | zero =>
    intro M₁ st st' _ hR
    rw [visits_eval, outcome_eval, outcome_eval]
    exact ⟨by simp [visitsWithin], M₁, M₁.le_refl, hR, .error rfl⟩
  | succ depth ih =>
    intro M₁ st st' hle hR
    rw [visits_eval_succ, outcome_eval_succ, outcome_eval_succ]
    obtain ⟨hvisits, hrest⟩ :=
      (L.correspondence depth).evalRule h (fun _ _ _ _ => ih) M₁ st st' hle hR
    refine ⟨List.forall_mem_cons.2 ⟨?_, hvisits⟩, hrest⟩
    exact ⟨M₁, sc', st', M₁.le_refl, hle.admits _ _ _ h, hR⟩

end Laws
end StoreRelation
end Monkey
