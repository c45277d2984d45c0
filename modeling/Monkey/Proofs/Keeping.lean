import Monkey.Proofs.Composition
import Monkey.Proofs.Sameness

/-!
# What a call keeps

A call binds names in the scopes that it makes, and nowhere else. All frames that there
were it leaves as they are, and so does whoever calls it from scopes of his own. That is
why it makes no difference when a value is called, as long as nothing that it can reach
has changed: it does the same, up to a renaming of scopes and identities.

## Main definitions

* `Store.Keeps`, `Store.Silent` — all frames are as they were, and nothing is printed.
* `Renaming.itself` — all that there is corresponds to itself.

## Main results

* `Store.keeps_call` — a call keeps what there is.
* `Store.Stocked.renamed_itself` — a store that is in order is the same as itself.
* `Store.Renamed.call` — a value is called alike later.
-/

namespace Monkey

open Monkey.Computation

/-! ## Stores that keep what they have -/

namespace Store

/-- All frames are as they were, and no identity is handed out a second time. -/
structure Keeps (st st' : Store) : Prop where
  frames : ∀ sc f, st.frame? sc = some f → st'.frame? sc = some f
  identities : st.nextIdentity ≤ st'.nextIdentity

/-- Besides, nothing is printed. -/
structure Silent (st st' : Store) : Prop extends st.Keeps st' where
  output : st'.output = st.output

variable {st st₁ st₂ st' : Store} {sc : Scope}

theorem Keeps.trans (h : st.Keeps st₁) (h' : st₁.Keeps st₂) : st.Keeps st₂ where
  frames sc f hf := h'.frames sc f (h.frames sc f hf)
  identities := Nat.le_trans h.identities h'.identities

theorem Keeps.made (h : st.Keeps st') (hsc : sc.index < st.frames.size) :
    sc.index < st'.frames.size :=
  (Array.getElem?_eq_some_iff.1 (h.frames sc _ (Array.getElem?_eq_getElem hsc))).1

/-- In the scopes that there are all names mean the same as before. -/
theorem Keeps.lookup (h : st.Keeps st') (hsc : sc.index < st.frames.size) (name : String) :
    st'.lookup name sc = st.lookup name sc := by
  refine lookup_congr (fun sc' hle => ?_) name
  have hframe := Array.getElem?_eq_getElem (Nat.lt_of_le_of_lt hle hsc)
  exact (h.frames sc' _ hframe).trans hframe.symm

theorem Silent.refl (st : Store) : st.Silent st := ⟨⟨fun _ _ => id, Nat.le_refl _⟩, rfl⟩

theorem Silent.trans (h : st.Silent st₁) (h' : st₁.Silent st₂) : st.Silent st₂ :=
  ⟨h.toKeeps.trans h'.toKeeps, h'.output.trans h.output⟩

theorem silent_child (p : Scope) (bs : Table String Value) (st : Store) :
    st.Silent (st.child p bs).2 :=
  ⟨⟨fun _ _ => frame?_addFrame_of_some _, Nat.le_refl _⟩, rfl⟩

theorem silent_freshIdentity (st : Store) : st.Silent st.freshIdentity.2 :=
  ⟨⟨fun _ _ => id, Nat.le_succ _⟩, rfl⟩

/-- Names may be bound in scopes that there were not. -/
theorem Silent.define (h : st.Silent st') (hnew : st.frames.size ≤ sc.index) (name : String)
    (v : Value) : st.Silent (st'.define sc name v) where
  frames sc' f hf := by
    have hlt : sc'.index < st.frames.size := (Array.getElem?_eq_some_iff.1 hf).1
    rw [frame?_define, if_neg (by rintro rfl; omega)]
    exact h.frames sc' f hf
  identities := h.identities
  output := h.output

/-- A call keeps what there is: names are bound in its own scope only. -/
theorem keeps_call (f : Value) (args : List Value) (depth : Nat) (st : Store) :
    st.Keeps ((f.call args).outcome evalRule depth st).store where
  frames sc frame hframe := by
    have S := Regime.stable_frame sc frame
    have hargs : ∀ v ∈ args, v.Every (Value.Quotes fun _ => True) :=
      fun v _ => Value.every_of_forall (fun _ _ _ _ => trivial) v
    have hcall : ((Regime.ofFrame sc (· = frame) fun _ => True).judgement depth).holds (f.call args)
      _ := (S.upkeep (S.eval depth)).call hargs
    obtain ⟨⟨frame', hframe', rfl⟩, -⟩ :=
      (hcall st ⟨⟨frame, hframe, rfl⟩, st.every_quotes_any⟩ fun _ _ => trivial).2.1
    exact hframe'
  identities := by
    have S := Regime.stable_handedOut st.nextIdentity
    have hargs : ∀ v ∈ args, v.Every fun _ => True := fun v _ =>
      Value.every_of_forall (fun _ => trivial) v
    have hcall : ((Regime.handedOut st.nextIdentity).judgement depth).holds (f.call args) _ :=
      (S.upkeep (S.eval depth)).call hargs
    exact (hcall st (Nat.le_refl _) fun _ _ => trivial).2.1

/-- What a run does by itself makes no difference. -/
theorem Renamed.keep {before before' : String} {ρ : Renaming} (h : Renamed before before' ρ st st')
    (hkeeps : st'.Keeps st₁) : Renamed st.output st₁.output ρ st st₁ :=
  h.of_frames (fun _ _ hf _ => hf) hkeeps.frames (Nat.le_refl _) hkeeps.identities

end Store

/-! ## A store beside itself -/

/-- All that there is corresponds to itself. -/
def Renaming.itself (st : Store) : Renaming where
  scopes sc sc' := sc = sc' ∧ sc.index < st.frames.size
  identities i i' := i = i' ∧ i < st.nextIdentity
  scopes_oneToOne := by
    rintro _ _ _ _ ⟨rfl, -⟩ ⟨rfl, -⟩
    exact Iff.rfl
  identities_oneToOne := by
    rintro _ _ _ _ ⟨rfl, -⟩ ⟨rfl, -⟩
    exact Iff.rfl

namespace Store
variable {st : Store} {I : Inventory}

/-- What refers only to what there is looks like itself. -/
theorem Stocked.like_itself (h : st.Stocked .distinct I) {v : Value}
    (hv : v.Every (Value.InStock I)) : v.Like (.renamed (.itself st)) v := by
  refine .of_every (hv.imp fun u hu => ⟨?_, ?_⟩)
  · have hclosure : ∀ sc, u.closure? = some sc → (Renaming.itself st).scopes sc sc :=
      fun sc hsc => ⟨rfl, h.scopes ▸ hu.closures sc hsc⟩
    cases u with
    | function _ _ _ sc => exact .function (hclosure sc rfl)
    | macroFn _ _ _ sc => exact .macroFn (hclosure sc rfl)
    | quote => exact .quote trivial
    | hash => exact .hash rfl
    | _ => constructor
  · show Option.Rel _ u.identity? u.identity?
    cases hidentity : u.identity? with
    | none => exact .none
    | some i =>
      obtain ⟨i', hi', heq⟩ := h.values.1 u (hu.listed (by simp [hidentity]))
      obtain rfl := Option.some.inj (hidentity.symm.trans heq)
      exact .some ⟨rfl, hi'⟩

/-- A store that is in order is the same as itself. -/
theorem Stocked.renamed_itself (h : st.Stocked .distinct I) :
    Renamed st.output st.output (.itself st) st st := by
  refine ⟨⟨?_, ?_, ?_⟩, "", by simp⟩
  · rintro sc _ ⟨rfl, hsc⟩
    exact ⟨hsc, hsc⟩
  · rintro i _ ⟨rfl, hi⟩
    exact ⟨hi, hi⟩
  · rintro sc _ ⟨rfl, hsc⟩
    have hframe := Array.getElem?_eq_getElem hsc
    rw [frame?, hframe]
    refine .some ⟨.refl fun b hb => ⟨rfl, h.like_itself (h.bound sc _ hframe b hb)⟩, ?_⟩
    cases hparent : (st.frames[sc.index]).parent with
    | none => exact .none
    | some p =>
      have hlt := h.parents sc _ p hframe hparent
      exact .some ⟨⟨rfl, Nat.lt_trans hlt hsc⟩, hlt, hlt⟩

end Store

/-- A value is called alike with a value that looks like itself, also later and with more depth. -/
theorem Store.Renamed.call {ρ : Renaming} {st₁ st st₀ st₂ : Store} {f x y : Value}
    {depth depth' : Nat} (h : Renamed st₁.output st.output ρ st₁ st)
    (houtput : st.output = st₁.output) (hsilent : st.Silent st₀) (hf : f.Like (.renamed ρ) f)
    (hx : x.Like (.renamed ρ) x) (hcall : (f.call [x]).outcome evalRule depth st₁ = ⟨.ok y, st₂⟩)
    (hle : depth ≤ depth') :
    ∃ σ y' st', ρ ≤ σ ∧ y.Like (.renamed σ) y' ∧
      (f.call [x]).outcome evalRule depth' st₀ = ⟨.ok y', st'⟩ ∧ st₀.Keeps st' ∧
      st'.output = st₂.output ∧ Renamed st₂.output st'.output σ st₂ st' := by
  have L := laws_renamed st₁.output st₀.output
  obtain ⟨σ, hσle, hσ, hresult⟩ := (h.keep hsilent.toKeeps).run
    ((L.correspondence depth).call hf (.cons hx .nil) fun _ _ _ _ hbody => L.eval depth hbody)
  have hkeeps := keeps_call f [x] depth st₀
  rw [hcall] at hσ hresult
  generalize hcall' : (f.call [x]).outcome evalRule depth st₀ = o at hσ hresult hkeeps
  obtain ⟨result, st'⟩ := o
  obtain ⟨y', rfl, hy⟩ := hresult.exists_right
  refine ⟨σ, y', st', hσle, hy, ?_, hkeeps, ?_, hσ.keep (Silent.refl st').toKeeps⟩
  · rw [← hcall']
    refine outcome_mono evalRule hle _ _ ?_
    rw [hcall']
    exact fun hlacks => by cases hlacks
  · obtain ⟨printed, hst₂, hst'⟩ := hσ.output
    rw [hst', hst₂, hsilent.output, houtput]

end Monkey
