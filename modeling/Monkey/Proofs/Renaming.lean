import Monkey.Proofs.Correlation

/-!
# Runs up to renaming

A scope is a place in the order in which frames were made, and an identity is
a number. No program can tell which ones it was given, so two runs that have made
different scopes and values in the meantime still go alike if what they can reach
is the same up to a renaming of scopes and identities.

A `Renaming` is one to one on the scopes and identities that correspond, and grows when
both runs make something. What one of the runs does by itself does not matter, as
long as it leaves the frames alone that correspond to some of the other.

## Main definitions

* `Renaming` — which scopes and identities of two runs correspond.
* `Renaming.Relates` — the frames of corresponding scopes are alike.
* `Store.Renamed` — two stores are the same, up to a renaming, as far as it goes.

## Main results

* `Renaming.Relates.child`, `Renaming.Relates.define` — what corresponds stays alike.
* `Store.laws_renamed` — evaluation goes alike up to renaming.
-/

namespace Monkey

open Monkey.Computation

/-! ## One-to-one relations -/

/-- No two members of the one side correspond to the same of the other. -/
def OneToOne {α β : Type} (R : α → β → Prop) : Prop :=
  ∀ ⦃a a' b b'⦄, R a a' → R b b' → (a = b ↔ a' = b')

/-- The relation, and two more that correspond. -/
def Joining {α β : Type} (R : α → β → Prop) (a : α) (b : β) (x : α) (y : β) : Prop :=
  R x y ∨ x = a ∧ y = b

/-- Two that correspond to nothing yet may be joined. -/
theorem OneToOne.joining {α β : Type} {R : α → β → Prop} (h : OneToOne R) {a : α} {b : β}
    (ha : ∀ y, ¬ R a y) (hb : ∀ x, ¬ R x b) : OneToOne (Joining R a b) := by
  rintro x x' y y' (hx | ⟨rfl, rfl⟩) (hy | ⟨rfl, rfl⟩)
  · exact h hx hy
  · exact ⟨fun h => absurd (h ▸ hx) (ha x'), fun h => absurd (h ▸ hx) (hb x)⟩
  · exact ⟨fun h => absurd (h ▸ hy) (ha y'), fun h => absurd (h ▸ hy) (hb y)⟩
  · exact ⟨fun _ => rfl, fun _ => rfl⟩

/-! ## Renamings -/

/-- Which scopes and which identities of two runs correspond. -/
structure Renaming where
  scopes : Scope → Scope → Prop
  identities : Identity → Identity → Prop
  scopes_oneToOne : OneToOne scopes
  identities_oneToOne : OneToOne identities

/-- The frames of scopes that correspond are alike, and all that corresponds has been made. What is
around two scopes is to be as `around` says. -/
structure Renaming.Relates (ρ : Renaming) (alike : Value → Value → Prop)
    (around : Scope → Scope → Scope → Scope → Prop) (st st' : Store) : Prop where
  made : ∀ sc sc', ρ.scopes sc sc' → sc.index < st.frames.size ∧ sc'.index < st'.frames.size
  handedOut : ∀ i i', ρ.identities i i' → i < st.nextIdentity ∧ i' < st'.nextIdentity
  frames : ∀ sc sc', ρ.scopes sc sc' →
    Option.Rel (Frame.Alike alike (around sc sc')) (st.frame? sc) (st'.frame? sc')

namespace Renaming
variable {ρ : Renaming} {alike alike' : Value → Value → Prop}
  {around around' : Scope → Scope → Scope → Scope → Prop} {st st' : Store}

/-- Two scopes that have not corresponded to any correspond. -/
def join (ρ : Renaming) (sc sc' : Scope) (h : ∀ u, ¬ ρ.scopes sc u) (h' : ∀ u, ¬ ρ.scopes u sc') :
    Renaming where
  scopes := Joining ρ.scopes sc sc'
  identities := ρ.identities
  scopes_oneToOne := ρ.scopes_oneToOne.joining h h'
  identities_oneToOne := ρ.identities_oneToOne

/-- Two identities that have not corresponded to any correspond. -/
def identify (ρ : Renaming) (i i' : Identity) (h : ∀ j, ¬ ρ.identities i j)
    (h' : ∀ j, ¬ ρ.identities j i') : Renaming where
  scopes := ρ.scopes
  identities := Joining ρ.identities i i'
  scopes_oneToOne := ρ.scopes_oneToOne
  identities_oneToOne := ρ.identities_oneToOne.joining h h'

/-- Only some of the scopes correspond. -/
def only (ρ : Renaming) (keep : Scope → Prop) : Renaming where
  scopes sc sc' := ρ.scopes sc sc' ∧ keep sc
  identities := ρ.identities
  scopes_oneToOne _ _ _ _ h h' := ρ.scopes_oneToOne h.1 h'.1
  identities_oneToOne := ρ.identities_oneToOne

namespace Relates
variable (h : ρ.Relates alike around st st')
include h

theorem mono (halike : ∀ v v', alike v v' → alike' v v')
    (haround : ∀ sc sc' p p', ρ.scopes sc sc' → around sc sc' p p' → around' sc sc' p p') :
    ρ.Relates alike' around' st st' where
  made := h.made
  handedOut := h.handedOut
  frames sc sc' hsc := rel_mono (h.frames sc sc' hsc) fun _ _ hf =>
    hf.mono halike fun p p' => haround sc sc' p p' hsc

/-- The scopes that are made next correspond to none yet. -/
theorem scope_fresh : (∀ u, ¬ ρ.scopes ⟨st.frames.size⟩ u) ∧ ∀ u, ¬ ρ.scopes u ⟨st'.frames.size⟩ :=
  ⟨fun u hu => Nat.lt_irrefl _ (h.made _ u hu).1, fun u hu => Nat.lt_irrefl _ (h.made u _ hu).2⟩

/-- The identities that are handed out next correspond to none yet. -/
theorem identity_fresh : (∀ j, ¬ ρ.identities st.nextIdentity j) ∧
    ∀ j, ¬ ρ.identities j st'.nextIdentity :=
  ⟨fun j hj => Nat.lt_irrefl _ (h.handedOut _ j hj).1,
    fun j hj => Nat.lt_irrefl _ (h.handedOut j _ hj).2⟩

/-- Both runs hand out an identity. -/
theorem identify : (ρ.identify st.nextIdentity st'.nextIdentity h.identity_fresh.1
      h.identity_fresh.2).Relates alike around st.freshIdentity.2 st'.freshIdentity.2 where
  made := h.made
  handedOut := by
    rintro i i' (hi | ⟨rfl, rfl⟩)
    · obtain ⟨hlt, hlt'⟩ := h.handedOut i i' hi
      exact ⟨Nat.lt_succ_of_lt hlt, Nat.lt_succ_of_lt hlt'⟩
    · exact ⟨Nat.lt_succ_self _, Nat.lt_succ_self _⟩
  frames := h.frames

/-- Both runs bind a name in scopes that correspond. -/
theorem define {sc sc' : Scope} (hsc : ρ.scopes sc sc') (name : String) {v v' : Value}
    (hv : alike v v') :
    ρ.Relates alike around (st.define sc name v) (st'.define sc' name v') where
  made u u' hu := by simpa using h.made u u' hu
  handedOut := h.handedOut
  frames u u' hu :=
    Store.frame?_define_alike (ρ.scopes_oneToOne hsc hu) name hv (h.frames u u' hu)

/-- Both runs make a frame, and the scopes of the two correspond from now on. -/
theorem addFrame {f f' : Frame}
    (hf : f.Alike alike (around ⟨st.frames.size⟩ ⟨st'.frames.size⟩) f') :
    (ρ.join ⟨st.frames.size⟩ ⟨st'.frames.size⟩ h.scope_fresh.1 h.scope_fresh.2).Relates alike
      around (st.addFrame f).2 (st'.addFrame f').2 where
  made := by
    rw [Store.size_addFrame, Store.size_addFrame]
    rintro u u' (hu | ⟨rfl, rfl⟩)
    · obtain ⟨hlt, hlt'⟩ := h.made u u' hu
      exact ⟨Nat.lt_succ_of_lt hlt, Nat.lt_succ_of_lt hlt'⟩
    · exact ⟨Nat.lt_succ_self _, Nat.lt_succ_self _⟩
  handedOut := h.handedOut
  frames := by
    rintro u u' (hu | ⟨rfl, rfl⟩)
    · have hmade := h.made u u' hu
      rw [Store.frame?_addFrame, Store.frame?_addFrame, if_neg (by omega), if_neg (by omega)]
      exact h.frames u u' hu
    · rw [Store.frame?_addFrame, Store.frame?_addFrame, if_pos rfl, if_pos rfl]
      exact .some hf

/-- Both runs make a scope, which correspond from now on. -/
theorem child {sc sc' : Scope} {bs bs' : Table String Value} (hbs : Table.Alike alike bs bs')
    (haround : around ⟨st.frames.size⟩ ⟨st'.frames.size⟩ sc sc') :
    (ρ.join ⟨st.frames.size⟩ ⟨st'.frames.size⟩ h.scope_fresh.1 h.scope_fresh.2).Relates alike
      around (st.child sc bs).2 (st'.child sc' bs').2 :=
  h.addFrame ⟨hbs, .some haround⟩

/-- What the runs do to other frames makes no difference, as long as no identity is handed out
a second time. -/
theorem of_frames {st₁ st₁' : Store}
    (hframes : ∀ sc f, st.frame? sc = some f → (∃ sc', ρ.scopes sc sc') → st₁.frame? sc = some f)
    (hframes' : ∀ sc f, st'.frame? sc = some f → (∃ u, ρ.scopes u sc) → st₁'.frame? sc = some f)
    (hnext : ∀ i i', ρ.identities i i' → i < st₁.nextIdentity ∧ i' < st₁'.nextIdentity) :
    ρ.Relates alike around st₁ st₁' := by
  have hsame : ∀ sc sc', ρ.scopes sc sc' → ∃ f f', st₁.frame? sc = some f ∧
      st₁'.frame? sc' = some f' ∧ f.Alike alike (around sc sc') f' := by
    intro sc sc' hsc
    have halike := h.frames sc sc' hsc
    have hf := Array.getElem?_eq_getElem (h.made sc sc' hsc).1
    have hf' := Array.getElem?_eq_getElem (h.made sc sc' hsc).2
    refine ⟨_, _, hframes sc _ hf ⟨sc', hsc⟩, hframes' sc' _ hf' ⟨sc, hsc⟩, ?_⟩
    rw [Store.frame?, hf, Store.frame?, hf'] at halike
    cases halike with
    | some halike => exact halike
  refine ⟨fun sc sc' hsc => ?_, hnext, fun sc sc' hsc => ?_⟩
  · obtain ⟨f, f', hf, hf', -⟩ := hsame sc sc' hsc
    exact ⟨(Array.getElem?_eq_some_iff.1 hf).1, (Array.getElem?_eq_some_iff.1 hf').1⟩
  · obtain ⟨f, f', hf, hf', halike⟩ := hsame sc sc' hsc
    rw [hf, hf']
    exact .some halike

end Relates
end Renaming

/-! ## Stores that are the same up to renaming -/

/-- Partners have identities that correspond, or have none. -/
def Partners.renamed {identities : Identity → Identity → Prop} (h : OneToOne identities) :
    Partners where
  marks v v' := Option.Rel identities v.identity? v'.identity?
  plain v hv := by
    rw [hv]
    exact .none
  agrees v v' w w' hv hw := by
    generalize v.identity? = i, v'.identity? = i' at hv
    generalize w.identity? = j, w'.identity? = j' at hw
    cases hv with
    | none => cases hw <;> simp
    | some hi =>
      cases hw with
      | none => simp
      | some hj => simpa using h hi hj

/-- In scopes that correspond every tree is evaluated alike. -/
def Matching.renamed (ρ : Renaming) : Matching where
  toPartners := .renamed ρ.identities_oneToOne
  admits sc sc' _ := ρ.scopes sc sc'
  closes sc sc' _ _ := ρ.scopes sc sc'
  quoted _ := True
  parts _ _ _ h _ _ := h
  functions _ _ _ _ h := h.elim id id
  quotations sc sc' arg h := by
    refine Dialogue.asks_of_forall (fun _ _ _ => h) (fun r => ?_) _
    cases r <;> trivial

/-- What corresponds in `ρ` does in `σ`. -/
structure Renaming.Within (ρ σ : Renaming) : Prop where
  scopes : ∀ sc sc', ρ.scopes sc sc' → σ.scopes sc sc'
  identities : ∀ i i', ρ.identities i i' → σ.identities i i'

instance : LE Renaming := ⟨Renaming.Within⟩

theorem Matching.renamed_le {ρ σ : Renaming} : renamed ρ ≤ renamed σ ↔ ρ ≤ σ := by
  constructor
  · refine fun h => ⟨fun sc sc' hsc => h.admits sc sc' (.int 0) hsc, fun i i' hi => ?_⟩
    have hmarks : (renamed σ).marks (.array i []) (.array i' []) := h.marks _ _ (.some hi)
    cases hmarks with
    | some hi => exact hi
  · refine fun h => ⟨fun sc sc' _ => h.scopes sc sc', fun sc sc' _ _ => h.scopes sc sc',
      fun _ => Iff.rfl, fun v v' hv => ?_⟩
    exact rel_mono hv h.identities

/-- The scopes `p` and `p'` correspond, and were made before `sc` and `sc'`. -/
def Renaming.Encloses (ρ : Renaming) (sc sc' p p' : Scope) : Prop :=
  ρ.scopes p p' ∧ p.index < sc.index ∧ p'.index < sc'.index

/-- As far as the renaming goes, the stores are the same; and the same has been printed since
`before` and `before'`. -/
structure Store.Renamed (before before' : String) (ρ : Renaming) (st st' : Store) : Prop where
  relates : ρ.Relates (Matching.renamed ρ).Alike ρ.Encloses st st'
  output : ∃ printed, st.output = before ++ printed ∧ st'.output = before' ++ printed

namespace Store
variable {before before' : String} {ρ σ : Renaming} {st st' : Store}

/-- What is alike stays alike when more corresponds. -/
theorem Renamed.grow (h : Renamed before before' ρ st st') (hle : ρ ≤ σ) :
    ρ.Relates (Matching.renamed σ).Alike σ.Encloses st st' :=
  h.relates.mono (fun _ _ hv => hv.mono (Matching.renamed_le.2 hle)) fun _ _ _ _ _ hp =>
    ⟨hle.scopes _ _ hp.1, hp.2⟩

/-- The relation between two runs from stores that are the same up to renaming. -/
def renamed (before before' : String) : StoreRelation :=
  fun M st st' => ∃ ρ, M = .renamed ρ ∧ Renamed before before' ρ st st'

/-- New scopes inside corresponding ones correspond. -/
theorem Renamed.child (h : Renamed before before' ρ st st') {sc sc' : Scope}
    (hsc : ρ.scopes sc sc') {bs bs' : Table String Value}
    (hbs : Table.Alike (Matching.renamed ρ).Alike bs bs') :
    ∃ σ, ρ ≤ σ ∧ Renamed before before' σ (st.child sc bs).2 (st'.child sc' bs').2 ∧
      σ.scopes ⟨st.frames.size⟩ ⟨st'.frames.size⟩ := by
  obtain ⟨hfresh, hfresh'⟩ := h.relates.scope_fresh
  have hle : ρ ≤ ρ.join ⟨st.frames.size⟩ ⟨st'.frames.size⟩ hfresh hfresh' :=
    ⟨fun _ _ => .inl, fun _ _ => id⟩
  refine ⟨_, hle, ⟨(h.grow hle).child ?_ ⟨.inl hsc, h.relates.made sc sc' hsc⟩, h.output⟩,
    .inr ⟨rfl, rfl⟩⟩
  exact hbs.mono fun _ _ hv => ⟨hv.1, hv.2.mono (Matching.renamed_le.2 hle)⟩

/-- Evaluation goes alike up to renaming. -/
theorem laws_renamed (before before' : String) : (renamed before before').Laws where
  fresh := by
    rintro _ st st' f g ⟨ρ, rfl, h⟩ hmakes
    obtain ⟨hfresh, hfresh'⟩ := h.relates.identity_fresh
    have hle : ρ ≤ ρ.identify st.nextIdentity st'.nextIdentity hfresh hfresh' :=
      ⟨fun _ _ => id, fun _ _ => .inl⟩
    refine ⟨_, Matching.renamed_le.2 hle, ⟨_, rfl, (h.grow hle).identify, h.output⟩, ?_⟩
    show Option.Rel _ (f _).identity? (g _).identity?
    rw [hmakes.labelled, hmakes.labelled']
    exact .some (.inr ⟨rfl, rfl⟩)
  lookup := by
    rintro _ st st' sc sc' name ⟨ρ, rfl, h⟩ hadmits
    refine lookup_related (fun sc sc' hsc => .inr ?_) hadmits
    refine rel_mono (h.relates.frames sc sc' hsc) fun f f' hf => hf.mono (fun _ _ => id) ?_
    exact fun p p' hp => ⟨hp.1, iff_of_true hp.2.1 hp.2.2⟩
  define := by
    rintro _ st st' sc sc' name e v v' ⟨ρ, rfl, h⟩ hadmits hv
    exact ⟨ρ, rfl, h.relates.define hadmits name hv, h.output⟩
  block := by
    rintro _ st st' sc sc' ss ⟨ρ, rfl, h⟩ hadmits
    obtain ⟨σ, hle, hchild, hnew⟩ := h.child hadmits .nil
    exact ⟨_, Matching.renamed_le.2 hle, ⟨σ, rfl, hchild⟩, fun s _ => hnew⟩
  body := by
    rintro _ st st' sc sc' ps body args args' ⟨ρ, rfl, h⟩ hcloses hargs -
    obtain ⟨σ, hle, hchild, hnew⟩ := h.child hcloses (bindParams_alike hargs ps)
    exact ⟨_, Matching.renamed_le.2 hle, ⟨σ, rfl, hchild⟩, hnew⟩
  printLine := by
    rintro _ st st' line ⟨ρ, rfl, h⟩
    obtain ⟨printed, hout, hout'⟩ := h.output
    refine ⟨ρ, rfl, ⟨h.relates.made, h.relates.handedOut, h.relates.frames⟩,
      printed ++ line ++ "\n", ?_, ?_⟩
    · simp only [Store.printLine, hout, String.append_assoc]
    · simp only [Store.printLine, hout', String.append_assoc]

/-- Two computations that go alike come to stores that are the same up to renaming. -/
theorem Renamed.run (h : Renamed before before' ρ st st') {depth : Nat} {α : Type}
    {x y : Computation α} {post : Matching → α → α → Prop}
    (hxy : ((renamed before before').pairing depth).holds (.renamed ρ) x y post) :
    ∃ σ, ρ ≤ σ ∧ Renamed before before' σ (x.outcome evalRule depth st).store
        (y.outcome evalRule depth st').store ∧
      Both Eq (post (.renamed σ)) (x.outcome evalRule depth st).result
        (y.outcome evalRule depth st').result := by
  obtain ⟨-, M, hle, ⟨σ, rfl, hσ⟩, hresult⟩ := hxy _ st st' (Matching.le_refl _) ⟨ρ, rfl, h⟩
  exact ⟨σ, Matching.renamed_le.1 hle, hσ, hresult⟩

/-- What is noted makes no difference. -/
theorem Renamed.note (h : Renamed before before' ρ st st') (n n' : Note) :
    Renamed before before' ρ (st.note n) (st'.note n') :=
  ⟨⟨h.relates.made, h.relates.handedOut, h.relates.frames⟩, h.output⟩

/-- What has been printed before makes no difference. -/
theorem Renamed.quiet (h : Renamed before before' ρ st st') : Renamed "" "" ρ st.quiet st'.quiet :=
  ⟨⟨h.relates.made, h.relates.handedOut, h.relates.frames⟩, "", rfl, rfl⟩

theorem renamed_notes (before before' : String) (depth : Nat) (M : Matching) (n : Note) :
    ((renamed before before').pairing depth).holds M (modify (Store.note n))
      (modify (Store.note n)) fun _ _ _ => True := by
  rintro M₁ st st' - ⟨ρ, rfl, h⟩
  exact ⟨by simp, _, Matching.le_refl _, ⟨ρ, rfl, h.note n n⟩, .ok trivial⟩

end Store
end Monkey
