import Monkey.Proofs.History
import Monkey.Proofs.PairedExpansion

/-!
# What there is in a run

Values refer to things by number: functions and macros to the scope that they
remember, and all values but data to the identity that tells them apart. An
`Inventory` lists what there is, and the store of a run stays in order: what is bound
somewhere refers only to things that there are, and the scope around a scope was made
before it.

What may be said of the values that there are is left open. A `Ledger` is any
statement about them, and the identity that is handed out next, that making a value
keeps.

A run that is set beside itself goes alike, so all that is needed is the relation
between a store and itself which says that it is in order.

## Main definitions

* `Inventory`, `Value.InStock` — what there is, and values that refer to nothing else.
* `Ledger` — what making values keeps.
* `Store.Stocked` — stores that are in order.

## Main results

* `Store.laws_stocked` — every step leaves the store in order.
* `Store.Stocked.eval`, `Store.Stocked.runProgram` — so do evaluation and the run of
  a program, at each visit and at the end.
* `Session.stocked_after` — every session that is reached is in order.
-/

namespace Monkey

open Monkey.Computation

namespace Value

/-- The scope that a value remembers. -/
def closure? : Value → Option Scope
  | function _ _ _ sc | macroFn _ _ _ sc => some sc
  | _ => none

end Value

/-- What there is: how many scopes, and which values that have identities of their own. -/
structure Inventory where
  scopes : Nat
  values : Value → Prop

/-- At the top the value refers only to what there is. -/
structure Value.InStock (I : Inventory) (v : Value) : Prop where
  listed : v.identity? ≠ none → I.values v
  closures : ∀ sc, v.closure? = some sc → sc.index < I.scopes

/-- A statement about the values that there are and the identity that is handed out next. It stays
true when a value is made with that identity. -/
structure Ledger where
  holds : (Value → Prop) → Identity → Prop
  mint : ∀ {values : Value → Prop} {next : Identity} {v : Value}, holds values next →
    v.identity? = some next → holds (fun u => values u ∨ u = v) (next + 1)

/-- The store is in order: its scopes are those that there are, the scope around a scope was made
before it, and what is bound refers only to what there is. -/
structure Store.Stocked (ledger : Ledger) (I : Inventory) (st : Store) : Prop where
  scopes : I.scopes = st.frames.size
  values : ledger.holds I.values st.nextIdentity
  parents : ∀ sc f p, st.frame? sc = some f → f.parent = some p → p.index < sc.index
  bound : st.Every (Value.InStock I)

/-- Everything corresponds to itself, if there is such a thing. -/
def Matching.stocked (I : Inventory) : Matching where
  marks v v' := v = v' ∧ (v.identity? ≠ none → I.values v)
  plain _ h := ⟨rfl, fun hne => absurd h hne⟩
  agrees v v' w w' hv hw := by rw [hv.1, hw.1]
  admits sc sc' _ := sc = sc' ∧ sc.index < I.scopes
  closes sc sc' _ _ := sc = sc' ∧ sc.index < I.scopes
  quoted _ := True
  parts _ _ _ h _ _ := h
  functions _ _ _ _ h := h.elim id id
  quotations _ _ _ h := Dialogue.asks_of_forall (fun _ _ _ => h)
    (fun r => by cases r <;> trivial) _

/-- Lists whose members are related only to themselves are related only to themselves. -/
theorem Pointwise.eq_of_forall {α : Type} {R : α → α → Prop} {as bs : List α}
    (h : Pointwise R as bs) (hR : ∀ a b, R a b → a = b) : as = bs := by
  induction h with
  | nil => rfl
  | cons hab _ ih => rw [hR _ _ hab, ih]

namespace Value
variable {I : Inventory} {v v' : Value}

/-- A value that would look like another in the same run is that value, if it has its identity. -/
theorem eq_of_seems (h : v.Seems (.stocked I) v') (hidentity : v.identity? = v'.identity?) :
    v = v' := by
  have hsame : ∀ c c' : Value, c.Like (.stocked I) c' → c = c' := fun _ _ h => h.marks.1
  have hparts := h.parts
  cases h.heads with
  | null | int | str | bool | builtin => rfl
  | quote | error =>
    obtain rfl := Option.some.inj hidentity
    rfl
  | array | returned =>
    obtain rfl := Option.some.inj hidentity
    simpa using hparts.eq_of_forall hsame
  | hash hkeys =>
    obtain rfl := Option.some.inj hidentity
    have hentries := (Table.alike_of_keys hkeys hparts).eq_of_forall fun e e' he =>
      Prod.ext he.1 (hsame _ _ he.2)
    rw [hentries]
  | function hcloses | macroFn hcloses =>
    obtain rfl := Option.some.inj hidentity
    rw [hcloses.1]

theorem heads_of_inStock (h : v.InStock I) : (Matching.stocked I).Heads v v := by
  cases v with
  | function _ _ _ sc => exact .function ⟨rfl, h.closures sc rfl⟩
  | macroFn _ _ _ sc => exact .macroFn ⟨rfl, h.closures sc rfl⟩
  | quote => exact .quote trivial
  | hash => exact .hash rfl
  | _ => constructor

/-- What looks like a value is that value, and all of it is in stock. -/
theorem like_stocked_iff : v.Like (.stocked I) v' ↔ v = v' ∧ v.Every (InStock I) := by
  constructor
  · intro h
    refine ⟨h.marks.1, ?_⟩
    refine h.induct (motive := fun v _ => v.Every (InStock I)) fun v v' h parts => ?_
    refine .intro ⟨h.marks.2, fun sc hsc => ?_⟩ fun c hc => ?_
    · cases h.heads with
      | function hcloses | macroFn hcloses =>
        obtain rfl := Option.some.inj hsc
        exact hcloses.2
      | _ => cases hsc
    · obtain ⟨_, -, hc⟩ := parts.exists_right c hc
      exact hc
  · rintro ⟨rfl, h⟩
    exact .of_every (h.imp fun _ hu => ⟨heads_of_inStock hu, rfl, hu.listed⟩)

end Value

/-! ## Every step leaves the store in order -/

variable {I I' : Inventory}

/-- More corresponds to itself when there is more. -/
theorem Matching.stocked_mono (hscopes : I.scopes ≤ I'.scopes)
    (hvalues : ∀ v, I.values v → I'.values v) : stocked I ≤ stocked I' where
  admits _ _ _ h := ⟨h.1, Nat.lt_of_lt_of_le h.2 hscopes⟩
  closes _ _ _ _ h := ⟨h.1, Nat.lt_of_lt_of_le h.2 hscopes⟩
  quoted _ := Iff.rfl
  marks _ _ h := ⟨h.1, fun hne => hvalues _ (h.2 hne)⟩

theorem Value.InStock.mono {v : Value} (h : v.InStock I) (hscopes : I.scopes ≤ I'.scopes)
    (hvalues : ∀ v, I.values v → I'.values v) : v.InStock I' where
  listed hne := hvalues v (h.listed hne)
  closures sc hsc := Nat.lt_of_lt_of_le (h.closures sc hsc) hscopes

/-- A visit in a scope that there is, when the store is in order. -/
def Visit.Stocked (ledger : Ledger) (w : Visit) : Prop :=
  ∃ I, w.store.Stocked ledger I ∧ w.scope.index < I.scopes

namespace Store
variable {ledger : Ledger} {st st' : Store}

/-- The frames and the supply of identities are all that matters. -/
theorem Stocked.of_frames (h : st.Stocked ledger I) (hframes : st'.frames = st.frames)
    (hnext : st'.nextIdentity = st.nextIdentity) : st'.Stocked ledger I where
  scopes := by rw [h.scopes, hframes]
  values := by rw [hnext]; exact h.values
  parents sc f p hf := h.parents sc f p (by rwa [frame?, hframes] at hf)
  bound := every_of_frames h.bound hframes

/-- The value that is made with the next identity is there from then on. -/
theorem Stocked.fresh (h : st.Stocked ledger I) {v : Value}
    (hv : v.identity? = some st.nextIdentity) :
    st.freshIdentity.2.Stocked ledger { I with values := fun u => I.values u ∨ u = v } where
  scopes := h.scopes
  values := ledger.mint h.values hv
  parents := h.parents
  bound sc f hf b hb :=
    (h.bound sc f hf b hb).imp fun _ hu => hu.mono (Nat.le_refl _) fun _ => .inl

theorem Stocked.define (h : st.Stocked ledger I) (sc : Scope) (name : String) {v : Value}
    (hv : v.Every (Value.InStock I)) : (st.define sc name v).Stocked ledger I where
  scopes := by rw [size_define, h.scopes]
  values := h.values
  parents sc' f p hf hp := by
    rw [frame?_define] at hf
    split at hf
    · obtain ⟨f', hf', rfl⟩ := Option.map_eq_some_iff.1 hf
      exact h.parents sc' f' p hf' hp
    · exact h.parents sc' f p hf hp
  bound := every_define h.bound hv

/-- A scope is made inside one that there is. -/
theorem Stocked.addFrame (h : st.Stocked ledger I) {frame : Frame}
    (hparent : ∀ p, frame.parent = some p → p.index < I.scopes)
    (hbindings : ∀ b ∈ frame.bindings, b.2.Every (Value.InStock I)) :
    (st.addFrame frame).2.Stocked ledger { I with scopes := I.scopes + 1 } where
  scopes := by simp [Store.addFrame, h.scopes]
  values := h.values
  parents sc f p hf hp := by
    rw [frame?_addFrame] at hf
    split at hf
    · next hnew =>
      obtain rfl := Option.some.inj hf
      rw [hnew, ← h.scopes]
      exact hparent p hp
    · exact h.parents sc f p hf hp
  bound := by
    have hmono : ∀ v : Value, v.InStock I → v.InStock { I with scopes := I.scopes + 1 } :=
      fun v hv => hv.mono (Nat.le_succ _) fun _ => id
    refine every_addFrame (fun sc f hf b hb => (h.bound sc f hf b hb).imp hmono) fun b hb => ?_
    exact (hbindings b hb).imp hmono

/-- The store of a run set beside itself is in order. -/
def stocked (ledger : Ledger) : StoreRelation :=
  fun M st st' => st = st' ∧ ∃ I, M = .stocked I ∧ st.Stocked ledger I

/-- Every step leaves the store in order. -/
theorem laws_stocked (ledger : Ledger) : (stocked ledger).Laws where
  fresh := by
    rintro _ st _ f g ⟨rfl, I, rfl, h⟩ hmakes
    have hlabelled := hmakes.labelled st.nextIdentity
    have hsame : f st.nextIdentity = g st.nextIdentity :=
      Value.eq_of_seems (hmakes.seems _ _) (hlabelled.trans (hmakes.labelled' _).symm)
    refine ⟨_, ?_, ⟨rfl, _, rfl, h.fresh hlabelled⟩, hsame, fun _ => .inr rfl⟩
    exact Matching.stocked_mono (Nat.le_refl _) fun _ => .inl
  lookup := by
    rintro _ st _ sc _ name ⟨rfl, I, rfl, h⟩ ⟨rfl, -⟩
    cases hlookup : st.lookup name sc with
    | none => exact .none
    | some v => exact .some (Value.like_stocked_iff.2 ⟨rfl, every_lookup h.bound hlookup⟩)
  define := by
    rintro _ st _ sc _ name e v _ ⟨rfl, I, rfl, h⟩ ⟨rfl, -⟩ hv
    obtain ⟨rfl, hevery⟩ := Value.like_stocked_iff.1 hv
    exact ⟨rfl, I, rfl, h.define sc name hevery⟩
  block := by
    rintro _ st _ sc _ ss ⟨rfl, I, rfl, h⟩ ⟨rfl, hsc⟩
    have hchild : (st.child sc []).2.Stocked ledger { I with scopes := I.scopes + 1 } := by
      refine h.addFrame (fun p hp => ?_) (by simp)
      obtain rfl := Option.some.inj hp
      exact hsc
    refine ⟨_, ?_, ⟨rfl, _, rfl, hchild⟩, fun s _ => ⟨rfl, ?_⟩⟩
    · exact Matching.stocked_mono (Nat.le_succ _) fun _ => id
    · simp [h.scopes]
  body := by
    rintro _ st _ sc _ ps body args args' ⟨rfl, I, rfl, h⟩ ⟨rfl, hsc⟩ hargs -
    obtain rfl : args = args' := hargs.eq_of_forall fun _ _ h => h.marks.1
    have hbound : ∀ b ∈ bindParams ps args, b.2.Every (Value.InStock I) := by
      intro b hb
      obtain ⟨_, -, hb⟩ := (bindParams_alike hargs ps).exists_right b hb
      exact (Value.like_stocked_iff.1 hb.2).2
    have hchild : (st.child sc (bindParams ps args)).2.Stocked ledger
        { I with scopes := I.scopes + 1 } := by
      refine h.addFrame (fun p hp => ?_) hbound
      obtain rfl := Option.some.inj hp
      exact hsc
    refine ⟨_, ?_, ⟨rfl, _, rfl, hchild⟩, rfl, by simp [h.scopes]⟩
    exact Matching.stocked_mono (Nat.le_succ _) fun _ => id
  printLine := by
    rintro _ st _ line ⟨rfl, I, rfl, h⟩
    exact ⟨rfl, I, rfl, h.of_frames rfl rfl⟩

/-- A computation that goes alike beside itself leaves the store in order. -/
theorem Stocked.of_holds {depth : Nat} {α : Type} {x : Computation α}
    {post : Matching → α → α → Prop} (h : st.Stocked ledger I)
    (hx : ((stocked ledger).pairing depth).holds (.stocked I) x x post) :
    (∀ w ∈ x.visits evalRule depth st, w.Stocked ledger) ∧
      ∃ I', I.scopes ≤ I'.scopes ∧ (x.outcome evalRule depth st).store.Stocked ledger I' ∧
        ∀ a, (x.outcome evalRule depth st).result = .ok a → post (.stocked I') a a := by
  obtain ⟨hvisits, M, hle, ⟨-, I', rfl, hafter⟩, hresult⟩ :=
    hx _ st st (Matching.le_refl _) ⟨rfl, I, rfl, h⟩
  refine ⟨fun w hw => ?_, I', Nat.le_of_not_lt fun hlt => ?_, hafter, fun a ha => ?_⟩
  · obtain ⟨_, _, _, -, hadmits, rfl, I'', rfl, hw⟩ := hvisits w hw
    exact ⟨I'', hw, hadmits.2⟩
  · -- the scope behind the last of `I'` would be there in `I` and not in `I'`
    exact Nat.lt_irrefl _ (hle.admits ⟨I'.scopes⟩ ⟨I'.scopes⟩ default ⟨rfl, hlt⟩).2
  · rw [ha] at hresult
    cases hresult with
    | ok hpost => exact hpost

/-- Evaluation in a scope that there is leaves the store in order, at each visit and at the end. -/
theorem Stocked.eval (h : st.Stocked ledger I) {sc : Scope} (hsc : sc.index < I.scopes) (n : Node)
    (depth : Nat) :
    (∀ w ∈ (Computation.eval n sc).visits evalRule depth st, w.Stocked ledger) ∧
      ∃ I', I.scopes ≤ I'.scopes ∧
        ((Computation.eval n sc).outcome evalRule depth st).store.Stocked ledger I' ∧
        ∀ v, ((Computation.eval n sc).outcome evalRule depth st).result = .ok v →
          v.Every (Value.InStock I') := by
  have hadmits : (Matching.stocked I).admits sc sc n := ⟨rfl, hsc⟩
  obtain ⟨hvisits, I', hle, hafter, hvalue⟩ :=
    h.of_holds ((laws_stocked ledger).eval depth hadmits)
  exact ⟨hvisits, I', hle, hafter, fun v hv => (Value.like_stocked_iff.1 (hvalue v hv)).2⟩

/-- So does the run of a program. -/
theorem Stocked.runProgram (h : st.Stocked ledger I) {values macros : Scope}
    (hvalues : values.index < I.scopes) (hmacros : macros.index < I.scopes) (program : Node)
    (depth : Nat) :
    (∀ w ∈ (Monkey.runProgram values macros program).visits evalRule depth st,
        w.Stocked ledger) ∧
      ∃ I', I.scopes ≤ I'.scopes ∧
        ((Monkey.runProgram values macros program).outcome evalRule depth st).store.Stocked
          ledger I' ∧
        ∀ r, ((Monkey.runProgram values macros program).outcome evalRule depth st).result = .ok r →
          r.value.Every (Value.InStock I') := by
  have L := laws_stocked ledger
  have hnotes : ∀ M n, ((stocked ledger).pairing depth).holds M (modify (Store.note n))
      (modify (Store.note n)) fun _ _ _ => True := by
    rintro M n M₁ st _ - ⟨rfl, I, rfl, h⟩
    exact ⟨by simp, _, Matching.le_refl _, ⟨rfl, I, rfl, h.of_frames rfl rfl⟩, .ok trivial⟩
  have hrun := (L.correspondence depth).runProgram hnotes (M := .stocked I) (fun _ => trivial)
    (fun _ _ _ _ => L.eval depth) (fun _ => ⟨rfl, hvalues⟩) (fun _ => ⟨rfl, hmacros⟩) program
  obtain ⟨hvisits, I', hle, hafter, hvalue⟩ := h.of_holds hrun
  exact ⟨hvisits, I', hle, hafter, fun r hr => (Value.like_stocked_iff.1 (hvalue r hr).1).2⟩

end Store

namespace Session
variable {ledger : Ledger}

/-- Every session that is reached is in order, if a ledger is that begins with nothing. -/
theorem stocked_after (hempty : ledger.holds (fun _ => False) 0) (history : List Entry) :
    ∃ I, (after history).store.Stocked ledger I ∧
      (after history).values.index < I.scopes ∧ (after history).macros.index < I.scopes := by
  obtain ⟨hv, hm⟩ := scopes_after history
  rw [hv, hm]
  refine after_induction (P := fun st => ∃ I, st.Stocked ledger I ∧
    new.values.index < I.scopes ∧ new.macros.index < I.scopes) ?_ ?_ ?_ history
  · have hnone : Store.empty.Stocked ledger ⟨0, fun _ => False⟩ :=
      ⟨rfl, hempty, by simp [Store.frame?, Store.empty], by simp [Store.Every, Store.frame?, Store.empty]⟩
    have hroot : ∀ {st : Store} {I : Inventory}, st.Stocked ledger I →
        (st.addFrame ⟨none, []⟩).2.Stocked ledger { I with scopes := I.scopes + 1 } :=
      fun h => h.addFrame (by simp) (by simp)
    exact ⟨_, hroot (hroot hnone), by decide, by decide⟩
  · rintro st ⟨I, h, hscopes⟩
    exact ⟨I, h.of_frames rfl rfl, hscopes⟩
  · rintro program depth st ⟨I, h, hvalues, hmacros⟩
    obtain ⟨-, I', hle, hrun, -⟩ := h.runProgram hvalues hmacros program depth
    exact ⟨I', hrun, by omega, by omega⟩

/-- At every visit in the course of a text the store is in order. -/
theorem stocked_visits (hempty : ledger.holds (fun _ => False) 0) (history : List Entry)
    (depth : Nat) (source : String) :
    ∀ w ∈ (after history).visits depth source, w.Stocked ledger := by
  obtain ⟨I, h, hvalues, hmacros⟩ := stocked_after hempty history
  unfold visits
  cases Source.parse source with
  | error _ => simp
  | ok program =>
    have hquiet : (after history).store.quiet.Stocked ledger I := h.of_frames rfl rfl
    exact (hquiet.runProgram hvalues hmacros program depth).1

end Session
end Monkey
