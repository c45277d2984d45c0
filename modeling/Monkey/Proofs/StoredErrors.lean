import Monkey.Proofs.Calls
import Monkey.Proofs.History

/-!
# Errors are never stored

An error is a value only as what an evaluation comes to, on its way up. Whatever
keeps a value looks at it first: a `let` before it binds a name, a call before it
binds parameters, a literal before it takes an item or an entry, a `return` before
it puts its marker around what it returns. So no frame ever binds an error, and no
array, hash or marker has one inside.

That is an invariant of the store, and one of the simplest: it asks nothing of
trees, of scopes, or of where markers come from.

## Main definitions

* `Value.Storable` — the values that may be kept.

## Main results

* `Regime.stable_storable` — evaluation keeps stores free of errors.
* `Session.no_error_stored` — in a session errors are stored at no time.
-/

namespace Monkey

open Monkey.Computation

/-- Values that may be kept: all but errors. -/
def Value.Storable (v : Value) : Prop := v.isError = false

/-- Markers are no errors, so they may be kept; what is inside them is looked at on its own. -/
theorem Value.storable_returned (i : Identity) (v : Value) : (returned i v).Storable := rfl

theorem Value.storable_of_isData {v : Value} (h : v.isData = true) : v.Storable := by
  cases v with
  | error i f => cases h
  | _ => rfl

namespace Regime

/-- No frame binds an error, or a value with an error inside. -/
def storable : Regime where
  known _ := True
  invariant st := st.Every Value.Storable

theorem stable_storable :
    storable.Stable Value.Storable (fun _ => True) fun _ => True where
  built _ _ := trivial
  spliced _ _ _ _ := trivial
  quoted _ _ := ⟨fun _ => trivial, fun _ => rfl⟩
  data _ h := Value.storable_of_isData h
  functions _ _ _ _ := rfl
  macros _ _ _ _ := rfl
  markers _ _ _ _ i v _ _ := Value.storable_returned i v
  frames _ _ h _ hst := Store.every_of_frames hst h
  lookup _ _ _ _ hst hv := Store.every_lookup hst hv
  addFrame _ _ hst hb := ⟨Store.every_addFrame hst hb, trivial⟩
  define _ _ _ _ hst _ hv := Store.every_define hst hv

end Regime

/-- What is true of a store without errors stays true through an evaluation: it leaves none behind,
it comes to an error or to a value without errors inside, and what is called in it is called with
such values. -/
theorem Visit.storable_outcome {w : Visit} (h : w.store.Every Value.Storable) :
    (w.outcome evalRule).store.Every Value.Storable ∧
      (∀ v, (w.outcome evalRule).result = .ok v → v.isError = true ∨ v.Every Value.Storable) ∧
      ∀ f args st, w.Calls f args st →
        st.Every Value.Storable ∧ ∀ v ∈ f :: args, v.Every Value.Storable := by
  have S := Regime.stable_storable
  obtain ⟨_, hend, hresult⟩ :=
    S.eval (w.depth + 1) w.node w.scope trivial w.store h fun _ _ => trivial
  rw [outcome_eval_succ] at hend hresult
  refine ⟨hend, hresult, ?_⟩
  rintro f args st ⟨callee, operands, _, _, hcalls⟩
  have hevals := fun m (_ : m ∈ callee :: operands) => S.eval w.depth m w.scope trivial
  obtain ⟨_, hstore, hpost⟩ := Upkeep.evalOperands hevals w.store h fun _ _ => trivial
  have hvalues := hpost (.ok (f, args))
  rw [hcalls] at hstore hvalues
  exact ⟨hstore, hvalues rfl⟩

namespace Session

/-- Errors are never stored. After any texts that were run one after the other, and whenever an
evaluation begins or ends while another one is run, no frame binds an error or a value with an
error inside. What an evaluation comes to is an error or has none inside, what is passed in
a call is no error and has none inside, and the same is true of what the text runs to and of the
session that it leaves. -/
theorem no_error_stored (history : List Entry) (depth : Nat) (source : String) :
    (after history).store.Every Value.Storable ∧
      (∀ w ∈ (after history).visits depth source,
        w.store.Every Value.Storable ∧
        (w.outcome evalRule).store.Every Value.Storable ∧
        (∀ v, (w.outcome evalRule).result = .ok v → v.isError = true ∨ v.Every Value.Storable) ∧
        ∀ f args st, w.Calls f args st →
          st.Every Value.Storable ∧ ∀ v ∈ f :: args, v.Every Value.Storable) ∧
      ((after history).next depth source).store.Every Value.Storable ∧
      ∀ v, (after history).Yields depth source v → v.isError = true ∨ v.Every Value.Storable := by
  have S := Regime.stable_storable
  have hstore : (after history).store.Every Value.Storable :=
    after_invariant S trivial trivial (every_new _) history fun _ _ => trivial
  have hknown : ∀ w ∈ (after history).visits depth source, Regime.storable.known w :=
    fun _ _ => trivial
  obtain ⟨hvisits, hnext, hyields⟩ := invariant_attempt S trivial trivial hstore hknown
  exact ⟨hstore, fun w hw => ⟨hvisits w hw, Visit.storable_outcome (hvisits w hw)⟩, hnext, hyields⟩

end Session
end Monkey
