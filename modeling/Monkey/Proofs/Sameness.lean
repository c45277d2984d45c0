import Monkey.Proofs.Inventory

/-!
# One and the same value

Numbers are compared by what they are, and strings cannot be compared at all. All
other values are compared by identity, and that is sound because an identity is handed
out once, for one value, which never changes: a value that is bound, passed on, put
into a collection and taken out again is still the same, and no other has its
identity. Booleans, `null` and the builtins have none, and are the same wherever they
come from.

## Main definitions

* `Ledger.distinct` — no two values that there are have the same identity.
* `Visit.Applies` — an operator is applied to two values.

## Main results

* `Value.identical_iff` — among such values, to be identical is to be the same.
* `Session.applies_equality` — what `==` and `!=` say of two values in any session.
-/

namespace Monkey

open Monkey.Computation Monkey.Attempt

/-- The values that there are have identities that were handed out, and no two have the same. -/
def Ledger.distinct : Ledger where
  holds values next := (∀ v, values v → ∃ i < next, v.identity? = some i) ∧
    ∀ v w, values v → values w → v.identity? = w.identity? → v = w
  mint {values next v} h hv := by
    obtain ⟨hbelow, hdistinct⟩ := h
    -- no value that there was has the identity that is new
    have hnew : ∀ u, values u → u.identity? ≠ v.identity? := by
      intro u hu heq
      obtain ⟨i, hi, hidentity⟩ := hbelow u hu
      rw [hidentity, hv] at heq
      exact absurd (Option.some.inj heq) (Nat.ne_of_lt hi)
    refine ⟨?_, ?_⟩
    · rintro u (hu | rfl)
      · obtain ⟨i, hi, hidentity⟩ := hbelow u hu
        exact ⟨i, Nat.lt_succ_of_lt hi, hidentity⟩
      · exact ⟨next, Nat.lt_succ_self next, hv⟩
    · rintro u w (hu | rfl) (hw | rfl) heq
      · exact hdistinct u w hu hw heq
      · exact absurd heq (hnew u hu)
      · exact absurd heq.symm (hnew w hw)
      · rfl

namespace Value
variable {I : Inventory} {l r : Value}

theorem identical_self (v : Value) : identical v v = true := by
  cases v <;> simp [identical]

/-- Values are identical by their identities, if they have any, and else by what they are. -/
theorem identity?_of_identical (h : identical l r = true) :
    l.identity? = r.identity? ∧ (l.identity? = none → l = r) := by
  cases l <;> cases r <;> simp_all [identical, identity?]

/-- Of values that there are, none is identical to any but itself. -/
theorem identical_iff
    (hdistinct : ∀ v w, I.values v → I.values w → v.identity? = w.identity? → v = w)
    (hl : l.InStock I) (hr : r.InStock I) : identical l r = true ↔ l = r := by
  constructor
  · intro h
    obtain ⟨hidentity, hplain⟩ := identity?_of_identical h
    by_cases hnone : l.identity? = none
    · exact hplain hnone
    · exact hdistinct l r (hl.listed hnone) (hr.listed (hidentity ▸ hnone)) hidentity
  · rintro rfl
    exact identical_self l

/-- Values are compared by identity, unless both are strings. -/
theorem applyInfix_equality (h : ¬ (l.kind = .string ∧ r.kind = .string)) :
    applyInfix "==" l r = .ok (.bool (identical l r)) ∧
      applyInfix "!=" l r = .ok (.bool !identical l r) := by
  unfold applyInfix
  split
  · exact ⟨rfl, rfl⟩
  · exact absurd ⟨rfl, rfl⟩ h
  · exact ⟨rfl, rfl⟩

end Value

/-! ## Operators in a run -/

/-- The values of the two operands of an operator. -/
def evalBoth (a b : Node) (sc : Scope) : Attempt (Value × Value) := do
  let l ← need a sc
  let r ← need b sc
  return (l, r)

/-- At this visit an operator is applied to the values `l` and `r`, when the store is `st`. -/
def Visit.Applies (w : Visit) (op : String) (l r : Value) (st : Store) : Prop :=
  ∃ a b, w.node = .infixOp a op b ∧
    (evalBoth a b w.scope).run.outcome evalRule w.depth w.store = ⟨.ok (.ok (l, r)), st⟩

section Applies
variable {w : Visit} {op : String} {l r : Value} {st : Store}

/-- A visit at which an operator is applied comes to what the operator makes of the two values. -/
theorem Visit.Applies.outcome (h : w.Applies op l r st) :
    w.outcome evalRule =
      (settle (check (Value.applyInfix op l r))).outcome evalRule w.depth st := by
  obtain ⟨depth, node, sc, st₀⟩ := w
  obtain ⟨a, b, rfl, hoperands⟩ := h
  have hrule : evalRule (.infixOp a op b) sc =
      settle (evalBoth a b sc >>= fun p => check (Value.applyInfix op p.1 p.2)) := by
    simp only [evalRule, evalBoth, bind_assoc, pure_bind]
  show (evalRule (.infixOp a op b) sc).outcome evalRule depth st₀ = _
  rw [hrule, settle_bind, Computation.outcome_bind, hoperands]

/-- The values that an operator is applied to are there. -/
theorem Visit.Applies.inStock {ledger : Ledger} (hw : w.Stocked ledger) (h : w.Applies op l r st) :
    ∃ I, st.Stocked ledger I ∧ l.InStock I ∧ r.InStock I := by
  obtain ⟨I, hst, hsc⟩ := hw
  obtain ⟨a, b, -, hoperands⟩ := h
  let P := (Store.stocked ledger).pairing w.depth
  have hneed : ∀ {M : Matching} (n : Node), M.admits w.scope w.scope n →
      P.attempts.holds M (need n w.scope) (need n w.scope) Matching.Alike :=
    fun n hn => Pairing.need ((Store.laws_stocked ledger).eval w.depth hn)
  have hboth : P.attempts.holds (.stocked I) (evalBoth a b w.scope) (evalBoth a b w.scope)
      fun M p p' => p.1.Like M p'.1 ∧ p.2.Like M p'.2 := by
    refine P.attempts.bind (hneed a ⟨rfl, hsc⟩) fun M₁ l l' hle hl => ?_
    refine P.attempts.bind (hneed b (hle.admits _ _ _ ⟨rfl, hsc⟩)) fun M₂ r r' hle' hr => ?_
    exact P.attempts.pure fun _ hle'' => ⟨(hl.mono hle').mono hle'', hr.mono hle''⟩
  obtain ⟨-, I', -, hafter, hresult⟩ := hst.of_holds hboth
  rw [hoperands] at hafter hresult
  cases hresult _ rfl with
  | ok hlike =>
    have hl := (Value.like_stocked_iff.1 hlike.1).2
    have hr := (Value.like_stocked_iff.1 hlike.2).2
    exact ⟨I', hafter, (Value.every_iff.1 hl).1, (Value.every_iff.1 hr).1⟩

end Applies

namespace Session

/-- Equality says what it should. Whatever was submitted before, and wherever in the run of a text
`==` is applied to two values of which one is no string, it gives a boolean: it is true exactly if
both are one and the same value, which has one kind and one text. In the same store `!=` gives the
opposite. For booleans that is to say that they agree, and `null` is always equal to `null`. -/
theorem applies_equality (history : List Entry) (depth : Nat) (source : String) {w : Visit}
    (hw : w ∈ (after history).visits depth source) {l r : Value} {st : Store}
    (h : w.Applies "==" l r st) (hstrings : ¬ (l.kind = .string ∧ r.kind = .string)) :
    ∃ b, w.outcome evalRule = ⟨.ok (.bool b), st⟩ ∧
      (settle (check (Value.applyInfix "!=" l r))).outcome evalRule w.depth st =
        ⟨.ok (.bool !b), st⟩ ∧
      (b = true ↔ l = r) ∧ (b = true → l.kind = r.kind ∧ l.inspect = r.inspect) ∧
      (∀ x y, l = .bool x → r = .bool y → (b = true ↔ x = y)) ∧
      (l = .null → r = .null → b = true) := by
  have hempty : Ledger.distinct.holds (fun _ => False) 0 := ⟨nofun, nofun⟩
  obtain ⟨I, hst, hl, hr⟩ := h.inStock (stocked_visits hempty history depth source w hw)
  obtain ⟨heq, hne⟩ := Value.applyInfix_equality hstrings
  have hsame : Value.identical l r = true ↔ l = r := Value.identical_iff hst.values.2 hl hr
  refine ⟨Value.identical l r, ?_, ?_, hsame, fun hb => ?_, ?_, ?_⟩
  · rw [h.outcome, heq]
    rfl
  · rw [hne]
    rfl
  · obtain rfl := hsame.1 hb
    exact ⟨rfl, rfl⟩
  · rintro x y rfl rfl
    rw [hsame, Value.bool.injEq]
  · rintro rfl rfl
    rfl

/-- An array that an earlier text bound is still the same when it has been put into another array
and taken out again. -/
theorem applies_equality_first :
    let history : List Entry := [⟨9, "let a = [1];"⟩]
    ∃ w ∈ (after history).visits 9 "a == first([a, 2]);", ∃ l r st,
      w.Applies "==" l r st ∧ l.kind = .array ∧ l = r ∧ l.inspect = r.inspect ∧
        w.outcome evalRule = ⟨.ok (.bool true), st⟩ := by
  intro history
  let a : Node := .ident "a"
  let b : Node := .call (.ident "first") [.array [.ident "a", .int 2]]
  have hvisit : ((after history).visits 9 "a == first([a, 2]);").any (fun w =>
      decide (w.node = .infixOp a "==" b) &&
        ((evalBoth a b w.scope).run.outcome evalRule w.depth w.store).result.toOption.any (fun r =>
          r.toOption.any fun p => decide (p.1.kind = .array)) &&
        (w.outcome evalRule).result.toOption.any Value.isTruthy) = true := by
    decide +kernel
  obtain ⟨w, hw, htest⟩ := List.any_eq_true.1 hvisit
  rw [Bool.and_eq_true, Bool.and_eq_true, decide_eq_true_iff] at htest
  obtain ⟨⟨hnode, hoperands⟩, htruthy⟩ := htest
  generalize hboth : (evalBoth a b w.scope).run.outcome evalRule w.depth w.store = o at hoperands
  obtain ⟨result, st⟩ := o
  rcases result with _ | (_ | ⟨l, r⟩)
  · cases hoperands
  · cases hoperands
  · have hkind : l.kind = .array := of_decide_eq_true hoperands
    have happlies : w.Applies "==" l r st := ⟨a, b, hnode, hboth⟩
    have hstrings : ¬ (l.kind = .string ∧ r.kind = .string) := by simp [hkind]
    obtain ⟨x, hout, -, hsame, hshown, -⟩ :=
      applies_equality history 9 "a == first([a, 2]);" hw happlies hstrings
    rw [hout] at htruthy
    obtain rfl : x = true := htruthy
    exact ⟨w, hw, l, r, st, happlies, hkind, hsame.1 rfl, (hshown rfl).2, hout⟩

end Session
end Monkey
