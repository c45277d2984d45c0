import Monkey.Proofs.ErrorContexts
import Monkey.Proofs.Sameness

/-!
# Division

A quotient is rounded toward zero. It is computed from the magnitudes of the two numbers,
which are divided with the remainder left out, and its sign from theirs. What is meant is
told by the remainder: it is smaller than the divisor, and there is none or it has the sign
of the dividend. Only one number leaves such a remainder, for numbers of any size.

## Main definitions

* `Value.IsQuotient` — the number that leaves the right remainder.

## Main results

* `Value.isQuotient_iff` — the quotient that is computed is that number.
* `Visit.outcome_division` — what divisions come to.
-/

namespace Monkey

open Monkey.Computation Monkey.Attempt

namespace Value
variable {a b q : Int}

/-- Dividing `a` by `b` gives `q`, and a remainder that is smaller than `b`. If there is one it has
the sign of `a`. -/
def IsQuotient (a b q : Int) : Prop :=
  (a - q * b).natAbs < b.natAbs ∧ (a - q * b = 0 ∨ (a - q * b).sign = a.sign)

instance (a b q : Int) : Decidable (IsQuotient a b q) := inferInstanceAs (Decidable (_ ∧ _))

theorem quotient_eq_tdiv (a b : Int) : quotient a b = a.tdiv b := by
  unfold quotient
  cases a with
  | ofNat m =>
    have hm : ¬ Int.ofNat m < 0 := Int.not_lt.2 (Int.natCast_nonneg m)
    cases b with
    | ofNat n =>
      have hn : ¬ Int.ofNat n < 0 := Int.not_lt.2 (Int.natCast_nonneg n)
      exact if_pos (iff_of_false hm hn)
    | negSucc n => exact if_neg fun h => hm (h.2 (Int.negSucc_lt_zero n))
  | negSucc m =>
    have hm : Int.negSucc m < 0 := Int.negSucc_lt_zero m
    cases b with
    | ofNat n =>
      have hn : ¬ Int.ofNat n < 0 := Int.not_lt.2 (Int.natCast_nonneg n)
      exact if_neg fun h => hn (h.1 hm)
    | negSucc n => exact if_pos (iff_of_true hm (Int.negSucc_lt_zero n))

theorem isQuotient_quotient (a : Int) (hb : b ≠ 0) : IsQuotient a b (quotient a b) := by
  have hremainder : a - quotient a b * b = a.tmod b := by
    rw [quotient_eq_tdiv, Int.tmod_def, Int.mul_comm]
  unfold IsQuotient
  rw [hremainder, Int.natAbs_tmod, Int.sign_tmod]
  refine ⟨Nat.mod_lt _ (Int.natAbs_pos.2 hb), ?_⟩
  by_cases hdvd : b ∣ a
  · exact .inl (Int.tmod_eq_zero_of_dvd hdvd)
  · exact .inr (if_neg hdvd)

/-- No other number leaves such a remainder. -/
theorem IsQuotient.eq_quotient (h : IsQuotient a b q) : q = quotient a b := by
  obtain ⟨hlt, hsign⟩ := h
  have hb : b ≠ 0 := Int.natAbs_pos.1 (Nat.zero_lt_of_lt hlt)
  have hsum : a - q * b + b * q = a := by rw [Int.mul_comm b q, Int.sub_add_cancel]
  generalize a - q * b = r at hlt hsign hsum
  rw [quotient_eq_tdiv]
  rcases Int.le_total 0 a with ha | ha
  · have hr : 0 ≤ r := by
      rcases hsign with rfl | hsign
      · exact Int.le_refl 0
      · exact Int.sign_nonneg_iff.1 (hsign ▸ Int.sign_nonneg_iff.2 ha)
    exact ((Int.tdiv_tmod_unique ha hb).2 ⟨hsum, hr, by omega⟩).1.symm
  · have hr : r ≤ 0 := by
      rcases hsign with rfl | hsign
      · exact Int.le_refl 0
      · exact Int.sign_nonpos_iff.1 (hsign ▸ Int.sign_nonpos_iff.2 ha)
    exact ((Int.tdiv_tmod_unique' ha hb).2 ⟨hsum, by omega, hr⟩).1.symm

theorem isQuotient_iff (hb : b ≠ 0) : IsQuotient a b q ↔ q = quotient a b :=
  ⟨IsQuotient.eq_quotient, fun h => h ▸ isQuotient_quotient a hb⟩

/-- The remainder of the opposite number is the opposite remainder. -/
theorem IsQuotient.neg_left (h : IsQuotient a b q) : IsQuotient (-a) b (-q) := by
  have hremainder : -a - -q * b = -(a - q * b) := by
    rw [Int.neg_mul]
    omega
  unfold IsQuotient
  rw [hremainder, Int.natAbs_neg, Int.neg_eq_zero, Int.sign_neg, Int.sign_neg, Int.neg_inj]
  exact h

/-- The opposite divisor leaves the same remainder. -/
theorem IsQuotient.neg_right (h : IsQuotient a b q) : IsQuotient a (-b) (-q) := by
  unfold IsQuotient
  rw [Int.neg_mul_neg, Int.natAbs_neg]
  exact h

/-- What division makes of two numbers. -/
theorem applyInfix_division (h : IsQuotient a b q) :
    applyInfix "/" (.int a) (.int b) = .ok (.int q) := by
  have hb : b ≠ 0 := Int.natAbs_pos.1 (Nat.zero_lt_of_lt h.1)
  rw [h.eq_quotient]
  exact if_neg hb

end Value

/-- An operator is applied to the values of its operands. -/
theorem Evaluates.applies {depth : Nat} {sc : Scope} {l r : Node} {u v : Value} {st st' : Store}
    (h : Evaluates depth sc [l, r] st [u, v] st') (op : String) :
    (⟨depth, .infixOp l op r, sc, st⟩ : Visit).Applies op u v st' :=
  ⟨l, r, rfl, h.outcome_both fun a b => pure (a, b)⟩

namespace Visit
variable {w : Visit} {st : Store}

/-- Where an operator makes a value, this is what the visit comes to. -/
theorem Applies.outcome_of_ok {op : String} {l r v : Value} (h : w.Applies op l r st)
    (hv : Value.applyInfix op l r = .ok v) : w.outcome evalRule = ⟨.ok v, st⟩ := by
  rw [h.outcome, hv]
  rfl

/-- Where it makes none, the visit comes to a new error. -/
theorem Applies.outcome_of_error {op : String} {l r : Value} {fault : Fault}
    (h : w.Applies op l r st) (hfault : Value.applyInfix op l r = .error fault) :
    w.outcome evalRule = ⟨.ok (.error st.nextIdentity fault), st.freshIdentity.2⟩ := by
  rw [h.outcome, hfault]
  rfl

/-- A division by a number other than zero comes to the one number that leaves a remainder smaller
than the divisor, of the sign of the dividend, or none. It does nothing else. With the opposite
dividend or the opposite divisor it comes to the opposite number. A division by zero is an error,
whatever is divided. -/
theorem outcome_division (a b : Int) :
    (b ≠ 0 → ∃ q, (∀ p, Value.IsQuotient a b p ↔ p = q) ∧
      (∀ sc st, (Node.infixOp (.int a) "/" (.int b)).evaluate 2 sc st = ⟨.ok (.int q), st⟩) ∧
      ∀ (w : Visit) (st : Store),
        (w.Applies "/" (.int a) (.int b) st → w.outcome evalRule = ⟨.ok (.int q), st⟩) ∧
        (w.Applies "/" (.int (-a)) (.int b) st → w.outcome evalRule = ⟨.ok (.int (-q)), st⟩) ∧
        (w.Applies "/" (.int a) (.int (-b)) st → w.outcome evalRule = ⟨.ok (.int (-q)), st⟩)) ∧
    ∀ (w : Visit) (st : Store), w.Applies "/" (.int a) (.int 0) st →
      w.outcome evalRule =
        ⟨.ok (.error st.nextIdentity .divisionByZero), st.freshIdentity.2⟩ ∧
      Fault.divisionByZero.message = "division by zero" := by
  refine ⟨fun hb => ?_, fun w st h => ⟨h.outcome_of_error rfl, rfl⟩⟩
  have hq := Value.isQuotient_quotient a hb
  have happlies {w : Visit} {st : Store} (h : w.Applies "/" (.int a) (.int b) st) :
      w.outcome evalRule = ⟨.ok (.int (Value.quotient a b)), st⟩ :=
    h.outcome_of_ok (Value.applyInfix_division hq)
  refine ⟨Value.quotient a b, fun p => Value.isQuotient_iff hb, fun sc st => ?_,
    fun w st => ⟨happlies, fun h => ?_, fun h => ?_⟩⟩
  · have hliterals : Evaluates 1 sc [.int a, .int b] st [.int a, .int b] st :=
      .cons rfl rfl (.cons rfl rfl .nil)
    rw [Node.evaluate, run_eq, outcome_eval]
    exact happlies (hliterals.applies "/")
  · exact h.outcome_of_ok (Value.applyInfix_division hq.neg_left)
  · exact h.outcome_of_ok (Value.applyInfix_division hq.neg_right)

/-- The quotient of `-7` and `2` is `-3`, and not the next smaller number; `-7 / 0` is an error. -/
theorem outcome_division_seven :
    let seven : Node := .prefixOp "-" (.int 7)
    let byTwo : Visit := ⟨2, .infixOp seven "/" (.int 2), ⟨0⟩, .empty⟩
    let byZero : Visit := ⟨2, .infixOp seven "/" (.int 0), ⟨0⟩, .empty⟩
    byTwo.Applies "/" (.int (-7)) (.int 2) .empty ∧
      byTwo.outcome evalRule = ⟨.ok (.int (-3)), .empty⟩ ∧
      byZero.Applies "/" (.int (-7)) (.int 0) .empty ∧
      byZero.outcome evalRule = ⟨.ok (.error 0 .divisionByZero), Store.empty.freshIdentity.2⟩ := by
  intro seven byTwo byZero
  have hseven : evalWithin evalRule 2 seven ⟨0⟩ .empty = ⟨.ok (.int (-7)), .empty⟩ := by
    show (evalRule seven ⟨0⟩).outcome evalRule 1 .empty = _
    rw [evalRule, settle_need_bind, Computation.outcome_bind, outcome_eval]
    rfl
  have hbyTwo : byTwo.Applies "/" (.int (-7)) (.int 2) .empty :=
    Evaluates.applies (.cons hseven rfl (.cons rfl rfl .nil)) "/"
  have hbyZero : byZero.Applies "/" (.int (-7)) (.int 0) .empty :=
    Evaluates.applies (.cons hseven rfl (.cons rfl rfl .nil)) "/"
  obtain ⟨q, hq, -, hdivides⟩ := (outcome_division 7 2).1 (by decide)
  obtain rfl : 3 = q := (hq 3).1 (by decide)
  exact ⟨hbyTwo, (hdivides byTwo .empty).2.1 hbyTwo,
    hbyZero, ((outcome_division (-7) 0).2 byZero .empty hbyZero).1⟩

end Visit
end Monkey
