import Monkey.Proofs.Matching

/-!
# Judgements on two computations at a time

To say of two runs that they go alike, it is enough to say it of the steps that
computations are made of, as it is for one run. A `Pairing` is a judgement on pairs
of computations. What their answers have to do with each other depends on
a matching, and as the runs go on, more comes to correspond: so what is said of
the answers is said for some larger matching.

## Main definitions

* `Pairing` — statements about two computations that go through sequence.
* `Pairing.except` — the same for computations that may stop early.

## Main results

* `Pairing.lead` — two ways to answer questions that answer each the same lead
  a dialogue to the same end.
-/

namespace Monkey

/-- A statement about two computations and their answers that goes through sequence. -/
structure Pairing (m : Type → Type) [Monad m] where
  /-- As far as the matching goes, the computations go alike, and `post` holds of their answers. -/
  holds {α : Type} : Matching → m α → m α → (Matching → α → α → Prop) → Prop
  up {α : Type} {M M' : Matching} {x y : m α} {post : Matching → α → α → Prop} :
    M ≤ M' → holds M x y post → holds M' x y post
  pure {α : Type} {M : Matching} {a b : α} {post : Matching → α → α → Prop} :
    (∀ M', M ≤ M' → post M' a b) → holds M (Pure.pure a) (Pure.pure b) post
  bind {α β : Type} {M : Matching} {x y : m α} {f g : α → m β} {mid : Matching → α → α → Prop}
    {post : Matching → β → β → Prop} : holds M x y mid →
    (∀ M' a b, M ≤ M' → mid M' a b → holds M' (f a) (g b) post) → holds M (x >>= f) (y >>= g) post
  mono {α : Type} {M : Matching} {x y : m α} {mid post : Matching → α → α → Prop} :
    holds M x y mid → (∀ M' a b, M ≤ M' → mid M' a b → post M' a b) → holds M x y post

namespace Pairing
variable {m : Type → Type} [Monad m]

/-- A pairing of computations that may stop early, both at a time and with things that satisfy
`stop`. -/
def except (P : Pairing m) {ε : Type} (stop : Matching → ε → ε → Prop)
    (hstop : ∀ M M' e e', M ≤ M' → stop M e e' → stop M' e e') : Pairing (ExceptT ε m) where
  holds M x y post := P.holds M x.run y.run fun M' => Both (stop M') (post M')
  up := P.up
  pure h := P.pure fun M' hle => .ok (h M' hle)
  bind {α β M x y f g mid post} hx hf := by
    refine P.bind hx fun M' r r' hle hr => ?_
    cases hr with
    | ok hab => exact hf M' _ _ hle hab
    | error he => exact P.pure fun M'' hle' => .error (hstop M' M'' _ _ hle' he)
  mono hx h :=
    P.mono hx fun M' r r' hle hr => hr.mono fun a b => h M' a b hle

variable (P : Pairing m) {ε : Type} {stop : Matching → ε → ε → Prop}
  {hstop : ∀ M M' e e', M ≤ M' → stop M e e' → stop M' e e'}

theorem throw {α : Type} {M : Matching} {e e' : ε} {post : Matching → α → α → Prop}
    (h : stop M e e') :
    (P.except stop hstop).holds M (MonadExcept.throw e : ExceptT ε m α) (MonadExcept.throw e')
      post := by
  show P.holds M (Pure.pure (Except.error e)) (Pure.pure (Except.error e')) _
  exact P.pure fun M' hle => .error (hstop M M' e e' hle h)

theorem lift [LawfulMonad m] {α : Type} {M : Matching} {x y : m α}
    {post : Matching → α → α → Prop} (hpost : ∀ M M' a b, M ≤ M' → post M a b → post M' a b)
    (h : P.holds M x y post) :
    (P.except stop hstop).holds M (liftM x : ExceptT ε m α) (liftM y) post := by
  show P.holds M (Except.ok <$> x) (Except.ok <$> y) _
  rw [map_eq_pure_bind, map_eq_pure_bind]
  refine P.bind h fun M' a b _ hab => P.pure fun M'' hle => ?_
  exact .ok (hpost M' M'' a b hle hab)

/-- Dialogues come to the same end with answers that are the same. -/
theorem lead {ok : Node → Prop} {answers : Node → Node → Prop} {f g : Node → m Node}
    {M : Matching}
    (h : ∀ M' n, M ≤ M' → ok n → P.holds M' (f n) (g n) fun _ a b => a = b ∧ answers n a)
    {α : Type} {x : Dialogue α} {post : α → Prop} (hx : x.Asks ok answers post) :
    P.holds M (x.lead f) (x.lead g) fun _ a b => a = b ∧ post a := by
  induction x generalizing M with
  | done a => exact P.pure fun _ _ => ⟨rfl, hx⟩
  | ask n resume ih =>
    refine P.bind (h M n (M.le_refl) hx.1) fun M' a b hle hab => ?_
    obtain ⟨rfl, ha⟩ := hab
    exact ih a (fun M'' n' hle' => h M'' n' (Matching.le_trans hle hle')) (hx.2 a ha)

end Pairing
end Monkey
