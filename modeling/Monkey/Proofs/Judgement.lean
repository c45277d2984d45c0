import Monkey.Computation
import Monkey.Node.Rebuild

/-!
# Judgements on computations

To say something of every way in which a program can go, it is enough to say it
of the few steps that a computation is made of, provided that what is said goes
through sequence. A `Judgement` is a statement of that kind: a relation between
computations and properties of their answers that holds of `pure` and is carried
through `bind`. Proofs about the evaluator are written once for all judgements,
and each property of programs then chooses its own.

## Main results

* `Judgement.except` — a judgement on computations is one on computations that
  may stop early, once it is said what they may stop with.
-/

namespace Monkey

/-- A statement about computations and their answers that goes through sequence. -/
structure Judgement (m : Type → Type) [Monad m] where
  /-- The computation is as it should be, and `post` holds of its answer. -/
  holds : {α : Type} → m α → (α → Prop) → Prop
  pure {α : Type} {a : α} {post : α → Prop} : post a → holds (Pure.pure a) post
  bind {α β : Type} {x : m α} {f : α → m β} {mid : α → Prop} {post : β → Prop} :
    holds x mid → (∀ a, mid a → holds (f a) post) → holds (x >>= f) post
  mono {α : Type} {x : m α} {mid post : α → Prop} :
    holds x mid → (∀ a, mid a → post a) → holds x post

namespace Judgement
variable {m : Type → Type} [Monad m]

/-- The answer satisfies `post`, or the computation was stopped with something that satisfies
`stop`. -/
def Either {ε α : Type} (stop : ε → Prop) (post : α → Prop) : Except ε α → Prop
  | .ok a => post a
  | .error e => stop e

/-- A judgement on computations that may stop early, but only with what satisfies `stop`. -/
def except (J : Judgement m) {ε : Type} (stop : ε → Prop) : Judgement (ExceptT ε m) where
  holds x post := J.holds x.run (Either stop post)
  pure h := J.pure h
  bind {α β x f mid post} hx hf := by
    refine J.bind hx fun r hr => ?_
    cases r with
    | ok a => exact hf a hr
    | error e => exact J.pure hr
  mono {α x mid post} hx h := by
    refine J.mono hx fun r hr => ?_
    cases r with
    | ok a => exact h a hr
    | error e => exact hr

variable (J : Judgement m) {ε : Type} {stop : ε → Prop}

theorem throw {α : Type} {e : ε} {post : α → Prop} (h : stop e) :
    (J.except stop).holds (MonadExcept.throw e : ExceptT ε m α) post := by
  show J.holds (Pure.pure (Except.error e)) (Either stop post)
  exact J.pure h

theorem lift [LawfulMonad m] {α : Type} {x : m α} {post : α → Prop} (h : J.holds x post) :
    (J.except stop).holds (liftM x : ExceptT ε m α) post := by
  show J.holds (Except.ok <$> x) _
  rw [map_eq_pure_bind]
  exact J.bind h fun a ha => J.pure ha

/-- A result that is already there is as good as an answer. -/
theorem liftExcept {α : Type} {r : Except ε α} {post : α → Prop} (h : Either stop post r) :
    (J.except stop).holds (liftM r : ExceptT ε m α) post := by
  show J.holds (Pure.pure r) (Either stop post)
  exact J.pure h

end Judgement
end Monkey
