import Monkey.Proofs.Upkeep

/-!
# Computations that end

A run that lacks depth is told apart from one that fails for another reason, and no run
that was finished changes when it is given more. So a computation comes to an end if it is
finished at some depth. The judgement of that keeps an invariant of the store, which is what
the evaluations inside a computation have to know of each other.

An evaluation ends if its rule does, whatever that takes; there is no measure that all
evaluations share. What makes them end is left to those who use the judgement.

## Main definitions

* `Computation.Ends` — the computation comes to an answer, or to a number that it cannot show.
* `Computation.ending` — the judgement.

## Main results

* `Computation.ends_eval` — an evaluation ends if the rule of its tree does.
* `Computation.Ends.settled` — what ends has one outcome at every sufficient depth.
-/

namespace Monkey.Computation

/-- From a store with the invariant, and with enough depth, the computation comes to an answer that
satisfies `post` or fails for a number that it cannot show; the invariant holds at its end. -/
def Ends (invariant : Store → Prop) {α : Type} (x : Computation α) (post : α → Prop) : Prop :=
  ∀ st, invariant st → ∃ depth,
    invariant (x.outcome evalRule depth st).store ∧
      Judgement.Either (· = .unwritableNumber) post (x.outcome evalRule depth st).result

/-- An answer, or a failure for a number, is not for lack of depth. -/
theorem finished_of_either {α : Type} {o : Outcome α} {post : α → Prop}
    (h : Judgement.Either (· = .unwritableNumber) post o.result) : o.Finished := by
  intro hlack
  rw [hlack] at h
  cases h

section Ends
variable {invariant : Store → Prop} {α β : Type}

theorem Ends.bind {x : Computation α} {f : α → Computation β} {mid : α → Prop} {post : β → Prop}
    (hx : Ends invariant x mid) (hf : ∀ a, mid a → Ends invariant (f a) post) :
    Ends invariant (x >>= f) post := by
  intro st hst
  obtain ⟨depth, hend, hmid⟩ := hx st hst
  have hmono : ∀ depth', depth ≤ depth' → x.outcome evalRule depth' st = x.outcome evalRule depth st :=
    fun depth' hle => outcome_mono evalRule hle x st (finished_of_either hmid)
  generalize x.outcome evalRule depth st = o at hend hmid hmono
  obtain ⟨result, st'⟩ := o
  cases result with
  | error e =>
    refine ⟨depth, ?_⟩
    rw [outcome_bind, hmono depth (Nat.le_refl _)]
    exact ⟨hend, hmid⟩
  | ok a =>
    -- both parts are finished at the greater of their depths
    obtain ⟨depth', hend', hpost⟩ := hf a hmid st' hend
    refine ⟨max depth depth', ?_⟩
    rw [outcome_bind, hmono _ (Nat.le_max_left ..)]
    dsimp only
    rw [outcome_mono evalRule (Nat.le_max_right ..) (f a) st' (finished_of_either hpost)]
    exact ⟨hend', hpost⟩

theorem Ends.mono {x : Computation α} {mid post : α → Prop} (hx : Ends invariant x mid)
    (h : ∀ a, mid a → post a) : Ends invariant x post := by
  intro st hst
  obtain ⟨depth, hend, hmid⟩ := hx st hst
  refine ⟨depth, hend, ?_⟩
  generalize (x.outcome evalRule depth st).result = result at hmid
  cases result with
  | error e => exact hmid
  | ok a => exact h a hmid

/-- The judgement that computations end. -/
def ending (invariant : Store → Prop) : Judgement Computation where
  holds x post := Ends invariant x post
  pure h := fun _ hst => ⟨0, hst, h⟩
  bind := Ends.bind
  mono := Ends.mono

theorem ends_unwritable (post : α → Prop) :
    (ending invariant).holds (fail .unwritableNumber : Computation α) post :=
  fun _ hst => ⟨0, hst, rfl⟩

theorem ends_reading {f : Store → α} {post : α → Prop} (h : ∀ st, invariant st → post (f st)) :
    (ending invariant).holds (reading f) post :=
  fun st hst => ⟨0, hst, h st hst⟩

theorem ends_yielding {f : Store → α × Store} {post : α → Prop}
    (h : ∀ st, invariant st → invariant (f st).2 ∧ post (f st).1) :
    (ending invariant).holds (yielding f) post :=
  fun st hst => ⟨0, h st hst⟩

theorem ends_modify {f : Store → Store} (h : ∀ st, invariant st → invariant (f st)) :
    (ending invariant).holds (modify f) fun _ => True :=
  fun st hst => ⟨0, h st hst, trivial⟩

/-- An evaluation takes one level more than its rule. -/
theorem ends_eval {n : Node} {sc : Scope} {post : Value → Prop}
    (h : (ending invariant).holds (evalRule n sc) post) :
    (ending invariant).holds (eval n sc) post := by
  intro st hst
  obtain ⟨depth, hend⟩ := h st hst
  refine ⟨depth + 1, ?_⟩
  rwa [outcome_eval_succ]

/-- What does nothing to frames but open scopes takes the steps of evaluation, if the invariant
speaks of frames only. -/
theorem ending_steps {shape : Value → Prop} (data : ∀ v, v.isData = true → shape v)
    (frames : ∀ st st', st'.frames = st.frames → invariant st → invariant st') :
    Steps (ending invariant) shape where
  data := data
  fresh := ends_yielding fun st hst => ⟨frames st _ rfl hst, trivial⟩
  unbound _ _ := ends_reading fun _ _ => trivial
  printLine _ := ends_modify fun st hst => frames st _ rfl hst
  unwritable := ends_unwritable _

/-- What ends has one and the same outcome at every sufficient depth. -/
theorem Ends.settled {x : Computation α} {post : α → Prop} (h : Ends invariant x post) {st : Store}
    (hst : invariant st) : ∃ (o : Outcome α) (least : Nat),
      (∀ depth, least ≤ depth → x.outcome evalRule depth st = o) ∧
        Judgement.Either (· = .unwritableNumber) post o.result := by
  obtain ⟨depth, -, hpost⟩ := h st hst
  exact ⟨_, depth, fun _ hle => outcome_mono evalRule hle x st (finished_of_either hpost), hpost⟩

/-- A run that is finished comes to the outcome that all sufficient depths have. -/
theorem eq_of_settled {x : Computation α} {st : Store} {o : Outcome α} {least depth : Nat}
    (h : ∀ depth, least ≤ depth → x.outcome evalRule depth st = o)
    (hfinished : (x.outcome evalRule depth st).Finished) : x.outcome evalRule depth st = o := by
  rw [← h _ (Nat.le_max_left least depth),
    outcome_mono evalRule (Nat.le_max_right least depth) x st hfinished]

end Ends

end Monkey.Computation
