import Monkey.Proofs.Calls
import Monkey.Proofs.History

/-!
# Where values being returned end up

A `return` puts a marker around its value, and the call or the program that it
returns from takes one marker off. A marker can come to be in the place of an
operand, though, because an `if` is an expression and passes a `return` in its
branches on. So a `return` may put a marker around a value that is already
marked. Of two markers only one is taken off.

This is the only way in which a marker gets out of a call or a program. Whatever
is done with markers (they can be bound, stored, passed and returned), every
marker there ever is was put by some `return` statement around the value that its
operand came to.

## Main definitions

* `Visit.CallReturns`, `Visit.EndsBody`, `Session.EndsProgram` — what calls of
  functions hand to their callers, and the values that a marker is taken off.
* `Visit.Rewraps` — a `return` of a value that is already marked.

## Main results

* `Session.made_of_endsBody`, `Session.made_of_endsProgram` — a marker at the end of a body or
  a program was put there by a `return` statement that has been visited.
* `Session.no_marker_out_iff` — no marker gets out exactly if no body and no
  program ends with a marker around a marker.
-/

namespace Monkey

open Monkey.Computation

namespace Value

/-- Values on their way to the end of a call or program. -/
def isReturned : Value → Bool
  | returned _ _ => true
  | _ => false

/-- A list of statements stops at errors and at markers. -/
theorem stopsBlock_eq_or (v : Value) : v.stopsBlock = (v.isError || v.isReturned) := by
  cases v <;> rfl

/-- If the value is a marker, it is what some `return` statement in the log came to. -/
def Made (log : List Visit) (v : Value) : Prop :=
  v.isReturned = true →
    ∃ w ∈ log, ∃ e, w.node = .returnStmt e ∧ (w.outcome evalRule).result = .ok v

theorem made_of_isReturned_eq_false (log : List Visit) {v : Value} (h : v.isReturned = false) :
    v.Made log := by
  intro htrue
  rw [h] at htrue
  cases htrue

/-- Errors are no markers. -/
theorem Result.made {log : List Visit} {v : Value} (h : v.Result (Made log)) : v.Made log := by
  rcases h with herror | hevery
  · refine made_of_isReturned_eq_false log ?_
    cases v with
    | returned i v => cases herror
    | _ => rfl
  · exact (every_iff.1 hevery).1

/-- What is marked behind the end of a call or program carried two markers before. -/
theorem eq_returned_of_unwrapped {m v : Value} (h : m.unwrapped = v) (hv : v.isReturned = true) :
    ∃ i, m = .returned i v := by
  cases m with
  | returned i w => exact ⟨i, by rw [← h]; rfl⟩
  | _ =>
    rw [← h] at hv
    cases hv

end Value

/-- A `return` comes to the error that its operand comes to, or to a marker around its value. -/
theorem outcome_returnStmt (e : Node) (sc : Scope) (depth : Nat) (st : Store) :
    (evalRule (.returnStmt e) sc).outcome evalRule depth st =
      match (eval e sc).outcome evalRule depth st with
      | ⟨.ok v, st'⟩ =>
        if v.isError then ⟨.ok v, st'⟩
        else ⟨.ok (.returned st'.nextIdentity v), st'.freshIdentity.2⟩
      | ⟨.error f, st'⟩ => ⟨.error f, st'⟩ := by
  have hrule : evalRule (.returnStmt e) sc = Attempt.settle (do
      let v ← Attempt.need e sc
      let i ← fresh
      return .returned i v) := rfl
  rw [hrule, Attempt.outcome_settle, Attempt.outcome_bind, Attempt.outcome_need, outcome_eval]
  generalize evalWithin evalRule depth e sc st = o
  obtain ⟨result, st'⟩ := o
  cases result with
  | error f => rfl
  | ok v =>
    cases he : v.isError with
    | false =>
      simp only [he]
      rfl
    | true => simp [he]

namespace Visit
variable {w : Visit}

/-- A call of a function at this visit hands `v` to its caller. -/
def CallReturns (w : Visit) (v : Value) : Prop :=
  ∃ i params body sc args st, w.Calls (.function i params body sc) args st ∧
    (((Value.function i params body sc).call args).outcome evalRule w.depth st).result = .ok v

/-- The body of a function that is called at this visit comes to `m`. -/
def EndsBody (w : Visit) (m : Value) : Prop :=
  ∃ i params body sc args st, w.Calls (.function i params body sc) args st ∧
    args.length = params.length ∧
    ((eval body ⟨st.frames.size⟩).outcome evalRule w.depth
      (st.child sc (bindParams params args)).2).result = .ok m

/-- At this visit a `return` statement comes to `m`, a marker around a value that its operand
came to with a marker already. -/
def Rewraps (w : Visit) (m : Value) : Prop :=
  ∃ e v, w.node = .returnStmt e ∧ (w.outcome evalRule).result = .ok m ∧
    ((eval e w.scope).outcome evalRule w.depth w.store).result = .ok v ∧ v.isReturned = true

/-- A marker that a `return` statement comes to is around what its operand comes to. -/
theorem rewraps_of_returned {e : Node} {i : Identity} {v : Value} (hnode : w.node = .returnStmt e)
    (h : (w.outcome evalRule).result = .ok (.returned i v)) (hv : v.isReturned = true) :
    w.Rewraps (.returned i v) := by
  refine ⟨e, v, hnode, h, ?_, hv⟩
  rw [Visit.outcome, hnode, outcome_returnStmt] at h
  generalize (eval e w.scope).outcome evalRule w.depth w.store = o at h ⊢
  obtain ⟨result, st'⟩ := o
  cases result with
  | error f => cases h
  | ok u =>
    by_cases he : u.isError = true
    · have hu : u = .returned i v := by simpa [he] using h
      rw [hu] at he
      cases he
    · have hu : u = v := by
        have hboth : st'.nextIdentity = i ∧ u = v := by simpa [he] using h
        exact hboth.2
      rw [hu]

/-- A marker around a marker leaves a marker when it is taken off. -/
theorem Rewraps.isReturned_unwrapped {m : Value} (h : w.Rewraps m) :
    m.unwrapped.isReturned = true := by
  obtain ⟨e, v, hnode, hm, hv, hmarked⟩ := h
  rw [Visit.outcome, hnode, outcome_returnStmt] at hm
  generalize (eval e w.scope).outcome evalRule w.depth w.store = o at hm hv
  obtain ⟨result, st'⟩ := o
  obtain rfl : result = .ok v := hv
  have he : v.isError = false := by
    cases v with
    | returned i v => rfl
    | _ => cases hmarked
  have hwrap : Value.returned st'.nextIdentity v = m := by simpa [he] using hm
  rw [← hwrap]
  exact hmarked

/-- A function returns what its body ends with, without the marker. -/
theorem EndsBody.callReturns {m : Value} (h : w.EndsBody m) : w.CallReturns m.unwrapped := by
  obtain ⟨i, params, body, sc, args, st, hcall, hlen, hm⟩ := h
  refine ⟨i, params, body, sc, args, st, hcall, ?_⟩
  rw [Value.outcome_call_function hlen]
  generalize (eval body _).outcome evalRule w.depth _ = o at hm ⊢
  obtain ⟨result, st'⟩ := o
  obtain rfl : result = .ok m := hm
  rfl

/-- If a function returns a marker, its body ends with a marker around it. -/
theorem CallReturns.endsBody {v : Value} (h : w.CallReturns v) (hv : v.isReturned = true) :
    ∃ i, w.EndsBody (.returned i v) := by
  obtain ⟨j, params, body, sc, args, st, hcall, hret⟩ := h
  by_cases hlen : args.length = params.length
  · rw [Value.outcome_call_function hlen] at hret
    generalize ho : (eval body ⟨st.frames.size⟩).outcome evalRule w.depth
      (st.child sc (bindParams params args)).2 = o at hret
    obtain ⟨result, st'⟩ := o
    cases result with
    | error f => cases hret
    | ok m =>
      obtain ⟨i, rfl⟩ := Value.eq_returned_of_unwrapped (Except.ok.inj hret) hv
      exact ⟨i, j, params, body, sc, args, st, hcall, hlen, by rw [ho]⟩
  · have herror : v.isError = true := by
      rw [Value.call, if_neg hlen] at hret
      obtain rfl := Except.ok.inj hret
      rfl
    cases v with
    | returned i v => cases herror
    | _ => cases hv

end Visit

/-! ## Where markers come from -/

namespace Regime

/-- Every marker in the store is what a `return` statement of the log came to. -/
def logged (log : List Visit) : Regime where
  known w := w ∈ log
  invariant st := st.Every (Value.Made log)

theorem stable_logged (log : List Visit) :
    (logged log).Stable (Value.Made log) (fun _ => True) fun _ => True where
  built _ _ := trivial
  spliced _ _ _ _ := trivial
  quoted i n := ⟨fun _ => trivial, fun _ => Value.made_of_isReturned_eq_false log rfl⟩
  data v h := by
    refine Value.made_of_isReturned_eq_false log ?_
    cases v with
    | returned i v => cases h
    | _ => rfl
  functions _ _ _ _ := Value.made_of_isReturned_eq_false log rfl
  macros _ _ _ _ := Value.made_of_isReturned_eq_false log rfl
  markers depth e sc st i v hknown hv := fun _ => ⟨_, hknown, e, rfl, hv⟩
  frames _ _ h _ hst := Store.every_of_frames hst h
  lookup st name sc v hst hv := Store.every_lookup hst hv
  addFrame st frame hst hb := ⟨Store.every_addFrame hst hb, trivial⟩
  define st sc name v hst _ hv := Store.every_define hst hv

end Regime

namespace Session
variable {history : List Entry} {depth : Nat} {source : String}

/-- The statements of the program of a text, once its macros are expanded, end with the
value `m`. -/
def EndsProgram (depth : Nat) (source : String) (s : Session) (m : Value) : Prop :=
  ∃ program ss st d, Source.parse source = .ok program ∧ depth = d + 1 ∧
    (expandProgram s.macros program).outcome evalRule depth s.store.quiet =
      ⟨.ok (.ok (.program ss)), st⟩ ∧
    ((evalStatements s.values .null ss).outcome evalRule d st).result = .ok m

/-! ## Markers at the ends of bodies and programs -/

/-- In a session, everything that evaluation comes to on the way of a text has no markers but
those that the log accounts for. -/
theorem result_of_visit {w : Visit} (hw : w ∈ (after history).visits depth source) :
    let log := (after history).visits depth source ++ log history
    w.store.Every (Value.Made log) ∧
      ∀ v, (w.outcome evalRule).result = .ok v → v.Result (Value.Made log) := by
  intro log
  have S := Regime.stable_logged log
  have hstore : (Regime.logged log).invariant (after history).store :=
    after_invariant S trivial trivial (every_new _) history
      fun w hw => List.mem_append_right _ hw
  have hvisits := (invariant_attempt S trivial trivial hstore
    fun w hw => List.mem_append_left _ hw).1
  refine ⟨hvisits w hw, fun v hv => ?_⟩
  refine S.result_visit trivial (hvisits w hw) (List.mem_append_left _ hw) ?_ hv
  intro u hu
  exact List.mem_append_left _ (visits_closed depth source (after history) w hw hu)

end Session

/-- The evaluation of a body that ends is a visit inside the visit of the call. -/
theorem Visit.EndsBody.visit {w : Visit} {m : Value} (h : w.EndsBody m) :
    ∃ u ∈ w.inside evalRule, (u.outcome evalRule).result = .ok m := by
  obtain ⟨i, params, body, sc, args, st, hcall, hlen, hm⟩ := h
  have hinside := hcall.visits_subset
  rw [Value.visits_call_function hlen] at hinside
  obtain ⟨depth, node, scope, store⟩ := w
  cases depth with
  | zero =>
    rw [outcome_eval] at hm
    cases hm
  | succ depth =>
    rw [visits_eval_succ] at hinside
    rw [outcome_eval_succ] at hm
    exact ⟨_, hinside List.mem_cons_self, hm⟩

/-- The evaluation of the statements of a program that ends is a visit on the way of its text. -/
theorem Session.EndsProgram.visit {s : Session} {depth : Nat} {source : String} {m : Value}
    (h : s.EndsProgram depth source m) :
    ∃ u ∈ s.visits depth source, ∃ ss, u.node = .program ss ∧
      ((evalStatements u.scope .null ss).outcome evalRule u.depth u.store).result = .ok m := by
  obtain ⟨program, ss, st, d, hparse, rfl, hexpand, hm⟩ := h
  refine ⟨⟨d, .program ss, s.values, st⟩, ?_, ss, rfl, hm⟩
  unfold Session.visits
  rw [hparse]
  dsimp only
  rw [runProgram_eq, Computation.visits_bind, hexpand]
  refine List.mem_append_right _ ?_
  dsimp only
  rw [Computation.visits_bind, visits_eval_succ]
  exact List.mem_append_left _ List.mem_cons_self

namespace Session
variable {history : List Entry} {depth : Nat} {source : String}

/-- A text whose program ends with `m` runs to `m` without the marker. -/
theorem EndsProgram.yields {s : Session} {m : Value} (h : s.EndsProgram depth source m) :
    s.Yields depth source m.unwrapped := by
  obtain ⟨program, ss, st, d, hparse, rfl, hexpand, hm⟩ := h
  unfold Yields attempt
  rw [hparse]
  dsimp only
  rw [runProgram_eq, Computation.outcome_bind, hexpand]
  dsimp only
  rw [Computation.outcome_bind, outcome_eval_succ]
  have hrule : evalRule (.program ss) s.values = (do
      let v ← evalStatements s.values .null ss
      return v.unwrapped) := rfl
  rw [hrule, Computation.outcome_bind]
  generalize (evalStatements s.values .null ss).outcome evalRule d st = o at hm
  obtain ⟨result, st'⟩ := o
  obtain rfl : result = .ok m := hm
  exact ⟨_, ⟨m.unwrapped, true⟩, rfl, rfl, rfl⟩

/-- If a text runs to a marker, its program ends with a marker around it. -/
theorem Yields.endsProgram {s : Session} {v : Value} (h : s.Yields depth source v)
    (hv : v.isReturned = true) : ∃ i, s.EndsProgram depth source (.returned i v) := by
  obtain ⟨o, r, ho, hr, rfl⟩ := h
  unfold attempt at ho
  cases hparse : Source.parse source with
  | error e =>
    rw [hparse] at ho
    cases ho
  | ok program =>
    rw [hparse] at ho
    dsimp only at ho
    rw [runProgram_eq, Computation.outcome_bind] at ho
    generalize hexpand : (expandProgram s.macros program).outcome evalRule depth s.store.quiet = x
      at ho
    obtain ⟨result, st⟩ := x
    obtain rfl := Option.some.inj ho
    rcases result with e | (fault | n)
    · cases hr
    · obtain rfl := Except.ok.inj hr
      cases hv
    · obtain ⟨ss, rfl⟩ := program_of_expandProgram hexpand
      dsimp only at hr
      rw [Computation.outcome_bind] at hr
      cases depth with
      | zero =>
        rw [outcome_eval] at hr
        cases hr
      | succ d =>
        rw [outcome_eval_succ] at hr
        have hrule : evalRule (.program ss) s.values = (do
            let v ← evalStatements s.values .null ss
            return v.unwrapped) := rfl
        rw [hrule, Computation.outcome_bind] at hr
        generalize ho : (evalStatements s.values .null ss).outcome evalRule d st = o at hr
        obtain ⟨result, st'⟩ := o
        cases result with
        | error e => cases hr
        | ok m =>
          obtain rfl := Except.ok.inj hr
          obtain ⟨i, hm⟩ := Value.eq_returned_of_unwrapped rfl hv
          have hend : ((evalStatements s.values .null ss).outcome evalRule d st).result =
              .ok (.returned i m.unwrapped) := by
            rw [ho]
            exact congrArg Except.ok hm
          exact ⟨i, program, ss, st, d, hparse, rfl, hexpand, hend⟩

/-- A marker that a body ends with on the way of a text is accounted for by the log. -/
theorem made_of_endsBody {w : Visit} (hw : w ∈ (after history).visits depth source) {m : Value}
    (h : w.EndsBody m) : m.Made ((after history).visits depth source ++ log history) := by
  obtain ⟨u, hu, hm⟩ := h.visit
  have hmem := visits_closed depth source (after history) w hw hu
  exact ((result_of_visit hmem).2 m hm).made

/-- A marker that the program of a text ends with is accounted for by the log. -/
theorem made_of_endsProgram {m : Value} (h : (after history).EndsProgram depth source m) :
    m.Made ((after history).visits depth source ++ log history) := by
  obtain ⟨u, hu, ss, hnode, hm⟩ := h.visit
  let made := Value.Made ((after history).visits depth source ++ log history)
  have S : (Regime.logged _).Stable made (fun _ => True) fun _ => True := Regime.stable_logged _
  have hstatements : ((Regime.logged _).judgement u.depth).holds (evalStatements u.scope .null ss)
      (Value.Result made) :=
    (S.upkeep (S.eval u.depth)).evalStatements_null fun s _ => S.eval u.depth s u.scope trivial
  have hinside : (evalStatements u.scope .null ss).visits evalRule u.depth u.store ⊆
      u.inside evalRule := by
    unfold Visit.inside
    rw [hnode]
    show _ ⊆ (evalStatements u.scope .null ss >>= _).visits evalRule u.depth u.store
    rw [Computation.visits_bind]
    exact List.subset_append_left _ _
  have hresult := (hstatements u.store (result_of_visit hu).1 fun x hx =>
    List.mem_append_left _ (visits_closed depth source (after history) u hu (hinside hx))).2.2 m hm
  exact hresult.made

/-- Markers stay inside. No call of a function hands a marker to its caller while a text is run in
a session, and the text does not run to a marker, exactly if no marker that a `return` statement
has put around a marked value, then or while an earlier text was run, is what a body or the
program ends with. -/
theorem no_marker_out_iff (history : List Entry) (depth : Nat) (source : String) :
    ((∀ w ∈ (after history).visits depth source, ∀ v, w.CallReturns v → v.isReturned = false) ∧
      ∀ v, (after history).Yields depth source v → v.isReturned = false) ↔
    ∀ m, ((∃ w ∈ (after history).visits depth source, w.EndsBody m) ∨
        (after history).EndsProgram depth source m) →
      ∀ r ∈ (after history).visits depth source ++ log history, ¬ r.Rewraps m := by
  constructor
  · rintro ⟨hcalls, hyields⟩ m hends r _ hr
    have hmarked : m.unwrapped.isReturned = true := hr.isReturned_unwrapped
    have hclean : m.unwrapped.isReturned = false := by
      rcases hends with ⟨w, hw, hbody⟩ | hprogram
      · exact hcalls w hw _ hbody.callReturns
      · exact hyields _ hprogram.yields
    rw [hmarked] at hclean
    cases hclean
  · intro h
    have hno : ∀ (i : Identity) (v : Value), v.isReturned = true →
        (Value.returned i v).Made ((after history).visits depth source ++ log history) →
        ((∃ w ∈ (after history).visits depth source, w.EndsBody (.returned i v)) ∨
          (after history).EndsProgram depth source (.returned i v)) → False := by
      intro i v hv hmade hends
      obtain ⟨r, hr, e, hnode, hres⟩ := hmade rfl
      exact h _ hends r hr (Visit.rewraps_of_returned hnode hres hv)
    constructor
    · intro w hw v hv
      cases hmarked : v.isReturned with
      | false => rfl
      | true =>
        obtain ⟨i, hbody⟩ := hv.endsBody hmarked
        exact absurd (.inl ⟨w, hw, hbody⟩) (hno i v hmarked (made_of_endsBody hw hbody))
    · intro v hv
      cases hmarked : v.isReturned with
      | false => rfl
      | true =>
        obtain ⟨i, hprogram⟩ := hv.endsProgram hmarked
        exact absurd (.inr hprogram) (hno i v hmarked (made_of_endsProgram hprogram))

/-- Markers do get out: of the two in `return if (true) { return 1; };` one is left. -/
theorem marker_out_of_return_in_operand :
    ¬ ∀ (history : List Entry) (depth : Nat) (source : String),
      (∀ w ∈ (after history).visits depth source, ∀ v, w.CallReturns v → v.isReturned = false) ∧
        ∀ v, (after history).Yields depth source v → v.isReturned = false := by
  intro h
  have hrun : (Session.new.attempt 9 "return if (true) \x7b return 1; \x7d;").any (fun o =>
      match o.result with
      | .ok r => r.value.isReturned
      | .error _ => false) = true := by
    decide +kernel
  obtain ⟨o, ho, hmarked⟩ := (Option.any_eq_true _ _).1 hrun
  cases hresult : o.result with
  | error f =>
    rw [hresult] at hmarked
    cases hmarked
  | ok r =>
    rw [hresult] at hmarked
    have hclean := (h [] 9 _).2 r.value ⟨o, r, ho, hresult, rfl⟩
    exact Bool.false_ne_true (hclean.symm.trans hmarked)

end Session
end Monkey
