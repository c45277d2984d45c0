import Mathlib.Data.List.TakeWhile
import Monkey.CommandLine
import Monkey.Proofs.Dialogue
import Monkey.Proofs.History

/-!
# Runs that log their notes

A run that logs its notes writes each of them when it is taken, and a note that nests too
deeply breaks the run off. Up to there it is the run that logs nothing: the same trees are
evaluated, in the same stores. So a run of which all notes can be written is not changed at
all by being logged, and any other breaks off at the first note that cannot. What it has
printed and noted by then, the run that logs nothing prints and notes as well, and goes on.

Evaluation takes no notes. So the two runs can part only in the expansion of macros, and
it is enough to follow them through its steps.

## Main definitions

* `Store.RecordedIn` — a store has printed and noted all that another has, and in that order.
* `Computation.CutShort` — a computation does what another does, up to a note that cannot
  be written.
* `CommandLine.CanLog` — all notes of a run can be written.

## Main results

* `Computation.cutShort_runProgram` — the run of a program, logged and not.
* `CommandLine.run_logged` — the run of a text, logged and not.
-/

namespace Monkey

open Monkey.Computation

/-! ## What is printed and noted stays -/

namespace Store

/-- What is printed and noted in a store stands at the beginning of what is in the other. -/
structure RecordedIn (st st' : Store) : Prop where
  output : ∃ more, st'.output = st.output ++ more
  notes : st.notes <:+ st'.notes

/-- A store in which as much is printed and noted. -/
theorem recordedIn_of_eq {st st' : Store} (houtput : st'.output = st.output)
    (hnotes : st'.notes = st.notes) : st.RecordedIn st' :=
  ⟨⟨"", by simp [houtput]⟩, by simp [hnotes]⟩

theorem RecordedIn.refl (st : Store) : st.RecordedIn st := recordedIn_of_eq rfl rfl

theorem RecordedIn.trans {st₁ st₂ st₃ : Store} (h : st₁.RecordedIn st₂) (h' : st₂.RecordedIn st₃) :
    st₁.RecordedIn st₃ := by
  obtain ⟨more, hmore⟩ := h.output
  obtain ⟨more', hmore'⟩ := h'.output
  exact ⟨⟨more ++ more', by rw [hmore', hmore, String.append_assoc]⟩, h.notes.trans h'.notes⟩

end Store

/-- The regime of what comes behind a store in which no note is taken. -/
def Regime.unnoted (st : Store) : Regime where
  known _ := True
  invariant st' := st.RecordedIn st' ∧ st'.notes = st.notes

namespace Regime
variable {st : Store} {depth : Nat}

/-- A step that neither prints nor notes anything goes behind no store. -/
theorem unnoted_of_eq {st₁ st₂ : Store} (h : (unnoted st).invariant st₁)
    (houtput : st₂.output = st₁.output) (hnotes : st₂.notes = st₁.notes) :
    (unnoted st).invariant st₂ :=
  ⟨h.1.trans (Store.recordedIn_of_eq houtput hnotes), hnotes.trans h.2⟩

theorem unnoted_upkeep (inside : ∀ n sc,
      ((unnoted st).judgement depth).holds (eval n sc) (Value.Result fun _ => True)) :
    Upkeep ((unnoted st).judgement depth) (fun _ => True) fun _ => True where
  data _ _ := trivial
  fresh := yielding _ depth fun _ h => ⟨unnoted_of_eq h rfl rfl, trivial⟩
  printLine line := modify _ depth fun st' h => by
    refine ⟨h.1.trans ⟨⟨line ++ "\n", ?_⟩, List.suffix_refl _⟩, h.2⟩
    rw [Store.printLine, String.append_assoc]
  unwritable := fail _ depth _ _
  unbound _ _ := reading _ depth fun _ _ => trivial
  found _ _ := reading _ depth fun _ _ v _ => Value.every_of_forall (fun _ => trivial) v
  opened _ _ _ := yielding _ depth fun _ h => ⟨unnoted_of_eq h rfl rfl, trivial⟩
  inside n sc _ := inside n sc

/-- Evaluation takes no notes, and prints behind what is printed. -/
theorem unnoted_eval (st : Store) (depth : Nat) (n : Node) (sc : Scope) :
    ((unnoted st).judgement depth).holds (eval n sc) (Value.Result fun _ => True) := by
  induction depth generalizing n sc with
  | zero => exact eval_zero _ n sc _
  | succ depth ih =>
    have U := unnoted_upkeep ih
    have hquote : ∀ arg, (Upkeep.attempts ((unnoted st).judgement depth)).holds (evalQuote arg sc)
        (Value.Result fun _ => True) :=
      U.evalQuote (fun _ => fail _ depth _ _) (fun m _ _ => ih m sc) (fun _ _ _ _ => trivial)
        (fun _ _ _ => trivial) fun _ _ _ => trivial
    have hrule : ((unnoted st).judgement depth).holds (evalRule n sc)
        (Value.Result fun _ => True) :=
      U.evalRule (fun m _ => ih m sc)
        (fun _ _ _ _ _ => modify _ depth fun _ h => unnoted_of_eq h rfl rfl)
        (fun _ _ _ _ _ => trivial) (fun _ _ _ _ => trivial) (fun _ _ _ _ => trivial)
        fun arg _ => hquote arg
    exact eval_succ _ depth hrule fun _ _ _ _ h => h

end Regime

namespace Computation
variable {depth : Nat} {α β : Type}

/-- The computation takes no notes, and prints behind what is printed. -/
def Unnoted (depth : Nat) (x : Computation α) : Prop :=
  ∀ st, (Regime.unnoted st).invariant (x.outcome evalRule depth st).store

theorem unnoted_of_holds {x : Computation α} {post : α → Prop}
    (h : ∀ st, ((Regime.unnoted st).judgement depth).holds x post) : x.Unnoted depth :=
  fun st => (h st st ⟨.refl st, rfl⟩ fun _ _ => trivial).2.1

theorem unnoted_eval (n : Node) (sc : Scope) : (eval n sc).Unnoted depth :=
  unnoted_of_holds fun st => Regime.unnoted_eval st depth n sc

theorem unnoted_quoteAll (ns : List Node) : (quoteAll ns).Unnoted depth :=
  unnoted_of_holds fun st => (Regime.unnoted_upkeep (Regime.unnoted_eval st depth)).quoteAll
    fun _ _ _ => trivial

theorem unnoted_raise (fault : Fault) : (raise fault).Unnoted depth :=
  unnoted_of_holds fun st => (Regime.unnoted_upkeep (Regime.unnoted_eval st depth)).raise fault

/-- So does every single step that does not touch what is printed and noted. -/
theorem unnoted_yielding {f : Store → α × Store}
    (h : ∀ st, (f st).2.output = st.output ∧ (f st).2.notes = st.notes) :
    (yielding f).Unnoted depth :=
  fun st => Regime.unnoted_of_eq ⟨.refl st, rfl⟩ (h st).1 (h st).2

/-! ## Cutting a computation short -/

/-- The second computation does what the first does, up to the first note that does not fit: there
it is broken off. What it has printed and noted, and that note after it, are at the beginning of
what the first prints and notes. -/
structure CutShort (fits : Note → Prop) (depth : Nat) (x y : Computation α) : Prop where
  records : ∀ st : Store, st.RecordedIn (x.outcome evalRule depth st).store
  whole : ∀ st : Store, (∀ n ∈ (x.outcome evalRule depth st).store.notes, fits n) →
    y.outcome evalRule depth st = x.outcome evalRule depth st
  short : ∀ st : Store, (∀ n ∈ st.notes, fits n) →
    ¬ (∀ n ∈ (x.outcome evalRule depth st).store.notes, fits n) →
    ∃ st' n, y.outcome evalRule depth st = ⟨.error .depthExceeded, st'⟩ ∧
      (∀ n ∈ st'.notes, fits n) ∧ ¬ fits n ∧
      (st'.note n).RecordedIn (x.outcome evalRule depth st).store

variable {fits : Note → Prop}

/-- Nothing cuts a computation short that takes no notes. -/
theorem Unnoted.cutShort {x : Computation α} (h : x.Unnoted depth) : CutShort fits depth x x where
  records st := (h st).1
  whole _ _ := rfl
  short st hst hend := by
    rw [(h st).2] at hend
    exact absurd hst hend

theorem cutShort_pure (a : α) : CutShort fits depth (pure a) (pure a) :=
  Unnoted.cutShort fun st => ⟨.refl st, rfl⟩

theorem cutShort_fail (e : Failure) :
    CutShort fits depth (fail e : Computation α) (fail e) :=
  Unnoted.cutShort fun st => ⟨.refl st, rfl⟩

theorem cutShort_bind {x y : Computation α} {f g : α → Computation β}
    (hx : CutShort fits depth x y) (hf : ∀ a, CutShort fits depth (f a) (g a)) :
    CutShort fits depth (x >>= f) (y >>= g) := by
  have hrest : ∀ st, (x.outcome evalRule depth st).store.RecordedIn
      ((x >>= f).outcome evalRule depth st).store := by
    intro st
    rw [outcome_bind]
    generalize x.outcome evalRule depth st = o
    obtain ⟨result, st₁⟩ := o
    cases result with
    | error e => exact .refl st₁
    | ok a => exact (hf a).records st₁
  constructor
  · exact fun st => (hx.records st).trans (hrest st)
  · intro st hend
    -- The notes of the first part are among those of the whole.
    have hmid : ∀ n ∈ (x.outcome evalRule depth st).store.notes, fits n :=
      fun n hn => hend n ((hrest st).notes.subset hn)
    rw [outcome_bind] at hend
    rw [outcome_bind, outcome_bind, hx.whole st hmid]
    generalize x.outcome evalRule depth st = o at hend
    obtain ⟨result, st₁⟩ := o
    cases result with
    | error e => rfl
    | ok a => exact (hf a).whole st₁ hend
  · intro st hst hend
    by_cases hmid : ∀ n ∈ (x.outcome evalRule depth st).store.notes, fits n
    · rw [outcome_bind] at hend
      rw [outcome_bind, outcome_bind, hx.whole st hmid]
      generalize x.outcome evalRule depth st = o at hend hmid
      obtain ⟨result, st₁⟩ := o
      cases result with
      | error e => exact absurd hmid hend
      | ok a => exact (hf a).short st₁ hmid hend
    · obtain ⟨st', n, hy, hfit, hn, hrecorded⟩ := hx.short st hst hmid
      refine ⟨st', n, ?_, hfit, hn, hrecorded.trans (hrest st)⟩
      rw [outcome_bind, hy]

/-- A note that fits is taken, and any other is where a computation is cut short. -/
theorem cutShort_ite {fits : Note → Prop} [DecidablePred fits] (n : Note) :
    CutShort fits depth (takeNote n) (if fits n then takeNote n else fail .depthExceeded) where
  records st := ⟨⟨"", by simp [Store.note]⟩, List.suffix_cons n st.notes⟩
  whole st hend := by rw [if_pos (hend n List.mem_cons_self)]
  short st hst hend := by
    have hn : ¬ fits n := fun hn => hend fun m hm => by
      rcases List.mem_cons.1 hm with rfl | hm
      · exact hn
      · exact hst m hm
    rw [if_neg hn]
    exact ⟨st, n, rfl, hst, hn, .refl _⟩

/-! ## Computations that may stop early -/

section Early
variable {ε : Type} {x y : ExceptT ε Computation α} {f g : α → ExceptT ε Computation β}

theorem cutShort_exceptBind (hx : CutShort fits depth x.run y.run)
    (hf : ∀ a, CutShort fits depth (f a).run (g a).run) :
    CutShort fits depth (x >>= f).run (y >>= g).run := by
  refine cutShort_bind hx fun r => ?_
  cases r with
  | ok a => exact hf a
  | error e => exact cutShort_pure _

theorem cutShort_lift {x y : Computation α} (h : CutShort fits depth x y) :
    CutShort fits depth (liftM x : ExceptT ε Computation α).run
      (liftM y : ExceptT ε Computation α).run := by
  show CutShort fits depth (Except.ok <$> x) (Except.ok <$> y)
  rw [map_eq_pure_bind, map_eq_pure_bind]
  exact cutShort_bind h fun a => cutShort_pure _

/-- A dialogue is cut short if one of its answers is. -/
theorem cutShort_lead {answer answer' : Node → ExceptT ε Computation Node}
    (h : ∀ n, CutShort fits depth (answer n).run (answer' n).run) (d : Dialogue α) :
    CutShort fits depth (d.lead answer).run (d.lead answer').run := by
  induction d with
  | done a => exact cutShort_pure _
  | ask n resume ih => exact cutShort_exceptBind (h n) ih

end Early

/-! ## The expansion of macros -/

section Expanding
variable {log log' : Note → Computation Unit}
  (hlog : ∀ n, CutShort fits depth (log n) (log' n))
include hlog

theorem cutShort_defineMacros (macros : Scope) (ss : List Node) :
    CutShort fits depth (defineMacros macros ss log) (defineMacros macros ss log') := by
  fun_induction defineMacros macros ss log with
  | case1 => exact cutShort_pure _
  | case2 name params body ss ih =>
    refine cutShort_bind (unnoted_yielding fun _ => ⟨rfl, rfl⟩).cutShort fun i => ?_
    refine cutShort_bind (Unnoted.cutShort fun st => ?_) fun _ => ?_
    · exact Regime.unnoted_of_eq ⟨.refl st, rfl⟩ rfl rfl
    · exact cutShort_bind (hlog _) fun _ => ih
  | case3 s ss hs ih =>
    rw [Monkey.defineMacros.eq_3 _ _ _ _ hs]
    exact cutShort_bind ih fun kept => cutShort_pure _

theorem cutShort_expandCall (name : String) (args : List Node) (params : List String) (body : Node)
    (sc : Scope) : CutShort fits depth (expandCall name args params body sc log).run
      (expandCall name args params body sc log').run := by
  unfold expandCall
  split
  · exact cutShort_pure _
  refine cutShort_exceptBind (cutShort_lift (unnoted_quoteAll args).cutShort) fun quotes => ?_
  refine cutShort_exceptBind (cutShort_lift (unnoted_yielding fun _ => ⟨rfl, rfl⟩).cutShort)
    fun inner => ?_
  refine cutShort_exceptBind (cutShort_lift (unnoted_eval body inner).cutShort) fun v => ?_
  split
  · exact cutShort_pure _
  · exact cutShort_exceptBind (cutShort_lift (hlog _)) fun _ => cutShort_pure _
  · exact cutShort_pure _

theorem cutShort_expandStep (macros : Scope) (n : Node) :
    CutShort fits depth (expandStep macros n log).run (expandStep macros n log').run := by
  unfold expandStep
  split
  · refine cutShort_exceptBind (cutShort_lift (Unnoted.cutShort fun st => ⟨.refl st, rfl⟩))
      fun found => ?_
    cases found with
    | none => exact cutShort_pure _
    | some m => exact cutShort_expandCall hlog ..
  · exact cutShort_pure _

/-- The macro calls in a program are replaced one by one, and each replacement may be cut short. -/
theorem cutShort_expandMacros (macros : Scope) (program : Node) :
    CutShort fits depth (expandMacros macros program log).run
      (expandMacros macros program log').run := by
  unfold expandMacros
  refine cutShort_exceptBind ?_ fun r => ?_
  · rw [← Dialogue.lead_rebuildM_question fun n => expandStep macros n log,
      ← Dialogue.lead_rebuildM_question fun n => expandStep macros n log']
    exact cutShort_lead (cutShort_expandStep hlog macros) _
  · cases r with
    | ok n => exact cutShort_pure _
    | error e => exact cutShort_lift (cutShort_fail _)

/-- The run of a program is cut short if the taking of a note is. -/
theorem cutShort_runProgram (values macros : Scope) (program : Node) :
    CutShort fits depth (runProgram values macros program log)
      (runProgram values macros program log') := by
  refine cutShort_bind (hlog _) fun _ => ?_
  refine cutShort_bind (cutShort_defineMacros hlog macros _) fun kept => ?_
  refine cutShort_bind (cutShort_expandMacros hlog macros _) fun r => ?_
  cases r with
  | ok expanded => exact cutShort_bind (unnoted_eval expanded values).cutShort fun v => cutShort_pure _
  | error fault =>
    refine cutShort_bind (hlog _) fun _ => ?_
    exact cutShort_bind (unnoted_raise fault).cutShort fun v => cutShort_pure _

end Expanding
end Computation

/-! ## The run of a text -/

namespace CommandLine
variable (host : Host) (level : Int) (text : String)

variable {level} in
/-- Above the level of notes no note is too deep, because none is logged. -/
theorem loggable_of_lt (h : Settings.debugLevel < level) (n : Note) :
    loggable host level n = true := by
  simp [loggable, h]

/-- All notes that are taken in the run of the text can be logged at the level. -/
def CanLog : Prop :=
  ∀ n ∈ (run text host.depth).notes, loggable host level n = true

/-- A text that is run with its notes logged takes them up to the first one that is too deep for the
log. If there is none, it is run as without the log. Otherwise it is broken off there, and what it
has printed is the beginning of what it prints without the log. -/
theorem run_logged :
    let plain := run text host.depth
    let logged := run text host.depth (logNote host level)
    logged.notes = plain.notes.takeWhile (loggable host level) ∧
      (CanLog host level text → logged = plain) ∧
      (¬ CanLog host level text → logged.result = .error (.failure .depthExceeded) ∧
        ∃ more, plain.output = logged.output ++ more) := by
  intro plain logged
  let s : Session := .new
  have hrun (log : Note → Computation Unit) : run text host.depth log = _ :=
    s.withSource_of_outcome host.depth text (fun _ r => r.value) log
  unfold CanLog
  cases hparse : Source.parse text with
  | error e => simp [plain, logged, hrun, hparse]
  | ok program =>
    have hcut : CutShort (fun n => loggable host level n = true) host.depth
        (runProgram s.values s.macros program)
        (runProgram s.values s.macros program (logNote host level)) :=
      cutShort_runProgram cutShort_ite s.values s.macros program
    have hwhole := hcut.whole s.store.quiet
    have hshort := hcut.short s.store.quiet (by simp [Store.quiet])
    simp only [plain, logged, hrun, hparse, List.mem_reverse]
    generalize (runProgram s.values s.macros program).outcome evalRule host.depth
      s.store.quiet = o at hwhole hshort ⊢
    by_cases hfit : ∀ n ∈ o.store.notes, loggable host level n = true
    · rw [hwhole hfit]
      refine ⟨(List.takeWhile_eq_self_iff.2 fun n hn => ?_).symm, fun _ => rfl, ?_⟩
      · exact hfit n (List.mem_reverse.1 hn)
      · exact fun h => absurd hfit h
    · obtain ⟨st', n, hout, hfit', hn, hrecorded⟩ := hshort hfit
      obtain ⟨later, hlater⟩ := hrecorded.notes
      rw [hout]
      refine ⟨?_, fun h => absurd h hfit, fun _ => ⟨rfl, hrecorded.output⟩⟩
      -- The notes are kept newest first.
      rw [← hlater]
      simp only [Store.note, List.reverse_append, List.reverse_cons, List.append_assoc,
        List.cons_append, List.nil_append]
      rw [List.takeWhile_append_of_pos fun n hn => hfit' n (List.mem_reverse.1 hn),
        List.takeWhile_cons_of_neg hn, List.append_nil]

end CommandLine
end Monkey
