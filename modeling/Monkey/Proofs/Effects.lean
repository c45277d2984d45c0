import Monkey.Node.Equality
import Monkey.Proofs.Frames
import Monkey.Proofs.History

/-!
# What a text does to its session

A session has a scope of variables and one of macros. Taking out the definitions binds
names in the scope of macros, before anything else happens. Replacing the macro calls runs
macros in scopes that are made for them, and changes no scope that is there. What is left
is evaluated among the variables, where it changes no scope but that of the variables and
those that it makes.

So a text that is no program does nothing to its session, and any other binds its
macros, even if it fails later on; and nothing else ever gets into the scope of macros.
What comes to be bound among the variables has been bound there by a `let` that was
evaluated.

## Main definitions

* `Node.definitions`, `Store.defineAll` — the macros that statements define, and their bindings.
* `Session.Affects` — what may be different in a session after a text.

## Main results

* `Computation.outcome_defineMacros` — taking the definitions out always succeeds.
* `Store.frame?_expandMacros`, `Store.frame?_evaluate_of_ne` — the frames that stay.
* `Session.macros_after` — the scope of macros holds its macros only.
* `Session.affects_after` — what texts do to the sessions that are reached.
-/

namespace Monkey

open Monkey.Computation

namespace Table
variable {κ α : Type} [DecidableEq κ]

/-- Of several entries for a key the last one counts. -/
theorem find?_insertAll (key : κ) (entries t : Table κ α) :
    find? key (insertAll entries t) = (find? key entries.reverse).or (find? key t) := by
  have happend : ∀ (t : Table κ α) (e : κ × α),
      find? key (t ++ [e]) = (find? key t).or (if e.1 = key then some e.2 else none) := by
    intro t e
    induction t with
    | nil => rfl
    | cons d t ih =>
      by_cases hk : d.1 = key
      · simp [find?, hk]
      · simpa [find?, hk] using ih
  induction entries generalizing t with
  | nil => rfl
  | cons e entries ih =>
    show find? key (insertAll entries (insert e.1 e.2 t)) = _
    rw [ih, find?_insert, List.reverse_cons, happend, Option.or_assoc]
    by_cases hk : key = e.1
    · rw [if_pos hk, if_pos hk.symm]
      rfl
    · rw [if_neg hk, if_neg (Ne.symm hk)]
      rfl

end Table

/-! ## Taking macro definitions out -/

/-- Binds several names in a frame, one after the other. -/
def Frame.bindAll (entries : Table String Value) (f : Frame) : Frame :=
  { f with bindings := Table.insertAll entries f.bindings }

/-- The macros that statements define in a scope, with identities from `i` on. -/
def Node.definitions (sc : Scope) (i : Identity) : List Node → Table String Value
  | [] => []
  | .letStmt name (.macroLit params body) :: ss =>
    (name, .macroFn i params (.block body) sc) :: definitions sc (i + 1) ss
  | _ :: ss => definitions sc i ss

/-- Binds the macros that statements define. -/
def Store.defineAll (sc : Scope) : List Node → Store → Store
  | [], st => st
  | .letStmt name (.macroLit params body) :: ss, st =>
    ((st.freshIdentity.2.define sc name
      (.macroFn st.nextIdentity params (.block body) sc)).note (.defined name params)).defineAll sc ss
  | _ :: ss, st => st.defineAll sc ss

/-- The statements that define no macros. -/
def Node.undefining (ss : List Node) : List Node := ss.filter fun s => !s.isMacroDefinition

theorem Node.isMacroDefinition_iff {s : Node} :
    s.isMacroDefinition = true ↔ ∃ name params body, s = .letStmt name (.macroLit params body) := by
  constructor
  · intro h
    unfold isMacroDefinition at h
    split at h
    · exact ⟨_, _, _, rfl⟩
    · cases h
  · rintro ⟨name, params, body, rfl⟩
    rfl

section Undefining
variable {s : Node} (h : s.isMacroDefinition = false) (sc : Scope) (ss : List Node)
include h

theorem defineMacros_cons :
    defineMacros sc (s :: ss) = (do
      let kept ← defineMacros sc ss
      return s :: kept) := by
  rw [defineMacros]
  rintro name params body rfl
  cases h

theorem Node.definitions_cons (i : Identity) :
    definitions sc i (s :: ss) = definitions sc i ss := by
  rw [definitions]
  rintro name params body rfl
  cases h

theorem Store.defineAll_cons (st : Store) : st.defineAll sc (s :: ss) = st.defineAll sc ss := by
  rw [defineAll]
  rintro name params body rfl
  cases h

omit h in
theorem Node.undefining_cons :
    undefining (s :: ss) = if s.isMacroDefinition then undefining ss else s :: undefining ss := by
  cases hs : s.isMacroDefinition <;> simp [undefining, hs]

end Undefining

/-- Taking the definitions out always succeeds and leaves the other statements. -/
theorem Computation.outcome_defineMacros (sc : Scope) (ss : List Node) (depth : Nat) (st : Store) :
    (defineMacros sc ss).outcome evalRule depth st =
      ⟨.ok (Node.undefining ss), st.defineAll sc ss⟩ := by
  induction ss generalizing st with
  | nil => rfl
  | cons s ss ih =>
    rw [Node.undefining_cons]
    cases hs : s.isMacroDefinition with
    | true =>
      obtain ⟨name, params, body, rfl⟩ := Node.isMacroDefinition_iff.1 hs
      rw [defineMacros]
      simp only [outcome_bind, outcome_fresh, outcome_modify, ih]
      rfl
    | false =>
      rw [defineMacros_cons hs, outcome_bind, ih, Store.defineAll_cons hs]
      rfl

namespace Store

/-- The frames behind the definitions: that of the scope of macros with their bindings, and all
others as they were. -/
theorem frame?_defineAll (sc sc' : Scope) (ss : List Node) (st : Store) :
    (st.defineAll sc ss).frame? sc' =
      if sc = sc' then
        (st.frame? sc').map (Frame.bindAll (Node.definitions sc st.nextIdentity ss))
      else st.frame? sc' := by
  induction ss generalizing st with
  | nil =>
    rw [defineAll, Node.definitions]
    split
    · cases st.frame? sc' <;> rfl
    · rfl
  | cons s ss ih =>
    cases hs : s.isMacroDefinition with
    | true =>
      obtain ⟨name, params, body, rfl⟩ := Node.isMacroDefinition_iff.1 hs
      rw [defineAll, ih]
      show (if sc = sc' then
          ((st.freshIdentity.2.define sc name _).frame? sc').map (Frame.bindAll _)
        else (st.freshIdentity.2.define sc name _).frame? sc') = _
      rw [frame?_define]
      by_cases heq : sc = sc'
      · subst heq
        simp only [if_true, Option.map_map]
        rfl
      · simp only [heq, if_false]
        rfl
    | false => rw [defineAll_cons hs, ih, Node.definitions_cons hs]

/-! ## Frames that stay -/

variable {sc : Scope} {f : Frame} {st : Store}

/-- Replacing macro calls changes no frame that is there. -/
theorem frame?_expandMacros (hf : st.frame? sc = some f) (macros : Scope) (ss : List Node)
    (depth : Nat) :
    ((expandMacros macros (.program ss)).run.outcome evalRule depth st).store.frame? sc = some f := by
  have hstart : (Regime.ofFrame sc (· = f) fun _ => True).invariant st :=
    ⟨⟨f, hf, rfl⟩, st.every_quotes_any⟩
  have hexpand : ((Regime.ofFrame sc (· = f) fun _ => True).judgement depth).holds
      (expandMacros macros (.program ss)).run _ :=
    (Regime.stable_frame sc f).expandMacros_program macros ss
  obtain ⟨⟨_, hf', rfl⟩, -⟩ := (hexpand st hstart fun _ _ => trivial).2.1
  exact hf'

/-- Expanding a program binds its macros, and leaves all else that is there as it is. -/
theorem frame?_expandProgram_eq (hf : st.frame? sc = some f) (macros : Scope) (program : Node)
    (depth : Nat) :
    ((expandProgram macros program).outcome evalRule depth st).store.frame? sc =
      some (if macros = sc then
        f.bindAll (Node.definitions macros st.nextIdentity program.statements) else f) := by
  rw [expandProgram, outcome_bind, outcome_modify]
  dsimp only
  rw [outcome_bind, outcome_defineMacros]
  refine frame?_expandMacros ?_ macros _ depth
  rw [frame?_defineAll]
  show (if macros = sc then (st.frame? sc).map _ else st.frame? sc) = _
  rw [hf]
  split <;> rfl

end Store

/-! ## Running a program -/

/-- A program is run by expanding it, and by evaluating what it expands to if that succeeds. -/
theorem Computation.outcome_runProgram (values macros : Scope) (program : Node) (depth : Nat)
    (st : Store) :
    (runProgram values macros program).outcome evalRule depth st =
      match (expandProgram macros program).outcome evalRule depth st with
      | ⟨.ok (.ok n), st'⟩ =>
        match n.evaluate depth values st' with
        | ⟨.ok v, st''⟩ => ⟨.ok ⟨v, true⟩, st''⟩
        | ⟨.error e, st''⟩ => ⟨.error e, st''⟩
      | ⟨.ok (.error fault), st'⟩ =>
        ⟨.ok ⟨.error st'.nextIdentity fault, false⟩,
          (st'.note (.expansionFailed fault)).freshIdentity.2⟩
      | ⟨.error e, st'⟩ => ⟨.error e, st'⟩ := by
  rw [runProgram_eq, outcome_bind]
  generalize (expandProgram macros program).outcome evalRule depth st = o
  obtain ⟨result, st'⟩ := o
  rcases result with e | (fault | n)
  · rfl
  · rfl
  · dsimp only
    rw [outcome_bind, Node.evaluate, run_eq]
    generalize (eval n values).outcome evalRule depth st' = o
    obtain ⟨result, st''⟩ := o
    cases result <;> rfl

namespace Store
variable {values macros sc : Scope} {f : Frame} {st : Store}

/-- Running a program does to scopes other than that of the variables what expanding it does. -/
theorem frame?_runProgram_of_ne (hf : st.frame? sc = some f) (hne : sc ≠ values) (macros : Scope)
    (program : Node) (depth : Nat) :
    ((runProgram values macros program).outcome evalRule depth st).store.frame? sc =
      some (if macros = sc then
        f.bindAll (Node.definitions macros st.nextIdentity program.statements) else f) := by
  have hexpanded := frame?_expandProgram_eq hf macros program depth
  rw [outcome_runProgram]
  generalize (expandProgram macros program).outcome evalRule depth st = o at hexpanded ⊢
  obtain ⟨result, st'⟩ := o
  rcases result with e | (fault | n)
  · exact hexpanded
  · exact hexpanded
  · have hevaluated := frame?_evaluate_of_ne hexpanded hne n depth
    dsimp only
    generalize n.evaluate depth values st' = o at hevaluated ⊢
    obtain ⟨result, st''⟩ := o
    cases result <;> exact hevaluated

/-- A program that cannot be expanded leaves the variables as they are, and comes to an error. -/
theorem frame?_runProgram_of_not_expanded (hf : st.frame? values = some f) (hne : macros ≠ values)
    {program : Node} {depth : Nat} {r : Ran}
    (hr : ((runProgram values macros program).outcome evalRule depth st).result = .ok r)
    (hexpanded : r.expanded = false) :
    r.value.isError = true ∧
      ((runProgram values macros program).outcome evalRule depth st).store.frame? values =
        some f := by
  have hframe := frame?_expandProgram_eq hf macros program depth
  rw [if_neg hne] at hframe
  rw [outcome_runProgram] at hr ⊢
  generalize (expandProgram macros program).outcome evalRule depth st = o at hr hframe ⊢
  obtain ⟨result, st'⟩ := o
  rcases result with e | (fault | n)
  · cases hr
  · cases hr
    exact ⟨rfl, hframe⟩
  · dsimp only at hr
    generalize n.evaluate depth values st' = o at hr
    obtain ⟨result, st''⟩ := o
    cases result <;> cases hr
    cases hexpanded

end Store

/-! ## The scope of macros -/

/-- Macros made in a scope, and nothing else. -/
def Frame.HoldsMacros (sc : Scope) (f : Frame) : Prop :=
  ∀ b ∈ f.bindings, ∃ i params body, b.2 = .macroFn i params body sc

theorem Frame.HoldsMacros.bind {sc : Scope} {f : Frame} (h : f.HoldsMacros sc) (name : String)
    (i : Identity) (params : List String) (body : Node) :
    (f.bind name (.macroFn i params body sc)).HoldsMacros sc := by
  intro b hb
  rcases Table.mem_of_mem_insert hb with rfl | hb
  · exact ⟨i, params, body, rfl⟩
  · exact h b hb

/-- While a program is run, the scope of macros holds its macros only. -/
theorem Regime.holds_runProgram_macros {values macros : Scope} (hne : values ≠ macros)
    (program : Node) (depth : Nat) :
    ((ofFrame macros (Frame.HoldsMacros macros) fun _ => True).judgement depth).holds
      (runProgram values macros program) fun _ => True := by
  have S : (ofFrame macros (Frame.HoldsMacros macros) fun _ => True).Stable
      (Value.Quotes fun _ => True) (· ≠ macros) fun _ => True := by
    refine stable_ofFrame quotable_any ?_ fun f' name v h => absurd rfl h
    rintro sc' hlt rfl
    omega
  have hexpand : ((ofFrame macros (Frame.HoldsMacros macros) fun _ => True).judgement depth).holds
      (expandProgram macros program) (Judgement.Either (fun _ => True) fun _ => True) := by
    refine S.quietSteps.expandProgram S.note (fun name params body i _ => ?_) fun kept _ =>
      Judgement.mono _ (S.expandMacros_program macros kept) fun _ _ => trivial
    refine Regime.modify _ depth fun st ⟨⟨f, hf, hmacros⟩, _⟩ => ?_
    refine ⟨⟨_, ?_, hmacros.bind name i params (.block body)⟩, Store.every_quotes_any _⟩
    rw [Store.frame?_define, if_pos rfl, hf]
    rfl
  have hrun := S.quietSteps.runProgram S.note hexpand fun n _ => S.eval depth n values hne
  exact Judgement.mono _ hrun fun _ _ => trivial

/-! ## Where names come from -/

/-- What is kept whatever is known is kept when more is known. -/
theorem Regime.Stable.assuming {R : Regime} {shape : Value → Prop} {inner : Scope → Prop}
    {good : Node → Prop} (S : R.Stable shape inner good) {known : Visit → Prop}
    (hknown : ∀ w, known w → R.known w) :
    Regime.Stable ⟨known, R.invariant⟩ shape inner good where
  toQuotable := S.toQuotable
  data := S.data
  functions := S.functions
  macros := S.macros
  markers depth e sc st i v h := S.markers depth e sc st i v (hknown _ h)
  frames := S.frames
  lookup := S.lookup
  addFrame := S.addFrame
  define := S.define

/-- A name is not bound in a scope where no `let` of it is evaluated. -/
def Regime.unbound (sc : Scope) (name : String) : Regime where
  known w := ∀ e, w.node = .letStmt name e → w.scope ≠ sc
  invariant := (ofFrame sc (fun f => f.bindings.find? name = none) fun _ => True).invariant

theorem Regime.stable_unbound (sc : Scope) (name : String) :
    (unbound sc name).Stable (Value.Quotes fun _ => True) (· ≠ sc) fun _ => True := by
  have S : (ofFrame sc (fun f => f.bindings.find? name = none) fun _ => True).Stable
      (Value.Quotes fun _ => True) (· ≠ sc) fun _ => True := by
    refine stable_ofFrame quotable_any ?_ fun f' name v h => absurd rfl h
    rintro sc' hlt rfl
    omega
  exact S.assuming fun _ _ => trivial

/-- Evaluation binds a name in its own scope only where it evaluates a `let` of it. -/
theorem Regime.unbound_eval (sc : Scope) (name : String) (depth : Nat) (n : Node) :
    ((unbound sc name).judgement depth).holds (eval n sc)
      (Value.Result (Value.Quotes fun _ => True)) := by
  have S := stable_unbound sc name
  induction depth generalizing n with
  | zero => exact Regime.eval_zero _ n sc _
  | succ depth ih =>
    by_cases hlet : ∃ e, n = .letStmt name e
    · -- such a `let` is not evaluated here
      obtain ⟨e, rfl⟩ := hlet
      intro st _ hknown
      refine absurd rfl (hknown ⟨depth, .letStmt name e, sc, st⟩ ?_ e rfl)
      rw [visits_eval_succ]
      exact List.mem_cons_self
    · have U := S.upkeep (S.eval depth)
      have hrule : ((unbound sc name).judgement depth).holds (evalRule n sc)
          (Value.Result (Value.Quotes fun _ => True)) := by
        refine U.evalRule (fun m _ => ih m) ?_ ?_ ?_ ?_ ?_
        · rintro other e v rfl -
          refine Regime.modify _ depth fun st ⟨⟨f, hf, hnone⟩, _⟩ => ?_
          refine ⟨⟨f.bind other v, by rw [Store.frame?_define, if_pos rfl, hf]; rfl, ?_⟩,
            Store.every_quotes_any _⟩
          have hne : name ≠ other := by
            rintro rfl
            exact hlet ⟨e, rfl⟩
          exact (Table.find?_insert_ne v f.bindings hne).trans hnone
        · exact fun e i v _ _ i' n hn => nomatch hn
        · exact fun ps b i _ => S.functions i ps _ sc
        · exact fun ps b i _ => S.macros i ps _ sc
        · exact fun arg _ => S.evalQuote U (fun m _ _ => ih m) arg
      exact Regime.eval_succ _ depth hrule fun _ _ _ _ h => h

/-- A program binds a name among the variables only where it evaluates a `let` of it there. -/
theorem Regime.unbound_runProgram {values macros : Scope} (hne : macros ≠ values) (name : String)
    (program : Node) (depth : Nat) :
    ((unbound values name).judgement depth).holds (runProgram values macros program)
      fun _ => True := by
  have S := stable_unbound values name
  have hexpand : ((unbound values name).judgement depth).holds (expandProgram macros program)
      (Judgement.Either (fun _ => True) fun n => ∃ ss, n = .program ss) :=
    S.expandProgram hne program
  have hrun := S.quietSteps.runProgram S.note hexpand fun n _ => unbound_eval values name depth n
  exact Judgement.mono _ hrun fun _ _ => trivial

/-! ## Sessions -/

namespace Session

/-- What a text may change in a session. -/
structure Affects (depth : Nat) (source : String) (s s' : Session) : Prop where
  /-- A text that is no program changes nothing. -/
  malformed : ∀ e, Source.parse source = .error e → s' = s
  /-- A program binds the macros that it defines, however it ends; nothing else happens to the
  scope of macros. -/
  defines : ∀ program, Source.parse source = .ok program → ∃ f,
    s.store.frame? s.macros = some f ∧ s'.store.frame? s.macros =
      some (f.bindAll (Node.definitions s.macros s.store.nextIdentity program.statements))
  /-- Of several definitions of a macro the last one counts. -/
  latest : ∀ program, Source.parse source = .ok program → ∀ name,
    Table.find? name (s'.store.bindings s.macros) =
      (Table.find? name
        (Node.definitions s.macros s.store.nextIdentity program.statements).reverse).or
        (Table.find? name (s.store.bindings s.macros))
  /-- A program that cannot be expanded comes to an error and leaves the variables as they are. -/
  rejected : ∀ o r, s.attempt depth source = some o → o.result = .ok r → r.expanded = false →
    r.value.isError = true ∧ ∃ f, s.store.frame? s.values = some f ∧
      s'.store.frame? s.values = some f

/-- The scope of macros of a session holds its macros only. -/
def HoldsMacros (s : Session) (st : Store) : Prop :=
  ∀ b ∈ st.bindings s.macros, ∃ i params body, b.2 = .macroFn i params body s.macros

/-- A name that is bound among the variables of a session has been bound by a `let` that was
evaluated there. -/
def BindsByLet (s : Session) (visits : List Visit) : Prop :=
  ∀ name v, (s.store.bindings s.values).find? name = some v →
    ∃ w ∈ visits, (∃ e, w.node = .letStmt name e) ∧ w.scope = s.values

/-- An invariant of the frames that new sessions have and that all programs keep holds whenever
an evaluation begins, and of every session that is reached. -/
theorem invariant_log {R : Regime}
    (hframes : ∀ st st', st'.frames = st.frames → R.invariant st → R.invariant st')
    (hrun : ∀ depth program,
      (R.judgement depth).holds (runProgram new.values new.macros program) fun _ => True)
    (hnew : R.invariant new.store) (history : List Entry) (hknown : ∀ w ∈ log history, R.known w) :
    (∀ w ∈ log history, R.invariant w.store) ∧ R.invariant (after history).store := by
  induction history with
  | nil => exact ⟨nofun, hnew⟩
  | cons e history ih =>
    obtain ⟨hlog, hbefore⟩ := ih fun w hw => hknown w (List.mem_append_right _ hw)
    have hnow : ∀ w ∈ (after history).visits e.depth e.source, R.known w :=
      fun w hw => hknown w (List.mem_append_left _ hw)
    have hstep : (∀ w ∈ (after history).visits e.depth e.source, R.invariant w.store) ∧
        R.invariant ((after history).next e.depth e.source).store := by
      unfold visits at hnow ⊢
      unfold next attempt
      obtain ⟨hv, hm⟩ := scopes_after history
      cases hparse : Source.parse e.source with
      | error _ => exact ⟨nofun, hbefore⟩
      | ok program =>
        rw [hparse, hv, hm] at hnow
        rw [hv, hm]
        have hquiet : R.invariant (after history).store.quiet :=
          hframes (after history).store _ rfl hbefore
        obtain ⟨hvisits, hend, -⟩ := hrun e.depth program _ hquiet hnow
        exact ⟨hvisits, hframes (Outcome.store _) _ rfl hend⟩
    exact ⟨fun w hw => (List.mem_append.1 hw).elim (hstep.1 w) (hlog w), hstep.2⟩

theorem values_ne_macros : new.values ≠ new.macros := fun h => by cases h

/-- What is invariant of a frame does not depend on what has been printed. -/
theorem invariant_ofFrame_congr {sc : Scope} {P : Frame → Prop} (st st' : Store)
    (hframes : st'.frames = st.frames) (h : (Regime.ofFrame sc P fun _ => True).invariant st) :
    (Regime.ofFrame sc P fun _ => True).invariant st' := by
  refine ⟨?_, st'.every_quotes_any⟩
  rw [Store.frame?, hframes]
  exact h.1

/-- Whenever an evaluation begins and in every session that is reached, the scope of macros holds
its macros only. -/
theorem holdsMacros_after (history : List Entry) :
    (∀ w ∈ log history, (after history).HoldsMacros w.store) ∧
      (after history).HoldsMacros (after history).store := by
  have hnew : (Regime.ofFrame new.macros (Frame.HoldsMacros new.macros) fun _ => True).invariant
      new.store := ⟨⟨⟨none, []⟩, rfl, nofun⟩, Store.every_quotes_any _⟩
  have hholds : ∀ st, (Regime.ofFrame new.macros (Frame.HoldsMacros new.macros)
      fun _ => True).invariant st → (after history).HoldsMacros st := by
    rintro st ⟨⟨f, hf, hmacros⟩, -⟩ b hb
    rw [(scopes_after history).2] at hb ⊢
    rw [Store.bindings, hf] at hb
    exact hmacros b hb
  obtain ⟨hlog, hend⟩ := invariant_log invariant_ofFrame_congr
    (fun depth program => Regime.holds_runProgram_macros values_ne_macros program depth) hnew
    history fun _ _ => trivial
  exact ⟨fun w hw => hholds _ (hlog w hw), hholds _ hend⟩

/-- What is bound among the variables has been bound by a `let` that was evaluated there. -/
theorem bindsByLet_after (history : List Entry) : (after history).BindsByLet (log history) := by
  intro name v hv
  refine Classical.byContradiction fun hnone => ?_
  rw [(scopes_after history).1] at hv hnone
  have hknown : ∀ w ∈ log history, (Regime.unbound new.values name).known w :=
    fun w hw e he hsc => hnone ⟨w, hw, ⟨e, he⟩, hsc⟩
  have hnew : (Regime.unbound new.values name).invariant new.store :=
    ⟨⟨⟨none, []⟩, rfl, rfl⟩, Store.every_quotes_any _⟩
  obtain ⟨⟨f, hf, hunbound⟩, -⟩ := (invariant_log (R := Regime.unbound new.values name)
    invariant_ofFrame_congr
    (fun depth program => Regime.unbound_runProgram values_ne_macros.symm name program depth) hnew
    history hknown).2
  rw [Store.bindings, hf] at hv
  rw [hunbound] at hv
  cases hv

/-- The two scopes of a new session are empty, and there is nothing around them. -/
theorem frame?_new {sc : Scope} (h : sc.index < 2) : new.store.frame? sc = some ⟨none, []⟩ := by
  have hframe : ∀ f ∈ new.store.frames, f = ⟨none, []⟩ := by
    simp [new, startingIn, Store.newRoot, Store.addFrame, Store.empty]
  have hmade : sc.index < new.store.frames.size := h
  exact (Array.getElem?_eq_getElem hmade).trans (congrArg some (hframe _ (Array.getElem_mem hmade)))

/-- The two scopes of a session are there, and there is nothing around them. -/
theorem exists_frame_after (history : List Entry) (sc : Scope) (hsc : sc.index < 2) :
    ∃ f, (after history).store.frame? sc = some f ∧ f.parent = none := by
  have S : (Regime.ofFrame sc (·.parent = none) fun _ => True).Stable (Value.Quotes fun _ => True)
      (fun _ => True) fun _ => True :=
    Regime.stable_ofFrame quotable_any (fun _ _ => trivial) fun _ _ _ _ h => h
  have hnew : (Regime.ofFrame sc (·.parent = none) fun _ => True).invariant new.store :=
    ⟨⟨_, frame?_new hsc, rfl⟩, Store.every_quotes_any _⟩
  exact (after_invariant S trivial trivial hnew history fun _ _ => trivial).1

/-- A program leaves the store that it comes to when it is run. -/
theorem frame?_next {s : Session} {source : String} {program : Node}
    (h : Source.parse source = .ok program) (depth : Nat) (sc : Scope) :
    (s.next depth source).store.frame? sc =
      ((runProgram s.values s.macros program).outcome evalRule depth s.store.quiet).store.frame?
        sc := by
  unfold next attempt
  rw [h]
  rfl

/-- What a text does to a session whose scopes are there and are different ones. -/
theorem affects_next {s : Session} (hne : s.values ≠ s.macros) {f g : Frame}
    (hvalues : s.store.frame? s.values = some f) (hmacros : s.store.frame? s.macros = some g)
    (depth : Nat) (source : String) : Affects depth source s (s.next depth source) := by
  have hdefines : ∀ program, Source.parse source = .ok program →
      (s.next depth source).store.frame? s.macros =
        some (g.bindAll (Node.definitions s.macros s.store.nextIdentity program.statements)) := by
    intro program h
    rw [frame?_next h]
    have hquiet : s.store.quiet.frame? s.macros = some g := hmacros
    have hframe := Store.frame?_runProgram_of_ne hquiet hne.symm s.macros program depth
    rwa [if_pos rfl] at hframe
  constructor
  · intro e h
    unfold next attempt
    rw [h]
  · exact fun program h => ⟨g, hmacros, hdefines program h⟩
  · intro program h name
    rw [Store.bindings, hdefines program h, Store.bindings, hmacros]
    exact Table.find?_insertAll name _ g.bindings
  · intro o r ho hr hexpanded
    unfold attempt at ho
    cases hparse : Source.parse source with
    | error e =>
      rw [hparse] at ho
      cases ho
    | ok program =>
      rw [hparse] at ho
      obtain rfl := Option.some.inj ho
      have hquiet : s.store.quiet.frame? s.values = some f := hvalues
      obtain ⟨herror, hframe⟩ :=
        Store.frame?_runProgram_of_not_expanded hquiet hne.symm hr hexpanded
      exact ⟨herror, f, hvalues, (frame?_next hparse depth s.values).trans hframe⟩

/-- What texts do to the sessions that are reached. A text that is no program does nothing. Any
other binds the macros that it defines, and nothing else ever happens to the scope of macros, which
holds only macros made in it; and if its macro calls cannot be replaced, the variables stay as they
are. A name is bound among the variables only by a `let` that is evaluated there, so macro
definitions bind none. -/
theorem affects_after (history : List Entry) :
    (∀ depth source, Affects depth source (after history) ((after history).next depth source)) ∧
      ((∀ w ∈ log history, (after history).HoldsMacros w.store) ∧
        (after history).HoldsMacros (after history).store) ∧
      (after history).BindsByLet (log history) := by
  refine ⟨fun depth source => ?_, holdsMacros_after history, bindsByLet_after history⟩
  obtain ⟨hv, hm⟩ := scopes_after history
  obtain ⟨f, hf, -⟩ := exists_frame_after history new.values (by decide)
  obtain ⟨g, hg, -⟩ := exists_frame_after history new.macros (by decide)
  refine affects_next ?_ (hv ▸ hf) (hm ▸ hg) depth source
  rw [hv, hm]
  exact values_ne_macros

/-- A macro that yields a number cannot be replaced: the text is an error and binds no variable,
but it does bind its macro. -/
theorem affects_after_failed_expansion :
    let history : List Entry := [⟨9, "let m = macro(a) \x7b 1 \x7d;"⟩]
    let source := "let n = macro(a) \x7b a \x7d; let x = m(2);"
    (∃ o r, (after history).attempt 9 source = some o ∧ o.result = .ok r ∧
      r.expanded = false ∧ r.value.isError = true) ∧
      (((after history).next 9 source).store.frame? new.values).map (·.bindings.keys) = some [] ∧
      (Table.find? "n" (((after history).next 9 source).store.bindings new.macros)).isSome = true ∧
      ∀ b ∈ ((after history).next 9 source).store.bindings new.macros,
        ∃ i params body, b.2 = .macroFn i params body new.macros := by
  intro history source
  have hrun : ((after history).attempt 9 source).any (fun o =>
      match o.result with
      | .ok r => !r.expanded
      | .error _ => false) = true := by
    decide +kernel
  have hempty : ((after history).store.frame? new.values).map (·.bindings.keys) = some [] := by
    decide +kernel
  have hparse : Source.parse source = .ok (.program
      [.letStmt "n" (.macroLit ["a"] [.exprStmt (.ident "a")]),
        .letStmt "x" (.call (.ident "m") [.int 2])]) := Source.parse_of_toOption (by decide +kernel)
  obtain ⟨hv, hm⟩ := scopes_after history
  obtain ⟨o, ho, hfailed⟩ := (Option.any_eq_true _ _).1 hrun
  cases hresult : o.result with
  | error f =>
    rw [hresult] at hfailed
    cases hfailed
  | ok r =>
    rw [hresult] at hfailed
    have hexpanded : r.expanded = false := by simpa using hfailed
    obtain ⟨herror, f, hbefore, hafter⟩ :=
      ((affects_after history).1 9 source).rejected o r ho hresult hexpanded
    have hlatest := ((affects_after history).1 9 source).latest _ hparse "n"
    have hmacros := (affects_after (⟨9, source⟩ :: history)).2.1.2
    unfold HoldsMacros at hmacros
    rw [(scopes_after _).2] at hmacros
    rw [hv] at hbefore hafter
    rw [hm] at hlatest
    refine ⟨⟨o, r, ho, hresult, hexpanded, herror⟩, ?_, ?_, hmacros⟩
    · rw [hafter, ← hbefore, hempty]
    · rw [hlatest]
      rfl

end Session
end Monkey
