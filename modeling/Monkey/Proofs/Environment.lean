import Monkey.Proofs.Growth
import Monkey.Proofs.Operations

/-!
# Environments in a run

Running programs does nothing to frames but the three operations on them, and only
with scopes that there are. So whatever has been done by hand and by programs, the
frames are what operations make of them, and that goes for every moment of a run: the
operations done by the end of a visit are those done by its start and some more.

## Main definitions

* `Store.Arises` — the stores that come about.
* `Store.Becomes` — what happens to the frames between two moments.
* `Computation.KeepsOrder` — it happens in a run, from moment to moment.

## Main results

* `Store.growth_performs` — every step of evaluation performs operations.
* `Store.environments_wellFormed` — frames are well formed in every store that comes
  about, and at every moment of a run from there.
-/

namespace Monkey

open Monkey.Computation Monkey.Attempt

/-- Any values may be there. -/
def Ledger.any : Ledger where
  holds _ _ := True
  mint _ _ := trivial

/-- All that a store can refer to: its scopes, and any values. -/
def Store.inventory (st : Store) : Inventory where
  scopes := st.frames.size
  values _ := True

namespace Value
variable {st : Store} {I : Inventory} {v : Value}

theorem closedIn_of_inStock (hscopes : I.scopes = st.frames.size) (h : v.Every (InStock I)) :
    v.Every (ClosedIn st) :=
  h.imp fun _ hu sc hsc => by rw [← hscopes]; exact hu.closures sc hsc

theorem inStock_of_closedIn (h : v.Every (ClosedIn st)) : v.Every (InStock st.inventory) :=
  h.imp fun _ hu => ⟨fun _ => trivial, hu⟩

end Value

namespace Store
variable {st st' : Store} {trace more : List Operation}

theorem WellFormed.stocked (h : st.WellFormed trace) : st.Stocked .any st.inventory where
  scopes := rfl
  values := trivial
  parents := h.parents
  bound sc f hf b hb := Value.inStock_of_closedIn (h.closures sc f hf b hb)

/-! ## Every step performs operations -/

/-- Binding a name in a scope that has just been made. -/
theorem frames_define_child (p : Scope) (bs : Table String Value) (st : Store) (name : String)
    (v : Value) : ((st.child p bs).2.define ⟨st.frames.size⟩ name v).frames =
      (st.child p (bs.insert name v)).2.frames := by
  have hframe : ∀ sc : Scope, ((st.child p bs).2.define ⟨st.frames.size⟩ name v).frame? sc =
      (st.child p (bs.insert name v)).2.frame? sc := by
    intro sc
    rw [frame?_define, child, child, frame?_addFrame, frame?_addFrame]
    by_cases hnew : sc.index = st.frames.size
    · have hsc : Scope.mk st.frames.size = sc := by rw [← hnew]
      simp [hsc, hnew, Frame.bind]
    · have hsc : Scope.mk st.frames.size ≠ sc := fun h => hnew (congrArg Scope.index h.symm)
      simp [hsc, hnew]
  exact Array.ext_getElem? fun i => hframe ⟨i⟩

/-- A scope that is made with some bindings may as well be made without, and the names bound then. -/
theorem performs_child {p : Scope} (hp : p.index < st.frames.size) (entries : Table String Value)
    (hentries : ∀ e ∈ entries, e.2.Every (Value.ClosedIn st)) :
    ∃ ops, Performs ops st (st.child p (Table.insertAll entries [])).2 := by
  have hdefines : ∀ (entries bs : Table String Value),
      (∀ e ∈ entries, e.2.Every (Value.ClosedIn st)) →
      ∃ ops, Performs ops (st.child p bs).2 (st.child p (Table.insertAll entries bs)).2 := by
    intro entries
    induction entries with
    | nil => exact fun bs _ => ⟨[], .rest rfl⟩
    | cons e entries ih =>
      intro bs hentries
      obtain ⟨he, hrest⟩ := List.forall_mem_cons.1 hentries
      obtain ⟨ops, hops⟩ := ih (bs.insert e.1 e.2) hrest
      have hfits : (Operation.define ⟨st.frames.size⟩ e.1 e.2).Fits (st.child p bs).2 :=
        ⟨by simp, he.imp fun _ hv => hv.mono (by simp)⟩
      exact ⟨_, .step hfits (hops.of_frames (frames_define_child p bs st e.1 e.2).symm)⟩
  obtain ⟨ops, hops⟩ := hdefines entries [] hentries
  exact ⟨.child p :: ops, .step hp hops⟩

/-- Every step of evaluation performs operations. -/
theorem growth_performs :
    (stocked .any).Growth fun st st' => ∃ ops, Performs ops st st' where
  refl _ := ⟨[], .rest rfl⟩
  trans := fun ⟨ops, h⟩ ⟨ops', h'⟩ => ⟨ops ++ ops', h.append h'⟩
  fresh _ := ⟨[], .rest rfl⟩
  define := by
    rintro _ st _ sc _ name e v v' ⟨rfl, I, rfl, h⟩ ⟨rfl, hsc⟩ hv
    have hclosed := Value.closedIn_of_inStock h.scopes (Value.like_stocked_iff.1 hv).2
    exact ⟨[.define sc name v], .step ⟨h.scopes ▸ hsc, hclosed⟩ (.rest rfl)⟩
  block := by
    rintro _ st _ sc _ ss ⟨rfl, I, rfl, h⟩ ⟨rfl, hsc⟩
    exact performs_child (h.scopes ▸ hsc) [] (by simp)
  body := by
    rintro _ st _ sc _ ps body args args' ⟨rfl, I, rfl, h⟩ ⟨rfl, hsc⟩ hargs -
    refine performs_child (h.scopes ▸ hsc) _ fun e he => ?_
    obtain ⟨_, -, hlike⟩ := hargs.exists_right e.2 (List.of_mem_zip he).2
    exact Value.closedIn_of_inStock h.scopes (Value.like_stocked_iff.1 hlike).2
  printLine _ _ := ⟨[], .rest rfl⟩
  note _ _ := ⟨[], .rest rfl⟩

/-! ## From moment to moment -/

/-- Between two moments the operations `more` were performed, when it had been the operations
`trace` up to the first. No scope was moved in between, and the frames are well formed after it. -/
structure Becomes (trace more : List Operation) (st st' : Store) : Prop where
  performs : Performs more st st'
  parents : ∀ sc f, st.frame? sc = some f → ∃ f', st'.frame? sc = some f' ∧ f'.parent = f.parent
  wellFormed : st'.WellFormed (trace ++ more)

/-- What operations lead to from well-formed frames is well formed. -/
theorem Performs.becomes (h : Performs trace .empty st) (h' : Performs more st st') :
    Becomes trace more st st' :=
  ⟨h', fun _ _ => h'.parent_eq, (h.append h').wellFormed⟩

end Store

/-- At this visit a `let` binds a name to the value `v`, when the store is `st`. -/
def Visit.Binds (w : Visit) (name : String) (v : Value) (st : Store) : Prop :=
  ∃ e, w.node = .letStmt name e ∧
    (need e w.scope).run.outcome evalRule w.depth w.store = ⟨.ok (.ok v), st⟩

/-- A visit at which a `let` binds a name ends with that. -/
theorem Visit.Binds.outcome {w : Visit} {name : String} {v : Value} {st : Store}
    (h : w.Binds name v st) : w.outcome evalRule = ⟨.ok .null, st.define w.scope name v⟩ := by
  obtain ⟨depth, node, sc, st₀⟩ := w
  obtain ⟨e, rfl, hneed⟩ := h
  have hrule : evalRule (.letStmt name e) sc = settle (need e sc >>= fun v =>
      liftM (modify (Store.define sc name v)) >>= fun _ => pure .null) := by
    simp only [evalRule]
  show (evalRule (.letStmt name e) sc).outcome evalRule depth st₀ = _
  rw [hrule, settle_bind, Computation.outcome_bind, hneed]
  rfl

/-- From moment to moment of a run there are only more operations: from its start to the start of
each visit, to the end of the visit, and to the end of the run. The last operation in the visit of
a `let` binds the name. What visits and the run come to remembers only scopes that there are. -/
structure Computation.KeepsOrder (trace : List Operation) (depth : Nat) {α : Type}
    (x : Computation α) (value : α → Value) (st : Store) : Prop where
  becomes : ∃ more, Store.Becomes trace more st (x.outcome evalRule depth st).store
  closed : ∀ a, (x.outcome evalRule depth st).result = .ok a →
    (value a).Every (Value.ClosedIn (x.outcome evalRule depth st).store)
  visits : ∀ w ∈ x.visits evalRule depth st, ∃ before during behind,
    Store.Becomes trace before st w.store ∧
    Store.Becomes (trace ++ before) during w.store (w.outcome evalRule).store ∧
    Store.Becomes (trace ++ before ++ during) behind (w.outcome evalRule).store
      (x.outcome evalRule depth st).store ∧
    (∀ name v st', w.Binds name v st' → ∃ ops, during = ops ++ [.define w.scope name v]) ∧
    ∀ v, (w.outcome evalRule).result = .ok v →
      v.Every (Value.ClosedIn (w.outcome evalRule).store)

namespace Store
variable {st st' : Store} {trace : List Operation} {depth : Nat}

/-- The operations of a visit can be given such that the last one in the visit of a `let` binds the
name. -/
theorem Stocked.exists_during {w : Visit} (hw : w.Stocked .any)
    (h : ∃ ops, Performs ops w.store (w.outcome evalRule).store) :
    ∃ during, Performs during w.store (w.outcome evalRule).store ∧
      ∀ name v st', w.Binds name v st' → ∃ ops, during = ops ++ [.define w.scope name v] := by
  obtain ⟨I, hst, hsc⟩ := hw
  by_cases hbinds : ∃ name v st', w.Binds name v st'
  · obtain ⟨name, v, st', hbinds⟩ := hbinds
    have ⟨e, hnode, hneed⟩ := hbinds
    have hadmits : (Matching.stocked I).admits w.scope w.scope e := ⟨rfl, hsc⟩
    have hrun : (growth_performs.pairing w.depth).holds (.stocked I) (need e w.scope).run
        (need e w.scope).run _ :=
      Pairing.need (growth_performs.eval (laws_stocked .any) w.depth hadmits)
    obtain ⟨⟨ops, hops⟩, -⟩ := hrun.2 _ _ _ (Matching.le_refl _) ⟨rfl, I, rfl, hst⟩
    obtain ⟨-, I', hle, hafter, hvalue⟩ := hst.of_holds hrun.1
    rw [hneed] at hops hafter hvalue
    cases hvalue _ rfl with
    | ok hlike =>
    have hfits : (Operation.define w.scope name v).Fits st' :=
      ⟨Nat.lt_of_lt_of_le hsc (hafter.scopes ▸ hle),
        Value.closedIn_of_inStock hafter.scopes (Value.like_stocked_iff.1 hlike).2⟩
    refine ⟨ops ++ [.define w.scope name v], ?_, fun name' v' st'' hbinds' => ?_⟩
    · rw [hbinds.outcome]
      exact hops.append (.step hfits (.rest rfl))
    · obtain ⟨e', hnode', hneed'⟩ := hbinds'
      obtain ⟨rfl, rfl⟩ := Node.letStmt.inj (hnode.symm.trans hnode')
      obtain ⟨hresult, -⟩ := Outcome.mk.inj (hneed.symm.trans hneed')
      obtain rfl := Except.ok.inj (Except.ok.inj hresult)
      exact ⟨ops, rfl⟩
  · obtain ⟨during, hduring⟩ := h
    exact ⟨during, hduring, fun name v st' h => absurd ⟨name, v, st', h⟩ hbinds⟩

/-- A computation that goes alike beside itself keeps order. -/
theorem Performs.keepsOrder (h : Performs trace .empty st) {α : Type} {x : Computation α}
    {value : α → Value}
    (hx : (growth_performs.pairing depth).holds (.stocked st.inventory) x x
      fun M a a' => (value a).Like M (value a')) :
    x.KeepsOrder trace depth value st := by
  have hstocked := h.wellFormed.stocked
  obtain ⟨hkeeps, hleads⟩ := hx
  obtain ⟨⟨more, hmore⟩, hvisits⟩ := hleads _ st st (Matching.le_refl _) ⟨rfl, _, rfl, hstocked⟩
  obtain ⟨hmeets, I, -, hafter, hvalue⟩ := hstocked.of_holds hkeeps
  refine ⟨⟨more, h.becomes hmore⟩, fun a ha => ?_, fun w hw => ?_⟩
  · exact Value.closedIn_of_inStock hafter.scopes (Value.like_stocked_iff.1 (hvalue a ha)).2
  · obtain ⟨⟨before, hbefore⟩, hvisit, ⟨behind, hbehind⟩⟩ := hvisits w hw
    obtain ⟨during, hduring, hbinds⟩ := Stocked.exists_during (hmeets w hw) hvisit
    refine ⟨before, during, behind, h.becomes hbefore, (h.append hbefore).becomes hduring,
      ((h.append hbefore).append hduring).becomes hbehind, hbinds, fun v hv => ?_⟩
    obtain ⟨I', hw', hsc⟩ := hmeets w hw
    obtain ⟨-, I'', -, hend, hresult⟩ := hw'.eval hsc w.node (w.depth + 1)
    rw [outcome_eval_succ] at hend hresult
    exact Value.closedIn_of_inStock hend.scopes (hresult v hv)

theorem Performs.eval (h : Performs trace .empty st) {sc : Scope} (hsc : sc.index < st.frames.size)
    (n : Node) (depth : Nat) : (Computation.eval n sc).KeepsOrder trace depth id st :=
  h.keepsOrder (growth_performs.eval (laws_stocked .any) depth ⟨rfl, hsc⟩)

theorem Performs.runProgram (h : Performs trace .empty st) {values macros : Scope}
    (hvalues : values.index < st.frames.size) (hmacros : macros.index < st.frames.size)
    (program : Node) (depth : Nat) :
    (Monkey.runProgram values macros program).KeepsOrder trace depth Ran.value st := by
  have hrun := growth_performs.runProgram (laws_stocked .any)
    (by
      rintro _ st _ n ⟨rfl, I, rfl, h⟩
      exact ⟨rfl, I, rfl, h.of_frames rfl rfl⟩)
    depth (M := .stocked st.inventory) (fun _ => trivial) (fun _ => ⟨rfl, hvalues⟩)
    (fun _ => ⟨rfl, hmacros⟩) program
  exact h.keepsOrder (Pairing.mono _ hrun fun _ _ _ _ h => h.1)

/-! ## All that comes about -/

/-- The stores that come about when operations are performed by hand, trees are evaluated and
programs are run in scopes that there are, in any order. -/
inductive Arises : Store → Prop where
  | empty : Arises .empty
  | operate {st : Store} (op : Operation) : Arises st → op.Fits st → Arises (op.perform st)
  | evaluate {st : Store} {sc : Scope} (n : Node) (depth : Nat) : Arises st →
    sc.index < st.frames.size → Arises (n.evaluate depth sc st).store
  | run {st : Store} {values macros : Scope} (program : Node) (depth : Nat) : Arises st →
    values.index < st.frames.size → macros.index < st.frames.size →
    Arises ((Monkey.runProgram values macros program).outcome evalRule depth st).store
  /-- Something else changes than frames. -/
  | rest {st st' : Store} : Arises st → st'.frames = st.frames → Arises st'

/-- Every store that comes about is one that operations lead to. -/
theorem Arises.exists_performs (h : Arises st) : ∃ trace, Performs trace .empty st := by
  induction h with
  | empty => exact ⟨[], .rest rfl⟩
  | operate op _ hop ih =>
    obtain ⟨trace, h⟩ := ih
    exact ⟨_, h.append (.step hop (.rest rfl))⟩
  | evaluate n depth _ hsc ih =>
    obtain ⟨trace, h⟩ := ih
    obtain ⟨more, hmore⟩ := (h.eval hsc n depth).becomes
    rw [Node.evaluate, run_eq]
    exact ⟨_, h.append hmore.performs⟩
  | run program depth _ hvalues hmacros ih =>
    obtain ⟨trace, h⟩ := ih
    obtain ⟨more, hmore⟩ := (h.runProgram hvalues hmacros program depth).becomes
    exact ⟨_, h.append hmore.performs⟩
  | rest _ hframes ih =>
    obtain ⟨trace, h⟩ := ih
    exact ⟨_, h.append (.rest hframes)⟩

end Store

/-- Sessions come about by operations and by running programs. -/
theorem Session.arises_after (history : List Entry) :
    (after history).store.Arises ∧
      (after history).values.index < (after history).store.frames.size ∧
      (after history).macros.index < (after history).store.frames.size := by
  obtain ⟨hv, hm⟩ := scopes_after history
  rw [hv, hm]
  refine after_induction (P := fun st => st.Arises ∧
    new.values.index < st.frames.size ∧ new.macros.index < st.frames.size) ?_ ?_ ?_ history
  · refine ⟨?_, by decide, by decide⟩
    exact .operate .root (.operate .root .empty trivial) trivial
  · rintro st ⟨h, hscopes⟩
    exact ⟨h.rest rfl, hscopes⟩
  · rintro program depth st ⟨h, hvalues, hmacros⟩
    obtain ⟨trace, hperforms⟩ := h.exists_performs
    obtain ⟨more, hmore⟩ := (hperforms.runProgram hvalues hmacros program depth).becomes
    have hsize := hmore.performs.size_le
    refine ⟨h.run program depth hvalues hmacros, ?_, ?_⟩
    · exact Nat.lt_of_lt_of_le hvalues hsize
    · exact Nat.lt_of_lt_of_le hmacros hsize

namespace Store

/-- Environments are well formed, whatever has been done by hand and by programs, and so in every
session that is reached. There are operations that lead to the frames, and the frames are as any such
operations have it. If a tree is evaluated or a program is run from there, they are so from moment
to moment: there are only more operations, no scope is moved, and every function and macro that
anything comes to remembers a scope that there is. -/
theorem environments_wellFormed :
    (∀ history : List Entry, (Session.after history).store.Arises) ∧
    ∀ st : Store, st.Arises → (∃ trace, Performs trace .empty st) ∧
      ∀ trace, Performs trace .empty st → st.WellFormed trace ∧
        ∀ depth, (∀ (n : Node) (sc : Scope), sc.index < st.frames.size →
            (Computation.eval n sc).KeepsOrder trace depth id st) ∧
          ∀ (program : Node) (values macros : Scope), values.index < st.frames.size →
            macros.index < st.frames.size →
            (Monkey.runProgram values macros program).KeepsOrder trace depth Ran.value st := by
  refine ⟨fun history => (Session.arises_after history).1, fun st h => ⟨h.exists_performs, ?_⟩⟩
  refine fun trace hperforms => ⟨hperforms.wellFormed, fun depth => ⟨fun n sc hsc => ?_, ?_⟩⟩
  · exact hperforms.eval hsc n depth
  · exact fun program values macros hvalues hmacros =>
      hperforms.runProgram hvalues hmacros program depth

/-- A function that was made inside a call remembers a scope from which the parameter means the
argument of that call, whatever has been bound to the name elsewhere since. -/
theorem environments_wellFormed_closure :
    let s := Session.after [⟨9, "let f = fn(x) { fn() { x } }; let g = f(1); let x = 2;"⟩]
    ∃ trace g sc scs v, Performs trace .empty s.store ∧ s.store.lookup "g" s.values = some g ∧
      g.closure? = some sc ∧ s.store.Chain sc scs ∧
      (scs.findSome? fun sc' => Operation.latest sc' "x" trace) = some v ∧ v.inspect = "1" ∧
      (Computation.eval (.call (.ident "g") []) s.values).KeepsOrder trace 9 id s.store := by
  intro s
  have hlookups : (s.store.lookup "g" s.values).any (fun g => g.closure?.any fun sc =>
      decide (sc.index < s.store.frames.size) &&
        (s.store.lookup "x" sc).any fun v => decide (v.inspect = "1")) = true := by
    decide +kernel
  have hvalues : s.values.index < s.store.frames.size := by decide +kernel
  obtain ⟨⟨trace, hperforms⟩, hall⟩ :=
    environments_wellFormed.2 s.store (environments_wellFormed.1 _)
  obtain ⟨hwellFormed, hruns⟩ := hall trace hperforms
  obtain ⟨g, hg, hclosure⟩ := (Option.any_eq_true _ _).1 hlookups
  obtain ⟨sc, hsc, hx⟩ := (Option.any_eq_true _ _).1 hclosure
  rw [Bool.and_eq_true, decide_eq_true_iff] at hx
  obtain ⟨hmade, hx⟩ := hx
  obtain ⟨v, hv, hshown⟩ := (Option.any_eq_true _ _).1 hx
  obtain ⟨scs, hchain, -, hmeans⟩ := hwellFormed.meanings sc hmade
  exact ⟨trace, g, sc, scs, v, hperforms, hg, hsc, hchain, (hmeans "x").symm.trans hv,
    of_decide_eq_true hshown, (hruns 9).1 _ _ hvalues⟩

end Store
end Monkey
