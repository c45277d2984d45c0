import Monkey.Proofs.Expansion

/-!
# Invariants of runs that depend on the trees

A regime (`Monkey.Proofs.Regime`) is kept whatever trees are evaluated, because it
asks nothing of them. A `Conduct` does: it says which trees are evaluated, in which
scopes, and how a run may fail, besides what is to hold of the store. It takes
nothing for granted in turn.

What it asks of trees has to go from a tree to its parts, and through the store:
the body of a function is evaluated when the function is called, long after the
tree that it was in. So values have a shape here that says what is known of the
bodies in them and of the scopes that they remember. `Conduct.Lawful` collects what
makes a conduct go through evaluation.

## Main results

* `Conduct.Lawful.eval` — evaluation keeps to a lawful conduct.
* `Conduct.Lawful.findMacro` — the bodies of macros that are found yield results.
* `Conduct.Lawful.outcome_visit` — what a visit of such a run comes to.
-/

namespace Monkey

open Monkey.Computation

/-- What is to hold of the store, which trees are evaluated in which scopes, and how a run may
fail. -/
structure Conduct where
  invariant : Store → Prop
  trees : Node → Prop
  scopes : Scope → Prop
  failing : Failure → Prop

namespace Conduct
variable (C : Conduct) (depth : Nat)

/-- The evaluation is of a tree in a scope where it may be evaluated, from a store with the
invariant. -/
structure Admits (w : Visit) : Prop where
  store : C.invariant w.store
  tree : C.trees w.node
  scope : C.scopes w.scope

/-- From a store with the invariant, a computation makes such evaluations only, leaves a store with
the invariant, and has an answer that satisfies `post` or fails as it may. -/
def Keeps {α : Type} (x : Computation α) (post : α → Prop) : Prop :=
  ∀ st, C.invariant st →
    (∀ w ∈ x.visits evalRule depth st, C.Admits w) ∧
      C.invariant (x.outcome evalRule depth st).store ∧
      Judgement.Either C.failing post (x.outcome evalRule depth st).result

theorem keeps_bind {α β : Type} {x : Computation α} {f : α → Computation β} {mid : α → Prop}
    {post : β → Prop} (hx : C.Keeps depth x mid) (hf : ∀ a, mid a → C.Keeps depth (f a) post) :
    C.Keeps depth (x >>= f) post := by
  intro st hst
  rw [visits_bind, outcome_bind]
  obtain ⟨hv, hend, hmid⟩ := hx st hst
  generalize x.outcome evalRule depth st = o at hend hmid ⊢
  obtain ⟨result, st'⟩ := o
  cases result with
  | error e => exact ⟨by simpa using hv, hend, hmid⟩
  | ok a =>
    obtain ⟨hv', hend', hpost⟩ := hf a hmid st' hend
    exact ⟨fun w hw => (List.mem_append.1 hw).elim (hv w) (hv' w), hend', hpost⟩

/-- The judgement of a conduct. -/
def judgement : Judgement Computation where
  holds x post := C.Keeps depth x post
  pure h := fun st hst => ⟨by simp, hst, h⟩
  bind hx hf := C.keeps_bind depth hx hf
  mono {α x mid post} hx h := fun st hst => by
    obtain ⟨hv, hend, hmid⟩ := hx st hst
    refine ⟨hv, hend, ?_⟩
    generalize (x.outcome evalRule depth st).result = result at hmid ⊢
    cases result with
    | error e => exact hmid
    | ok a => exact h a hmid

theorem fail {α : Type} {e : Failure} (he : C.failing e) (post : α → Prop) :
    (C.judgement depth).holds (Computation.fail e : Computation α) post :=
  fun _ hst => ⟨by simp, hst, he⟩

theorem reading {α : Type} {f : Store → α} {post : α → Prop}
    (h : ∀ st, C.invariant st → post (f st)) :
    (C.judgement depth).holds (Computation.reading f) post :=
  fun st hst => ⟨by simp, hst, h st hst⟩

theorem yielding {α : Type} {f : Store → α × Store} {post : α → Prop}
    (h : ∀ st, C.invariant st → C.invariant (f st).2 ∧ post (f st).1) :
    (C.judgement depth).holds (Computation.yielding f) post :=
  fun st hst => ⟨by simp, h st hst⟩

theorem modify {f : Store → Store} (h : ∀ st, C.invariant st → C.invariant (f st)) :
    (C.judgement depth).holds (Computation.modify f) fun _ => True :=
  fun st hst => ⟨by simp, h st hst, trivial⟩

/-- One level deeper an evaluation is its rule. -/
theorem eval_succ {n : Node} {sc : Scope} {post : Value → Prop} (hn : C.trees n) (hsc : C.scopes sc)
    (h : (C.judgement depth).holds (evalRule n sc) post) :
    (C.judgement (depth + 1)).holds (Computation.eval n sc) post := by
  intro st hst
  rw [visits_eval_succ, outcome_eval_succ]
  obtain ⟨hv, hend, hpost⟩ := h st hst
  exact ⟨List.forall_mem_cons.2 ⟨⟨hst, hn, hsc⟩, hv⟩, hend, hpost⟩

end Conduct

/-! ## Lawful conducts -/

/-- What makes a conduct go through evaluation, with values of a shape: the parts of trees that are
evaluated are, too, and so are the bodies of functions and macros, in the scopes that these
remember; the invariant speaks of frames, and withstands new scopes and the binding of names; and
quotations have the shape, if what is unquoted in them may be evaluated. -/
structure Conduct.Lawful (C : Conduct) (shape : Value → Prop) : Prop where
  tooDeep : C.failing .depthExceeded
  unwritable : C.failing .unwritableNumber
  below : ∀ n, C.trees n → ∀ c ∈ n.children, C.trees c
  data : ∀ v, v.isData = true → shape v
  markers : ∀ i v, shape (.returned i v)
  functions : ∀ i ps b sc, C.trees (.block b) → C.scopes sc → shape (.function i ps (.block b) sc)
  macros : ∀ i ps b sc, C.trees (.block b) → C.scopes sc → shape (.macroFn i ps (.block b) sc)
  functionBody : ∀ i ps body sc, shape (.function i ps body sc) → C.trees body ∧ C.scopes sc
  macroBody : ∀ i ps body sc, shape (.macroFn i ps body sc) → C.trees body ∧ C.scopes sc
  frames : ∀ st st', st'.frames = st.frames → C.invariant st → C.invariant st'
  lookup : ∀ st name sc v, C.invariant st → C.scopes sc → st.lookup name sc = some v →
    v.Every shape
  child : ∀ st sc bindings, C.invariant st → C.scopes sc → (∀ b ∈ bindings, b.2.Every shape) →
    C.invariant (st.child sc bindings).2 ∧ C.scopes ⟨st.frames.size⟩
  define : ∀ st sc name v, C.invariant st → C.scopes sc → v.Every shape →
    C.invariant (st.define sc name v)
  quotation : ∀ depth arg sc, QuietSteps (C.judgement depth) shape →
    C.trees (.call (.ident "quote") [arg]) →
    (∀ n, C.trees n → (C.judgement depth).holds (Computation.eval n sc) (Value.Result shape)) →
    (Upkeep.attempts (C.judgement depth)).holds (evalQuote arg sc) (Value.Result shape)

/-- What a tree has evaluated in its own scope is below it. -/
theorem Node.parts_subset_children (n : Node) : n.parts ⊆ n.children := by
  intro m hm
  cases n with
  | program ss => exact mem_children.2 (.inr (.inl hm))
  | ifExpr c t e => simpa [children, parts] using hm
  | _ => exact mem_children.2 (.inl hm)

namespace Conduct.Lawful
variable {C : Conduct} {shape : Value → Prop} (L : C.Lawful shape) {depth : Nat}
include L

theorem quietSteps : QuietSteps (C.judgement depth) shape where
  data := L.data
  fresh := C.yielding depth fun st h => ⟨L.frames st _ rfl h, trivial⟩
  unbound _ _ := C.reading depth fun _ _ => trivial

theorem note (n : Note) :
    (C.judgement depth).holds (Computation.modify (Store.note n)) fun _ => True :=
  C.modify depth fun st h => L.frames st _ rfl h

theorem opened {sc : Scope} (hsc : C.scopes sc) {bindings : Table String Value}
    (hb : ∀ b ∈ bindings, b.2.Every shape) :
    (C.judgement depth).holds (openScope sc bindings) C.scopes :=
  C.yielding depth fun st h => L.child st sc bindings h hsc hb

theorem steps : Steps (C.judgement depth) shape where
  toQuietSteps := L.quietSteps
  printLine _ := C.modify depth fun st h => L.frames st _ rfl h
  unwritable := C.fail depth L.unwritable _

/-- The value of a call is a result, if bodies evaluate to results. -/
theorem call {callee : Value} {args : List Value} (h : ∀ v ∈ callee :: args, v.Every shape)
    (bodies : ∀ body sc, C.trees body → C.scopes sc →
      (C.judgement depth).holds (Computation.eval body sc) (Value.Result shape)) :
    (C.judgement depth).holds (callee.call args) (Value.Result shape) := by
  have hargs : ∀ v ∈ args, v.Every shape := fun v hv => h v (List.mem_cons_of_mem _ hv)
  refine L.steps.call hargs ?_
  rintro i params body sc rfl hlength
  have hshape := (Value.every_iff.1 (h _ List.mem_cons_self)).1
  obtain ⟨hbody, hsc⟩ := L.functionBody i params body sc hshape
  rw [Value.call, if_pos hlength]
  refine (C.judgement depth).bind (L.opened hsc (Upkeep.bindParams hargs)) fun inner hinner => ?_
  refine (C.judgement depth).bind (bodies body inner hbody hinner) fun v hv => ?_
  exact (C.judgement depth).pure hv.unwrapped

/-- The rule of a tree keeps to a lawful conduct if evaluation one level down does. -/
theorem evalRule {n : Node} {sc : Scope} (hn : C.trees n) (hsc : C.scopes sc)
    (ih : ∀ m sc', C.trees m → C.scopes sc' →
      (C.judgement depth).holds (Computation.eval m sc') (Value.Result shape)) :
    (C.judgement depth).holds (Monkey.evalRule n sc) (Value.Result shape) := by
  have hchild : ∀ m ∈ n.children, C.trees m := L.below n hn
  have hbody : ∀ ps b, n = .fnLit ps b ∨ n = .macroLit ps b → C.trees (.block b) := by
    rintro ps b (rfl | rfl) <;> exact hchild _ (by simp [Node.children])
  refine L.quietSteps.evalRule ?_ ?_ ?_ ?_ ?_ ?_ ?_ ?_ ?_
  · exact fun name => C.reading depth fun st h v hv => L.lookup st name sc v h hsc hv
  · exact fun m hm => ih m sc (hchild m (n.parts_subset_children hm)) hsc
  · rintro ss rfl
    refine (C.judgement depth).bind (L.opened hsc (by simp)) fun inner hinner => ?_
    refine L.quietSteps.evalStatements_null fun s hs => ih s inner (hchild s ?_) hinner
    exact Node.mem_children.2 (.inr (.inl hs))
  · rintro callee args rfl
    rw [evalCall_eq]
    have hoperands : (Upkeep.attempts (C.judgement depth)).holds (evalOperands callee args sc)
        fun p => ∀ v ∈ p.1 :: p.2, v.Every shape :=
      Upkeep.evalOperands fun m hm => ih m sc (hchild m (Node.mem_children.2 (.inl hm))) hsc
    refine (Upkeep.attempts (C.judgement depth)).bind hoperands fun p hp => ?_
    exact (C.judgement depth).lift (L.call hp ih)
  · exact fun name e v _ hv => C.modify depth fun st h => L.define st sc name v h hsc hv
  · exact fun e i v _ _ => L.markers i v
  · exact fun ps b i h => L.functions i ps b sc (hbody ps b (.inl h)) hsc
  · exact fun ps b i h => L.macros i ps b sc (hbody ps b (.inr h)) hsc
  · rintro arg rfl
    exact L.quotation depth arg sc L.quietSteps hn fun m hm => ih m sc hm hsc

/-- Evaluation keeps to a lawful conduct and yields a result. -/
theorem eval (depth : Nat) (n : Node) (sc : Scope) (hn : C.trees n) (hsc : C.scopes sc) :
    (C.judgement depth).holds (Computation.eval n sc) (Value.Result shape) := by
  induction depth generalizing n sc with
  | zero =>
    intro st hst
    rw [visits_eval, outcome_eval]
    exact ⟨by simp [visitsWithin], hst, L.tooDeep⟩
  | succ depth ih => exact C.eval_succ depth hn hsc (L.evalRule hn hsc ih)

/-- What a visit comes to that a lawful conduct admits: it leaves a store with the invariant, and has
a result or fails as it may. -/
theorem outcome_visit {w : Visit} (hw : C.Admits w) :
    C.invariant (w.outcome Monkey.evalRule).store ∧
      Judgement.Either C.failing (Value.Result shape) (w.outcome Monkey.evalRule).result :=
  (L.evalRule hw.tree hw.scope (L.eval w.depth) w.store hw.store).2

/-! ## Expansion -/

/-- Macros that are found yield results. -/
theorem findMacro (name : String) {macros : Scope} (hmacros : C.scopes macros) :
    (C.judgement depth).holds (findMacro name macros)
      fun found => ∀ m, found = some m → (C.judgement depth).Opens shape m.2.1 m.2.2 := by
  refine C.reading depth fun st hst m hm => ?_
  split at hm
  · next i params body sc hlookup =>
    obtain rfl := Option.some.inj hm
    have hshape := (Value.every_iff.1 (L.lookup st name macros _ hst hmacros hlookup)).1
    obtain ⟨hbody, hsc⟩ := L.macroBody i params body sc hshape
    exact fun _ hb => ⟨C.scopes, L.opened hsc hb, fun sc' => L.eval depth body sc' hbody⟩
  · cases hm

end Conduct.Lawful
end Monkey
