import Monkey.Proofs.Every
import Monkey.Proofs.Inventory

/-!
# What is done to frames

Three things are done to frames: an outermost scope is made, a scope is made inside
another, and a name is bound in a scope. A list of such operations, each of which names
only scopes that there are, says all there is to know of the frames that they lead to.
A scope was made after the scope around it, so the walk outwards ends. A name means
what the latest operation bound it to in the nearest scope of the walk where one ever
did.

## Main definitions

* `Operation`, `Operation.perform`, `Operation.Fits`.
* `Store.Performs` — operations lead from the frames of one store to those of another.
* `Operation.latest` — what a name was bound to last.
* `Store.Chain` — the walk from a scope outwards.
* `Store.WellFormed` — frames are as the operations have it.

## Main results

* `Store.Performs.find?_bindings` — a scope binds what was bound last.
* `Store.Performs.wellFormed` — frames that operations lead to are well formed.
-/

namespace Monkey

/-- A function or macro remembers a scope that there is. -/
def Value.ClosedIn (st : Store) (v : Value) : Prop :=
  ∀ sc, v.closure? = some sc → sc.index < st.frames.size

theorem Value.ClosedIn.mono {st st' : Store} (h : st.frames.size ≤ st'.frames.size) {v : Value}
    (hv : v.ClosedIn st) : v.ClosedIn st' :=
  fun sc hsc => Nat.lt_of_lt_of_le (hv sc hsc) h

/-- Something that is done to frames. -/
inductive Operation where
  /-- An outermost scope is made. -/
  | root
  /-- A scope is made inside another. -/
  | child (parent : Scope)
  /-- A name is bound in a scope. -/
  | define (sc : Scope) (name : String) (v : Value)

namespace Operation

/-- Does it. -/
def perform : Operation → Store → Store
  | root, st => st.newRoot.2
  | child p, st => (st.child p []).2
  | define sc name v, st => st.define sc name v

/-- The operation names only scopes that there are, and binds a value that remembers no others. -/
def Fits (st : Store) : Operation → Prop
  | root => True
  | child p => p.index < st.frames.size
  | define sc _ v => sc.index < st.frames.size ∧ v.Every (Value.ClosedIn st)

/-- What the operation binds a name of a scope to. -/
def binding? (sc : Scope) (name : String) : Operation → Option Value
  | define sc' name' v => if sc' = sc ∧ name' = name then some v else none
  | _ => none

/-- What a name of a scope was bound to last. -/
def latest (sc : Scope) (name : String) : List Operation → Option Value
  | [] => none
  | op :: ops => (latest sc name ops).or (op.binding? sc name)

variable {op : Operation} {st st' : Store}

theorem frames_perform (h : st'.frames = st.frames) :
    (op.perform st').frames = (op.perform st).frames := by
  cases op <;> simp [perform, Store.newRoot, Store.child, Store.addFrame, Store.define, h]

theorem Fits.of_frames (hop : op.Fits st) (h : st'.frames = st.frames) : op.Fits st' := by
  cases op with
  | root => trivial
  | child p => simpa [Fits, h] using hop
  | define sc name v =>
    exact ⟨by rw [h]; exact hop.1, hop.2.imp fun _ hv => hv.mono (Nat.le_of_eq (by rw [h]))⟩

theorem size_perform (op : Operation) (st : Store) :
    st.frames.size ≤ (op.perform st).frames.size := by
  cases op <;> simp [perform, Store.newRoot, Store.child, Store.addFrame]

/-- Scopes stay where they are. -/
theorem parent_perform {sc : Scope} {f : Frame} (hf : st.frame? sc = some f) :
    ∃ f', (op.perform st).frame? sc = some f' ∧ f'.parent = f.parent := by
  cases op with
  | root => exact ⟨f, Store.frame?_addFrame_of_some _ hf, rfl⟩
  | child p => exact ⟨f, Store.frame?_addFrame_of_some _ hf, rfl⟩
  | define sc' name v =>
    simp only [perform, Store.frame?_define, hf]
    split
    · exact ⟨_, rfl, rfl⟩
    · exact ⟨f, rfl, rfl⟩

/-- A new scope binds nothing, as if it had not been made. -/
theorem bindings_addFrame (parent : Option Scope) (st : Store) (sc : Scope) :
    (st.addFrame ⟨parent, []⟩).2.bindings sc = st.bindings sc := by
  unfold Store.bindings
  rw [Store.frame?_addFrame]
  by_cases hnew : sc.index = st.frames.size
  · have hnone : st.frame? sc = none := Array.getElem?_eq_none (Nat.le_of_eq hnew.symm)
    rw [if_pos hnew, hnone]
  · rw [if_neg hnew]

/-- What an operation binds is bound, and everything else stays. -/
theorem find?_bindings_perform (hop : op.Fits st) (sc : Scope) (name : String) :
    ((op.perform st).bindings sc).find? name =
      (op.binding? sc name).or ((st.bindings sc).find? name) := by
  cases op with
  | root => rw [perform, Store.newRoot, bindings_addFrame]; rfl
  | child p => rw [perform, Store.child, bindings_addFrame]; rfl
  | define sc' name' v =>
    obtain ⟨f, hf⟩ : ∃ f, st.frame? sc' = some f :=
      ⟨_, Array.getElem?_eq_getElem hop.1⟩
    simp only [perform, binding?, Store.bindings, Store.frame?_define]
    by_cases hsc : sc' = sc
    · subst hsc
      by_cases hname : name' = name
      · simp [hf, Frame.bind, hname, Table.find?_insert_self]
      · simp [hf, Frame.bind, hname, Table.find?_insert_ne v f.bindings (Ne.symm hname)]
    · simp [hsc]

end Operation

namespace Store

/-- The operations, one after the other, lead from the frames of one store to those of another. -/
inductive Performs : List Operation → Store → Store → Prop where
  | rest {st st' : Store} : st'.frames = st.frames → Performs [] st st'
  | step {op : Operation} {ops : List Operation} {st st' : Store} : op.Fits st →
    Performs ops (op.perform st) st' → Performs (op :: ops) st st'

/-- The walk from a scope outwards: the scope, the scope around it, and so on. -/
inductive Chain (st : Store) : Scope → List Scope → Prop where
  | root {sc : Scope} {f : Frame} : st.frame? sc = some f → f.parent = none → Chain st sc [sc]
  | inside {sc p : Scope} {f : Frame} {scs : List Scope} : st.frame? sc = some f →
    f.parent = some p → Chain st p scs → Chain st sc (sc :: scs)

/-- The frames are as the operations have it: every scope was made after the scope around it;
functions and macros that are bound, or are inside what is bound, remember scopes that there are;
and from every scope the walk outwards ends, with each scope made before the last, and a name means
what it was bound to last in the nearest scope of the walk where it ever was. -/
structure WellFormed (trace : List Operation) (st : Store) : Prop where
  parents : ∀ sc f p, st.frame? sc = some f → f.parent = some p → p.index < sc.index
  closures : st.Every (Value.ClosedIn st)
  meanings : ∀ sc : Scope, sc.index < st.frames.size → ∃ scs, st.Chain sc scs ∧
    scs.Pairwise (fun inner outer => outer.index < inner.index) ∧
    ∀ name, st.lookup name sc = scs.findSome? fun sc' => Operation.latest sc' name trace

namespace Performs
variable {ops ops' : List Operation} {st st' st'' : Store}

theorem of_frames (h : Performs ops st' st'') (hframes : st'.frames = st.frames) :
    Performs ops st st'' := by
  induction h generalizing st with
  | rest h => exact .rest (h.trans hframes)
  | step hop _ ih =>
    exact .step (hop.of_frames hframes.symm) (ih (Operation.frames_perform hframes))

theorem append (h : Performs ops st st') (h' : Performs ops' st' st'') :
    Performs (ops ++ ops') st st'' := by
  induction h with
  | rest hframes => exact h'.of_frames hframes
  | step hop _ ih => exact .step hop (ih h')

theorem size_le (h : Performs ops st st') : st.frames.size ≤ st'.frames.size := by
  induction h with
  | rest hframes => exact Nat.le_of_eq (by rw [hframes])
  | step _ _ ih => exact Nat.le_trans (Operation.size_perform _ _) ih

/-- No scope is ever moved. -/
theorem parent_eq (h : Performs ops st st') {sc : Scope} {f : Frame} (hf : st.frame? sc = some f) :
    ∃ f', st'.frame? sc = some f' ∧ f'.parent = f.parent := by
  induction h generalizing f with
  | rest hframes => exact ⟨f, by rw [frame?, hframes]; exact hf, rfl⟩
  | @step op _ _ _ _ _ ih =>
    obtain ⟨f', hf', hparent'⟩ := op.parent_perform hf
    obtain ⟨f'', hf'', hparent''⟩ := ih hf'
    exact ⟨f'', hf'', hparent''.trans hparent'⟩

/-- A scope binds what it was made to bind last. -/
theorem find?_bindings (h : Performs ops st st') (sc : Scope) (name : String) :
    (st'.bindings sc).find? name =
      (Operation.latest sc name ops).or ((st.bindings sc).find? name) := by
  induction h with
  | rest hframes =>
    rw [bindings, frame?, hframes]
    rfl
  | step hop _ ih =>
    rw [ih, Operation.find?_bindings_perform hop, Operation.latest, Option.or_assoc]

/-- The scope around a new scope is there already. -/
theorem parents (h : Performs ops st st')
    (hst : ∀ sc f p, st.frame? sc = some f → f.parent = some p → p.index < sc.index) :
    ∀ sc f p, st'.frame? sc = some f → f.parent = some p → p.index < sc.index := by
  induction h with
  | rest hframes => simpa only [frame?, hframes] using hst
  | @step op _ st _ hop _ ih =>
    refine ih fun sc f p hf hp => ?_
    cases op with
    | root =>
      rw [Operation.perform, newRoot, frame?_addFrame] at hf
      split at hf
      · obtain rfl := Option.some.inj hf
        cases hp
      · exact hst sc f p hf hp
    | child p' =>
      rw [Operation.perform, child, frame?_addFrame] at hf
      split at hf
      · next hnew =>
        obtain rfl := Option.some.inj hf
        obtain rfl := Option.some.inj hp
        rw [hnew]
        exact hop
      · exact hst sc f p hf hp
    | define sc' name v =>
      rw [Operation.perform, frame?_define] at hf
      split at hf
      · obtain ⟨f', hf', rfl⟩ := Option.map_eq_some_iff.1 hf
        exact hst sc f' p hf' hp
      · exact hst sc f p hf hp

/-- What is bound remembers scopes that there are, and these remain. -/
theorem closures (h : Performs ops st st') (hst : st.Every (Value.ClosedIn st)) :
    st'.Every (Value.ClosedIn st') := by
  induction h with
  | rest hframes =>
    intro sc f hf b hb
    have hbound := every_of_frames hst hframes sc f hf b hb
    exact hbound.imp fun _ hv => hv.mono (Nat.le_of_eq (by rw [hframes]))
  | @step op _ st _ hop _ ih =>
    have hmono : ∀ v : Value, v.ClosedIn st → v.ClosedIn (op.perform st) :=
      fun v hv => hv.mono (op.size_perform st)
    have hold : st.Every (Value.ClosedIn (op.perform st)) :=
      fun sc f hf b hb => (hst sc f hf b hb).imp hmono
    refine ih ?_
    cases op with
    | root => exact every_addFrame hold (by simp)
    | child p => exact every_addFrame hold (by simp)
    | define sc name v => exact every_define hold (hop.2.imp hmono)

end Performs

section Chains
variable {st : Store}
    (hparents : ∀ sc f p, st.frame? sc = some f → f.parent = some p → p.index < sc.index)
include hparents

/-- The walk outwards comes to scopes that were made before. -/
theorem Chain.index_le {sc : Scope} {scs : List Scope} (h : st.Chain sc scs) :
    ∀ s ∈ scs, s.index ≤ sc.index := by
  induction h with
  | root => simp
  | @inside sc p f scs hf hp _ ih =>
    have hlt := hparents sc f p hf hp
    refine List.forall_mem_cons.2 ⟨Nat.le_refl _, fun s hs => ?_⟩
    exact Nat.le_trans (ih s hs) (Nat.le_of_lt hlt)

theorem Chain.pairwise {sc : Scope} {scs : List Scope} (h : st.Chain sc scs) :
    scs.Pairwise fun inner outer => outer.index < inner.index := by
  induction h with
  | root => simp
  | @inside sc p f scs hf hp hchain ih =>
    have hlt := hparents sc f p hf hp
    refine List.pairwise_cons.2 ⟨fun s hs => ?_, ih⟩
    exact Nat.lt_of_le_of_lt (hchain.index_le hparents s hs) hlt

/-- From every scope the walk outwards ends. -/
theorem exists_chain {sc : Scope} (hsc : sc.index < st.frames.size) : ∃ scs, st.Chain sc scs := by
  -- the scope around was made before
  induction hindex : sc.index using Nat.strongRecOn generalizing sc with
  | ind k ih =>
    obtain ⟨f, hf⟩ : ∃ f, st.frame? sc = some f := ⟨_, Array.getElem?_eq_getElem hsc⟩
    cases hp : f.parent with
    | none => exact ⟨_, .root hf hp⟩
    | some p =>
      have hlt := hparents sc f p hf hp
      have hthere : p.index < st.frames.size := by omega
      obtain ⟨scs, hscs⟩ := ih p.index (by omega) hthere rfl
      exact ⟨_, .inside hf hp hscs⟩

/-- A name means what the nearest scope of the walk that binds it has. -/
theorem lookup_eq_findSome? {sc : Scope} {scs : List Scope} (h : st.Chain sc scs) (name : String) :
    st.lookup name sc = scs.findSome? fun sc' => (st.bindings sc').find? name := by
  have hbindings : ∀ {sc : Scope} {f : Frame}, st.frame? sc = some f →
      st.bindings sc = f.bindings := by
    intro sc f hf
    rw [bindings, hf]
  induction h with
  | @root sc f hf hp =>
    cases hv : (st.bindings sc).find? name with
    | some v => simp [lookup_of_find? hv, hv]
    | none => simp [lookup_of_root hf (hbindings hf ▸ hv) hp, hv]
  | @inside sc p f scs hf hp _ ih =>
    cases hv : (st.bindings sc).find? name with
    | some v => simp [lookup_of_find? hv, hv]
    | none =>
      have hparent := lookup_of_parent hf (hbindings hf ▸ hv) hp (hparents sc f p hf hp)
      simp [hparent, hv, ih]

end Chains

/-- Frames that operations lead to from the start are well formed. -/
theorem Performs.wellFormed {trace : List Operation} {st : Store} (h : Performs trace .empty st) :
    st.WellFormed trace := by
  have hparents := h.parents (by simp [frame?, empty])
  refine ⟨hparents, h.closures (by simp [Every, frame?, empty]), fun sc hsc => ?_⟩
  obtain ⟨scs, hscs⟩ := exists_chain hparents hsc
  refine ⟨scs, hscs, hscs.pairwise hparents, fun name => ?_⟩
  have hlatest : ∀ sc', (st.bindings sc').find? name = Operation.latest sc' name trace := by
    intro sc'
    have hnone : (empty.bindings sc').find? name = none := by
      simp [bindings, frame?, empty, Table.find?]
    rw [h.find?_bindings, hnone, Option.or_none]
  rw [lookup_eq_findSome? hparents hscs]
  simp only [hlatest]

end Store
end Monkey
