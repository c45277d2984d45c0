import Monkey.Store
import Monkey.Value.Operators

/-!
# Properties of all values inside a value

Arrays, hashes and values being returned hold other values. `Value.Every shape`
says that a value and all values inside it have a shape, and `Store.Every shape`
says it of all that the frames of a store bind. The operators of the language
make no value that does not consist of what they were given and of plain data,
so what is true of data and of the operands is true of the result.

## Main results

* `Value.every_array`, `Value.every_hash` — a collection has a shape throughout
  when it has it and its members have it throughout.
* `Value.every_of_applyIndex` — indexing yields nothing new.
* `Store.every_define`, `Store.every_addFrame` — what the operations on frames keep.
-/

namespace Monkey

namespace Value

/-- The values directly inside a value. -/
@[simp] def components : Value → List Value
  | array _ items => items
  | hash _ entries => entries.map Prod.snd
  | returned _ v => [v]
  | _ => []

/-- A value and all values inside it have a shape. -/
inductive Every (shape : Value → Prop) : Value → Prop where
  | intro {v : Value} (here : shape v) (inside : ∀ c ∈ v.components, Every shape c) :
    Every shape v

/-- Values that consist of nothing else: numbers, texts, booleans, `null` and the builtins. -/
def isAtom : Value → Bool
  | null | int _ | str _ | bool _ | builtin _ => true
  | _ => false

/-- Data: atoms and collections. -/
def isData : Value → Bool
  | array _ _ | hash _ _ => true
  | v => v.isAtom

section Every
variable {shape : Value → Prop}

theorem every_iff {v : Value} : v.Every shape ↔ shape v ∧ ∀ c ∈ v.components, c.Every shape :=
  ⟨fun ⟨here, inside⟩ => ⟨here, inside⟩, fun h => .intro h.1 h.2⟩

theorem Every.imp {shape' : Value → Prop} {v : Value} (h : v.Every shape)
    (himp : ∀ v, shape v → shape' v) : v.Every shape' := by
  induction h with
  | intro here _ ih => exact .intro (himp _ here) ih

theorem every_array {i : Identity} {items : List Value} :
    (array i items).Every shape ↔ shape (array i items) ∧ ∀ v ∈ items, v.Every shape :=
  every_iff

theorem every_hash {i : Identity} {entries : List (Key × Value)} :
    (hash i entries).Every shape ↔ shape (hash i entries) ∧ ∀ e ∈ entries, e.2.Every shape := by
  rw [every_iff]
  simp only [components, List.mem_map, forall_exists_index, and_imp, forall_apply_eq_imp_iff₂]

theorem every_returned {i : Identity} {v : Value} :
    (returned i v).Every shape ↔ shape (returned i v) ∧ v.Every shape := by
  rw [every_iff]
  simp

/-- Taking off a `return` leaves what was inside it. -/
theorem every_unwrapped {v : Value} (h : v.Every shape) : v.unwrapped.Every shape := by
  cases v with
  | returned i v => exact (every_returned.1 h).2
  | _ => exact h

/-- What is true of every value is true throughout every value. -/
theorem every_of_forall (h : ∀ v, shape v) (v : Value) : v.Every shape := by
  refine .intro (h v) fun c hc => every_of_forall h c
termination_by sizeOf v
decreasing_by
  cases v with
  | array i items =>
    have hlt : sizeOf c < sizeOf items := List.sizeOf_lt_of_mem hc
    simp only [Value.array.sizeOf_spec]
    omega
  | hash i entries =>
    obtain ⟨⟨k, c⟩, he, rfl⟩ := List.mem_map.1 hc
    have hlt : sizeOf (k, c) < sizeOf entries := List.sizeOf_lt_of_mem he
    simp only [Prod.mk.sizeOf_spec] at hlt
    simp only [Value.hash.sizeOf_spec]
    omega
  | returned i v =>
    obtain rfl := List.mem_singleton.1 hc
    simp only [Value.returned.sizeOf_spec]
    omega
  | _ => cases hc

variable (hdata : ∀ v, v.isData = true → shape v)
include hdata

theorem every_of_isAtom {v : Value} (h : v.isAtom = true) : v.Every shape := by
  cases v <;> first | cases h; done | exact .intro (hdata _ rfl) (by simp)

theorem every_array_of {i : Identity} {items : List Value} (h : ∀ v ∈ items, v.Every shape) :
    (array i items).Every shape :=
  every_array.2 ⟨hdata _ rfl, h⟩

theorem every_hash_of {i : Identity} {entries : List (Key × Value)}
    (h : ∀ e ∈ entries, e.2.Every shape) : (hash i entries).Every shape :=
  every_hash.2 ⟨hdata _ rfl, h⟩

theorem every_getD {o : Option Value} (h : ∀ v, o = some v → v.Every shape) :
    (o.getD null).Every shape := by
  cases o with
  | none => exact every_of_isAtom hdata rfl
  | some v => exact h v rfl

/-- Indexing yields a member of the collection, or `null`. -/
theorem every_of_applyIndex {l i v : Value} (hl : l.Every shape) (h : l.applyIndex i = .ok v) :
    v.Every shape := by
  unfold applyIndex at h
  split at h
  · next items n =>
    have hitem := (every_array.1 hl).2
    split at h
    · obtain rfl := Except.ok.inj h
      exact every_of_isAtom hdata rfl
    · obtain rfl := Except.ok.inj h
      exact every_getD hdata fun v hv => hitem v (List.mem_of_getElem? hv)
  · next entries =>
    have hentry := (every_hash.1 hl).2
    cases hk : i.key? with
    | error f => rw [hk] at h; cases h
    | ok key =>
      rw [hk] at h
      obtain rfl := Except.ok.inj h
      exact every_getD hdata fun v hv => hentry _ (Table.mem_of_find? hv)
  · cases h

end Every

/-- An operator in front of a value makes an atom. -/
theorem isAtom_of_applyPrefix {op : String} {v w : Value} (h : v.applyPrefix op = .ok w) :
    w.isAtom = true := by
  unfold applyPrefix at h
  split at h
  · obtain rfl := Except.ok.inj h; rfl
  split at h
  · obtain rfl := Except.ok.inj h; rfl
  · cases h

/-- An operator between values makes an atom. -/
theorem isAtom_of_applyInfix {op : String} {l r w : Value} (h : applyInfix op l r = .ok w) :
    w.isAtom = true := by
  unfold applyInfix applyToInts applyToStrs applyToOthers at h
  repeat' split at h
  all_goals first | cases h; done | obtain rfl := Except.ok.inj h; rfl

end Value

namespace Store

/-- All values that the frames of a store bind, and all values inside them, have a shape. -/
def Every (shape : Value → Prop) (st : Store) : Prop :=
  ∀ sc f, st.frame? sc = some f → ∀ b ∈ f.bindings, b.2.Every shape

section Every
variable {shape : Value → Prop} {st : Store}

/-- Names mean only what frames bind. -/
theorem every_lookup (h : st.Every shape) {name : String} {sc : Scope} {v : Value}
    (hv : st.lookup name sc = some v) : v.Every shape := by
  fun_induction lookup st name sc with
  | case1 => cases hv
  | case2 sc f hf v' hv' =>
    obtain rfl := Option.some.inj hv
    exact h sc f hf _ (Table.mem_of_find? hv')
  | case3 => cases hv
  | case4 sc f hf hn p hp hlt ih => exact ih hv
  | case5 => cases hv

theorem every_of_frames (h : st.Every shape) {st' : Store} (hframes : st'.frames = st.frames) :
    st'.Every shape := by
  intro sc f hf
  have hsame : st'.frame? sc = st.frame? sc := by
    rw [frame?, hframes, frame?]
  rw [hsame] at hf
  exact h sc f hf

theorem every_define (h : st.Every shape) {sc : Scope} {name : String} {v : Value}
    (hv : v.Every shape) : (st.define sc name v).Every shape := by
  intro sc' f hf b hb
  rw [frame?_define] at hf
  split at hf
  · obtain ⟨f', hf', rfl⟩ := Option.map_eq_some_iff.1 hf
    rcases Table.mem_of_mem_insert hb with rfl | hb
    · exact hv
    · exact h sc' f' hf' b hb
  · exact h sc' f hf b hb

theorem every_addFrame (h : st.Every shape) {frame : Frame}
    (hframe : ∀ b ∈ frame.bindings, b.2.Every shape) : (st.addFrame frame).2.Every shape := by
  intro sc f hf b hb
  rw [frame?_addFrame] at hf
  split at hf
  · obtain rfl := Option.some.inj hf
    exact hframe b hb
  · exact h sc f hf b hb

end Every
end Store
end Monkey
