import Monkey.Value

/-!
# The store

Everything that running programs change: the frames of variables, the supply of
identities, the text printed so far and the notes on macro expansion.

Frames are never thrown away, so a scope is the place of its frame in the order
of creation. A frame's parent, if it has one, was made before it; following
parents therefore ends, and `Store.lookup` looks at no frame whose parent breaks
that rule.

## Main results

* `Store.lookup_of_find?`, `Store.lookup_of_parent`, `Store.lookup_of_root` — a
  name means what the nearest scope around that binds it says.
* `Store.lookup_child` — what a name means in a new scope.
* `Store.frame?_addFrame`, `Store.frame?_define` — what the two operations that
  touch frames do to the frame of every scope.
-/

namespace Monkey

/-- What the expansion of macros is worth noting for. -/
inductive Note where
  /-- A source was read, with this many statements. -/
  | parsed (statements : Nat)
  /-- A macro was defined. -/
  | defined (name : String) (params : List String)
  /-- A macro call was replaced. -/
  | expanded (call result : Node)
  /-- A macro call could not be replaced. -/
  | expansionFailed (fault : Fault)

/-- One scope's own names, and the scope around it. -/
structure Frame where
  parent : Option Scope
  bindings : Table String Value
  deriving Inhabited

/-- Binds a name in a frame. -/
def Frame.bind (name : String) (value : Value) (f : Frame) : Frame :=
  { f with bindings := f.bindings.insert name value }

/-- The text of a frame: its own names, and whether there is a scope around it. -/
def Frame.describe (f : Frame) : String :=
  "<Frame \x7b" ++ ", ".intercalate f.bindings.keys ++ "\x7d" ++
    (if f.parent.isSome then " -> ..." else "") ++ ">"

/-- All that a running program can change. -/
structure Store where
  /-- The frames, in order of creation. -/
  frames : Array Frame
  /-- The next identity to hand out. -/
  nextIdentity : Identity
  /-- The text printed so far. -/
  output : String
  /-- The notes taken so far, newest first. -/
  notes : List Note
  deriving Inhabited

namespace Store

/-- No frames, nothing printed. -/
def empty : Store := ⟨#[], 0, "", []⟩

/-- The frame of a scope. -/
def frame? (st : Store) (scope : Scope) : Option Frame :=
  st.frames[scope.index]?

/-- The names that a scope itself binds. -/
def bindings (st : Store) (scope : Scope) : Table String Value :=
  match st.frame? scope with
  | some f => f.bindings
  | none => []

/-- Makes a frame and answers its scope. -/
def addFrame (frame : Frame) (st : Store) : Scope × Store :=
  (⟨st.frames.size⟩, { st with frames := st.frames.push frame })

/-- Makes an outermost scope. -/
def newRoot (st : Store) : Scope × Store :=
  st.addFrame ⟨none, []⟩

/-- Makes a scope inside another, binding `bindings` in it. -/
def child (parent : Scope) (bindings : Table String Value) (st : Store) : Scope × Store :=
  st.addFrame ⟨some parent, bindings⟩

/-- Binds a name in a scope. -/
def define (scope : Scope) (name : String) (value : Value) (st : Store) : Store :=
  { st with frames := st.frames.modify scope.index (Frame.bind name value) }

/-- What a name means in a scope: the binding of the nearest scope around that has one. -/
def lookup (st : Store) (name : String) (scope : Scope) : Option Value :=
  match st.frame? scope with
  | none => none
  | some f =>
    match f.bindings.find? name with
    | some v => some v
    | none =>
      match f.parent with
      | none => none
      | some p => if p.index < scope.index then st.lookup name p else none
termination_by scope.index

/-- Hands out an identity. -/
def freshIdentity (st : Store) : Identity × Store :=
  (st.nextIdentity, { st with nextIdentity := st.nextIdentity + 1 })

/-- Prints a line. -/
def printLine (line : String) (st : Store) : Store :=
  { st with output := st.output ++ line ++ "\n" }

/-- Takes a note. -/
def note (n : Note) (st : Store) : Store :=
  { st with notes := n :: st.notes }

/-- The store with nothing printed and no notes taken. -/
def quiet (st : Store) : Store :=
  { st with output := "", notes := [] }

theorem frame?_addFrame (frame : Frame) (st : Store) (sc : Scope) :
    (st.addFrame frame).2.frame? sc =
      if sc.index = st.frames.size then some frame else st.frame? sc := by
  simp [frame?, addFrame, Array.getElem?_push]

@[simp] theorem size_addFrame (frame : Frame) (st : Store) :
    (st.addFrame frame).2.frames.size = st.frames.size + 1 := by
  simp [addFrame]

@[simp] theorem size_child (parent : Scope) (bindings : Table String Value) (st : Store) :
    (st.child parent bindings).2.frames.size = st.frames.size + 1 :=
  size_addFrame ..

@[simp] theorem size_define (sc : Scope) (name : String) (v : Value) (st : Store) :
    (st.define sc name v).frames.size = st.frames.size := by
  simp [define]

/-- New frames leave the frames alone that are there. -/
theorem frame?_addFrame_of_some (frame : Frame) {st : Store} {sc : Scope} {f : Frame}
    (h : st.frame? sc = some f) : (st.addFrame frame).2.frame? sc = some f := by
  have hlt : sc.index < st.frames.size := (Array.getElem?_eq_some_iff.1 h).1
  rw [frame?_addFrame, if_neg (by omega), h]

theorem frame?_define (sc sc' : Scope) (name : String) (v : Value) (st : Store) :
    (st.define sc name v).frame? sc' =
      if sc = sc' then (st.frame? sc').map (Frame.bind name v) else st.frame? sc' := by
  have h : sc = sc' ↔ sc.index = sc'.index :=
    ⟨fun e => e ▸ rfl, fun e => by cases sc; cases sc'; simp_all⟩
  simp only [frame?, define, Array.getElem?_modify, h]

/-- A name that a scope itself binds means what it is bound to. -/
theorem lookup_of_find? {st : Store} {sc : Scope} {name : String} {v : Value}
    (h : (st.bindings sc).find? name = some v) : st.lookup name sc = some v := by
  rw [lookup]
  unfold bindings at h
  cases hf : st.frame? sc with
  | none => rw [hf] at h; simp [Table.find?] at h
  | some f => rw [hf] at h; simp [h]

/-- A name that a scope does not bind means what it means in the scope around. -/
theorem lookup_of_parent {st : Store} {sc p : Scope} {name : String} {f : Frame}
    (hf : st.frame? sc = some f) (hn : f.bindings.find? name = none) (hp : f.parent = some p)
    (hlt : p.index < sc.index) : st.lookup name sc = st.lookup name p := by
  rw [lookup]
  simp [hf, hn, hp, hlt]

/-- A name that an outermost scope does not bind means nothing there. -/
theorem lookup_of_root {st : Store} {sc : Scope} {name : String} {f : Frame}
    (hf : st.frame? sc = some f) (hn : f.bindings.find? name = none) (hp : f.parent = none) :
    st.lookup name sc = none := by
  rw [lookup]
  simp [hf, hn, hp]

/-- What a name means in a scope depends only on the frames that were made up to then. -/
theorem lookup_congr {st st' : Store} {sc : Scope}
    (h : ∀ sc' : Scope, sc'.index ≤ sc.index → st'.frame? sc' = st.frame? sc') (name : String) :
    st'.lookup name sc = st.lookup name sc := by
  have hframe : st'.frame? sc = st.frame? sc := h sc (Nat.le_refl _)
  fun_induction lookup st name sc with
  | case1 sc hf => rw [lookup, hframe, hf]
  | case2 sc f hf v hv => rw [lookup, hframe]; simp only [hf, hv]
  | case3 sc f hf hn hp => rw [lookup, hframe]; simp only [hf, hn, hp]
  | case4 sc f hf hn p hp hlt ih =>
    rw [lookup, hframe]
    simp only [hf, hn, hp, hlt, if_true]
    exact ih (fun sc' hle => h sc' (by omega)) (h p (by omega))
  | case5 sc f hf hn p hp hlt => rw [lookup, hframe]; simp only [hf, hn, hp, hlt, if_false]

/-- What names mean depends on the frames only. -/
theorem lookup_of_frames {st st' : Store} (h : st'.frames = st.frames) (name : String)
    (sc : Scope) : st'.lookup name sc = st.lookup name sc :=
  lookup_congr (fun sc' _ => by rw [frame?, h, frame?]) name

/-- New frames change no meaning in the scopes that are there. -/
theorem lookup_addFrame (frame : Frame) {st : Store} (name : String) {sc : Scope}
    (h : sc.index < st.frames.size) : (st.addFrame frame).2.lookup name sc = st.lookup name sc :=
  lookup_congr (fun sc' hle => by rw [frame?_addFrame, if_neg (by omega)]) name

/-- A name means in a new scope what the scope binds it to, or else what it means around. -/
theorem lookup_child (parent : Scope) (bindings : Table String Value) (st : Store) (name : String) :
    (st.child parent bindings).2.lookup name ⟨st.frames.size⟩ =
      (bindings.find? name).or (st.lookup name parent) := by
  have hnew :
      (st.child parent bindings).2.frame? ⟨st.frames.size⟩ = some ⟨some parent, bindings⟩ := by
    rw [child, frame?_addFrame, if_pos rfl]
  rw [lookup, hnew]
  cases hb : bindings.find? name with
  | some v => simp [hb]
  | none =>
    by_cases hlt : parent.index < st.frames.size
    · have hold : (st.child parent bindings).2.lookup name parent = st.lookup name parent :=
        lookup_addFrame _ name hlt
      simp [hb, hlt, hold]
    · have hnone : st.frame? parent = none := Array.getElem?_eq_none (by omega)
      have hunbound : st.lookup name parent = none := by
        rw [lookup, hnone]
      simp [hb, hlt, hunbound]

end Store
end Monkey
