import Monkey.Proofs.Correlation
import Monkey.Proofs.Frames
import Monkey.Proofs.History

/-!
# No `unquote` is left in what is quoted

A quoted tree holds no call `unquote(x)`: each was replaced when the tree was quoted,
and what was put in its place is data or comes from quoted trees. A callee that only
then turns out to be the name `unquote` makes no difference, as trees are rebuilt
from the leaves up.

Only the arguments of macros are quoted as they stand. They are bound in scopes that
the expansion of macros makes and that evaluation never gets to see: a scope made by
evaluation leads only to scopes made by evaluation. In a store in which both have gone
on, the scopes are therefore told apart, and that nothing leads out of those of
evaluation is part of the invariant.

## Main definitions

* `Node.UnquoteFree` — the trees that hold no call `unquote(x)`.
* `Store.Confined` — nothing leads out of some scopes, in which no quoted tree holds
  such a call.
* `Store.Developed` — the stores that come about, with the scopes that evaluation has made.

## Main results

* `Store.confined_evaluate` — evaluation stays confined.
* `Store.Developed.unquoteFree` — no quoted tree that evaluation comes by holds an `unquote`.
-/

namespace Monkey

open Monkey.Computation

namespace Node

/-- The tree holds no call of the name `unquote` with one argument. -/
def UnquoteFree (n : Node) : Prop := ∀ t ∈ n.subtrees, ∀ arg, t ≠ .call (.ident "unquote") [arg]

/-- Whether the tree is a call of the name `unquote` with one argument. -/
def isUnquote : Node → Bool
  | call callee [_] => callee.isIdent "unquote"
  | _ => false

theorem isUnquote_iff {n : Node} :
    n.isUnquote = true ↔ ∃ arg, n = .call (.ident "unquote") [arg] := by
  constructor
  · intro h
    unfold isUnquote at h
    split at h
    · next callee arg => exact ⟨arg, by rw [isIdent_iff.1 h]⟩
    · cases h
  · rintro ⟨arg, rfl⟩
    rfl

theorem unquoteFree_iff_isUnquote {n : Node} :
    n.UnquoteFree ↔ ∀ t ∈ n.subtrees, t.isUnquote = false := by
  refine forall₂_congr fun t _ => ?_
  rw [← Bool.not_eq_true, isUnquote_iff, not_exists]

instance : DecidablePred UnquoteFree := fun _ =>
  decidable_of_iff _ unquoteFree_iff_isUnquote.symm

theorem unquoteFree_iff {n : Node} : n.UnquoteFree ↔
    (∀ arg, n ≠ .call (.ident "unquote") [arg]) ∧ ∀ c ∈ n.children, c.UnquoteFree :=
  forall_subtrees_iff

/-- A tree that is made of such trees is such a tree, if it is no call of `unquote` itself. -/
theorem unquoteFree_of_built {n : Node} (hn : ∀ arg, n ≠ .call (.ident "unquote") [arg])
    (h : n.Built UnquoteFree) : n.UnquoteFree :=
  unquoteFree_iff.2 ⟨hn, h.child⟩

end Node

/-- A value is spliced in without `unquote`, if the trees that are quoted in it are without. -/
theorem Value.unquoteFree_toNode {v : Value} {e : Node} (hv : v.Every (Quotes Node.UnquoteFree))
    (h : v.toNode = .ok e) : e.UnquoteFree := by
  refine forall_subtrees_toNode ?_ hv h
  rintro n hn arg rfl
  cases hn

/-- Whatever tree is rebuilt for a quotation, it comes to one without `unquote`. -/
theorem Node.asks_unquoteFree (arg : Node) {ok : Node → Prop} (hok : ∀ n, ok n) :
    (Dialogue.asking ok (Node.Unquotes Node.UnquoteFree)).holds (arg.rebuildM Dialogue.question).run
      (Judgement.Either (fun _ => True) Node.UnquoteFree) := by
  have hquestion : ∀ n : Node, n.Built UnquoteFree →
      (Dialogue.asking ok (Node.Unquotes Node.UnquoteFree)).holds (Dialogue.question n)
        Node.UnquoteFree := by
    refine fun n hn => ⟨hok n, fun n' hanswer => ?_⟩
    cases hanswer with
    | splice hv hnode => exact Value.unquoteFree_toNode hv hnode
    | stays hne => exact Node.unquoteFree_of_built hne hn
  exact Judgement.rebuildM hquestion arg

/-! ## Confinement -/

/-- The scopes `E`, and those made from the place `lo` up to the place `hi`. -/
def Scope.Among (E : Scope → Prop) (lo hi : Nat) (sc : Scope) : Prop :=
  E sc ∨ lo ≤ sc.index ∧ sc.index < hi

/-- At the top, nothing leads from the value out of the scopes `E`, and if it is a quotation, no
`unquote` is left in it. -/
structure Value.Confined (E : Scope → Prop) (v : Value) : Prop where
  quotes : v.Quotes Node.UnquoteFree
  functions : ∀ i ps body sc, v = .function i ps body sc → E sc
  macros : ∀ i ps body sc, v = .macroFn i ps body sc → E sc

/-- The scopes `E` have frames, nothing leads from these out of `E`, and in no quoted tree that is
held in them is an `unquote` left. -/
structure Store.Confined (E : Scope → Prop) (st : Store) : Prop where
  made : ∀ sc, E sc → sc.index < st.frames.size
  parents : ∀ sc f p, E sc → st.frame? sc = some f → f.parent = some p → E p
  values : ∀ sc f, E sc → st.frame? sc = some f → ∀ b ∈ f.bindings, b.2.Every (Value.Confined E)

/-- An evaluation stays in the scopes `E` and those that are made from the place `lo` on: at its
start and at its end nothing leads out of them, and it comes to a value from which nothing does. -/
structure Visit.Confined (E : Scope → Prop) (lo : Nat) (w : Visit) : Prop where
  scope : w.scope.Among E lo w.store.frames.size
  before : w.store.Confined (Scope.Among E lo w.store.frames.size)
  after : (w.outcome evalRule).store.Confined
    (Scope.Among E lo (w.outcome evalRule).store.frames.size)
  value : ∀ v, (w.outcome evalRule).result = .ok v →
    v.Every (Value.Confined (Scope.Among E lo (w.outcome evalRule).store.frames.size))

/-- In scopes that evaluation has made, one run goes as it does. -/
def Matching.confined (E : Scope → Prop) (lo hi : Nat) : Matching where
  toPartners := .sameIdentity
  admits sc sc' _ := sc = sc' ∧ Scope.Among E lo hi sc
  closes sc sc' _ _ := sc = sc' ∧ Scope.Among E lo hi sc
  quoted := Node.UnquoteFree
  parts _ _ _ h _ _ := h
  functions _ _ _ _ h := h.elim id id
  quotations _ _ arg h := Node.asks_unquoteFree arg fun _ _ _ => h

theorem Scope.Among.mono {E : Scope → Prop} {lo hi hi' : Nat} {sc : Scope} (h : sc.Among E lo hi)
    (hle : hi ≤ hi') : sc.Among E lo hi' :=
  h.imp_right fun h => ⟨h.1, Nat.lt_of_lt_of_le h.2 hle⟩

/-- More scopes correspond when more have been made. -/
theorem Matching.confined_mono (E : Scope → Prop) (lo : Nat) {hi hi' : Nat} (hle : hi ≤ hi') :
    confined E lo hi ≤ confined E lo hi' where
  admits _ _ _ h := ⟨h.1, h.2.mono hle⟩
  closes _ _ _ _ h := ⟨h.1, h.2.mono hle⟩
  quoted _ := Iff.rfl
  marks _ _ h := h

namespace Value
variable {E E' : Scope → Prop} {lo hi : Nat} {v v' : Value}

theorem Confined.mono (h : v.Confined E) (hle : ∀ sc, E sc → E' sc) : v.Confined E' where
  quotes := h.quotes
  functions i ps body sc hv := hle sc (h.functions i ps body sc hv)
  macros i ps body sc hv := hle sc (h.macros i ps body sc hv)

theorem confined_of_heads (h : (Matching.confined E lo hi).Heads v v') :
    v.Confined (Scope.Among E lo hi) := by
  constructor
  · rintro i n rfl
    cases h with
    | quote hn => exact hn
  · rintro i ps body sc rfl
    cases h with
    | function hsc => exact hsc.2
  · rintro i ps body sc rfl
    cases h with
    | macroFn hsc => exact hsc.2

theorem heads_of_confined (h : v.Confined (Scope.Among E lo hi)) :
    (Matching.confined E lo hi).Heads v v := by
  cases v with
  | function i ps body sc => exact .function ⟨rfl, h.functions i ps body sc rfl⟩
  | macroFn i ps body sc => exact .macroFn ⟨rfl, h.macros i ps body sc rfl⟩
  | quote i n => exact .quote (h.quotes i n rfl)
  | hash => exact .hash rfl
  | _ => constructor

/-- A value looks like another in scopes that evaluation has made only if it is confined to them,
and then it looks like itself. -/
theorem every_confined_of_like (h : v.Like (.confined E lo hi) v') :
    v.Every (Confined (Scope.Among E lo hi)) := by
  refine h.induct (motive := fun v _ => v.Every (Confined (Scope.Among E lo hi))) ?_
  intro v v' h parts
  refine .intro (confined_of_heads h.heads) fun c hc => ?_
  obtain ⟨c', -, hc⟩ := parts.exists_right c hc
  exact hc

theorem like_of_every_confined (h : v.Every (Confined (Scope.Among E lo hi))) :
    v.Like (.confined E lo hi) v :=
  .of_every (h.imp fun _ hu => ⟨heads_of_confined hu, rfl⟩)

end Value

namespace Store
variable {E : Scope → Prop} {lo : Nat} {st st' : Store}

/-- Two runs have made the same scopes, and in those that evaluation has made they have bound
values that look alike. -/
structure ConfinedRuns (E : Scope → Prop) (lo : Nat) (st st' : Store) : Prop where
  identities : st.nextIdentity = st'.nextIdentity
  size : st.frames.size = st'.frames.size
  grown : lo ≤ st.frames.size
  made : ∀ sc, E sc → sc.index < lo
  frames : ∀ sc : Scope, sc.Among E lo st.frames.size →
    Option.Rel (Frame.Alike (Matching.confined E lo st.frames.size).Alike
      fun p p' => p = p' ∧ p.Among E lo st.frames.size) (st.frame? sc) (st'.frame? sc)

/-- The relation between runs in which nothing leads out of the scopes that evaluation has made. -/
def confined (E : Scope → Prop) (lo : Nat) : StoreRelation :=
  fun M st st' => M = .confined E lo st.frames.size ∧ ConfinedRuns E lo st st'

/-- Frames that are alike stay so when more scopes are made. -/
theorem alike_mono {hi hi' : Nat} (hle : hi ≤ hi') {f f' : Frame}
    (h : f.Alike (Matching.confined E lo hi).Alike (fun p p' => p = p' ∧ p.Among E lo hi) f') :
    f.Alike (Matching.confined E lo hi').Alike (fun p p' => p = p' ∧ p.Among E lo hi') f' :=
  h.mono (fun _ _ hv => hv.mono (Matching.confined_mono E lo hle)) fun _ _ hp =>
    ⟨hp.1, hp.2.mono hle⟩

/-- Scopes inside others that evaluation has made are among those. -/
theorem ConfinedRuns.child (h : ConfinedRuns E lo st st') {sc : Scope}
    (hsc : sc.Among E lo st.frames.size) {bs bs' : Table String Value}
    (hbs : Table.Alike (Matching.confined E lo st.frames.size).Alike bs bs') :
    ConfinedRuns E lo (st.child sc bs).2 (st'.child sc bs').2 := by
  have hle := Nat.le_succ st.frames.size
  refine ⟨h.identities, by simp [h.size], ?_, h.made, fun u hu => ?_⟩
  · rw [size_child]
    exact Nat.le_trans h.grown hle
  rw [size_child] at hu ⊢
  refine frame?_child_alike (by rw [h.size]) ⟨rfl, hsc.mono hle⟩ ?_ fun hne => ?_
  · exact hbs.mono fun _ _ hv => ⟨hv.1, hv.2.mono (Matching.confined_mono E lo hle)⟩
  · -- what corresponds goes by the number of scopes, which has grown
    have hold : u.Among E lo st.frames.size := hu.imp_right fun hu => ⟨hu.1, by omega⟩
    exact rel_mono (h.frames u hold) fun _ _ => alike_mono hle

/-- The frames stay alike when names are bound alike. -/
theorem ConfinedRuns.define (h : ConfinedRuns E lo st st') (sc : Scope) (name : String)
    {v v' : Value} (hv : v.Like (.confined E lo st.frames.size) v') :
    ConfinedRuns E lo (st.define sc name v) (st'.define sc name v') := by
  refine ⟨h.identities, by simp [h.size], by simpa using h.grown, h.made, fun u hu => ?_⟩
  rw [size_define] at hu ⊢
  exact frame?_define_alike Iff.rfl name hv (h.frames u hu)

/-- Evaluation goes alike in two runs as long as it is confined. -/
theorem laws_confined (E : Scope → Prop) (lo : Nat) : (confined E lo).Laws where
  fresh := by
    rintro _ st st' f g ⟨rfl, h⟩ hmakes
    refine ⟨_, Matching.le_refl _, ⟨rfl, ?_⟩, ?_⟩
    · exact ⟨congrArg (· + 1) h.identities, h.size, h.grown, h.made, h.frames⟩
    · exact (hmakes.labelled _).trans ((congrArg some h.identities).trans (hmakes.labelled' _).symm)
  lookup := by
    rintro _ st st' sc sc' name ⟨rfl, h⟩ hadmits
    refine lookup_related (R := fun sc sc' => sc = sc' ∧ sc.Among E lo st.frames.size) ?_ hadmits
    rintro sc _ ⟨rfl, hsc⟩
    refine .inr (rel_mono (h.frames sc hsc) fun f f' hf => hf.mono (fun _ _ => id) ?_)
    rintro p _ ⟨rfl, hp⟩
    exact ⟨⟨rfl, hp⟩, Iff.rfl⟩
  define := by
    rintro _ st st' sc _ name e v v' ⟨rfl, h⟩ ⟨rfl, -⟩ hv
    exact ⟨by rw [size_define], h.define sc name hv⟩
  block := by
    rintro _ st st' sc _ ss ⟨rfl, h⟩ ⟨rfl, hsc⟩
    refine ⟨_, ?_, ⟨rfl, h.child hsc .nil⟩, fun s _ => ⟨by rw [h.size], .inr ⟨h.grown, ?_⟩⟩⟩
    · exact Matching.confined_mono E lo (by simp)
    · simp
  body := by
    rintro _ st st' sc _ ps body args args' ⟨rfl, h⟩ ⟨rfl, hsc⟩ hargs -
    have hbindings := bindParams_alike hargs ps
    refine ⟨_, ?_, ⟨rfl, h.child hsc hbindings⟩, by rw [h.size], .inr ⟨h.grown, ?_⟩⟩
    · exact Matching.confined_mono E lo (by simp)
    · simp
  printLine := by
    rintro _ st st' line ⟨rfl, h⟩
    exact ⟨rfl, h.identities, h.size, h.grown, h.made, h.frames⟩

/-- Runs that are alike are confined. -/
theorem ConfinedRuns.confined (h : ConfinedRuns E lo st st') :
    st.Confined (Scope.Among E lo st.frames.size) := by
  have hpartner : ∀ {sc : Scope} {f : Frame}, sc.Among E lo st.frames.size → st.frame? sc = some f →
      ∃ f', f.Alike (Matching.confined E lo st.frames.size).Alike
        (fun p p' => p = p' ∧ p.Among E lo st.frames.size) f' := by
    intro sc f hsc hf
    have hframes := h.frames sc hsc
    rw [hf] at hframes
    obtain ⟨f', -, hframe⟩ := exists_of_rel_some hframes
    exact ⟨f', hframe⟩
  refine ⟨?_, ?_, ?_⟩
  · rintro sc (hsc | hsc)
    · exact Nat.lt_of_lt_of_le (h.made sc hsc) h.grown
    · exact hsc.2
  · intro sc f p hsc hf hp
    obtain ⟨f', -, hparent⟩ := hpartner hsc hf
    rw [hp] at hparent
    obtain ⟨p', -, hp⟩ := exists_of_rel_some hparent
    exact hp.2
  · intro sc f hsc hf b hb
    obtain ⟨f', hbindings, -⟩ := hpartner hsc hf
    obtain ⟨b', -, hb⟩ := hbindings.exists_right b hb
    exact Value.every_confined_of_like hb.2

/-- A confined store is alike to itself. -/
theorem Confined.runs (h : st.Confined E) : ConfinedRuns E st.frames.size st st := by
  have hmade : ∀ sc : Scope, sc.Among E st.frames.size st.frames.size → E sc := by
    rintro sc (hsc | ⟨hle, hlt⟩)
    · exact hsc
    · omega
  refine ⟨rfl, rfl, Nat.le_refl _, h.made, fun sc hsc => ?_⟩
  cases hf : st.frame? sc with
  | none => exact .none
  | some f =>
    refine .some ⟨.refl fun b hb => ⟨rfl, ?_⟩, ?_⟩
    · exact Value.like_of_every_confined ((h.values sc f (hmade sc hsc) hf b hb).imp fun v hv =>
        hv.mono fun sc => .inl)
    · cases hp : f.parent with
      | none => exact .none
      | some p => exact .some ⟨rfl, .inl (h.parents sc f p (hmade sc hsc) hf hp)⟩

/-- Evaluation in a scope of `E` stays in the scopes of `E` and those that it makes itself. -/
theorem confined_evaluate (h : st.Confined E) {sc : Scope} (hsc : E sc) (n : Node) (depth : Nat) :
    (∀ w ∈ (eval n sc).visits evalRule depth st, w.Confined E st.frames.size) ∧
      (n.evaluate depth sc st).store.Confined
        (Scope.Among E st.frames.size (n.evaluate depth sc st).store.frames.size) ∧
      st.frames.size ≤ (n.evaluate depth sc st).store.frames.size := by
  have L := laws_confined E st.frames.size
  have hadmits : (Matching.confined E st.frames.size st.frames.size).admits sc sc n :=
    ⟨rfl, .inl hsc⟩
  obtain ⟨hvisits, M, -, ⟨rfl, hruns⟩, -⟩ :=
    L.eval depth hadmits _ st st (Matching.le_refl _) ⟨rfl, h.runs⟩
  rw [Node.evaluate, run_eq]
  refine ⟨fun w hw => ?_, hruns.confined, hruns.grown⟩
  -- a visit begins among confined scopes, so the laws apply to it as to the whole
  obtain ⟨M', sc', st', -, hadmits', rfl, hruns'⟩ := hvisits w hw
  obtain ⟨-, M'', -, ⟨rfl, hruns''⟩, hresult⟩ :=
    L.eval (w.depth + 1) hadmits' _ w.store st' (Matching.le_refl _) ⟨rfl, hruns'⟩
  rw [outcome_eval_succ] at hruns'' hresult
  refine ⟨hadmits'.2, hruns'.confined, hruns''.confined, fun v hv => ?_⟩
  unfold Visit.outcome at hv
  rw [hv] at hresult
  obtain ⟨v', -, hlike⟩ := hresult.exists_right
  exact Value.every_confined_of_like hlike

/-! ## All that comes about -/

/-- Expanding macros keeps what is true of a frame, if it is not that of the scope of macros or
binding a name does not matter. -/
theorem frame?_expandProgram {macros sc : Scope} {P : Frame → Prop}
    (hbind : macros = sc → ∀ f name v, P f → P (f.bind name v)) {f : Frame}
    (hf : st.frame? sc = some f) (hP : P f) (program : Node) (depth : Nat) :
    ∃ f', ((expandProgram macros program).outcome evalRule depth st).store.frame? sc = some f' ∧
      P f' := by
  have S : (Regime.ofFrame sc P fun _ => True).Stable (Value.Quotes fun _ => True)
      (fun sc' => sc' = sc → ∀ f name v, P f → P (f.bind name v)) fun _ => True := by
    refine Regime.stable_ofFrame quotable_any ?_ fun f' name v h => h rfl f' name v
    rintro sc' hlt rfl
    omega
  have hstart : (Regime.ofFrame sc P fun _ => True).invariant st :=
    ⟨⟨f, hf, hP⟩, fun _ _ _ b _ => Value.every_of_forall (fun _ _ _ _ => trivial) b.2⟩
  exact (S.expandProgram hbind program st hstart fun _ _ => trivial).2.1.1

/-- The stores that come about when scopes are made, trees are evaluated in them and macros are
expanded in others, in any order; with the scopes that are there for evaluation. -/
inductive Developed : (Scope → Prop) → Store → Prop where
  | empty : Developed (fun _ => False) .empty
  /-- An outermost scope is made to evaluate in. -/
  | values {E : Scope → Prop} {st : Store} : Developed E st →
    Developed (Scope.Among E st.frames.size (st.frames.size + 1)) st.newRoot.2
  /-- An outermost scope is made for macros. -/
  | macros {E : Scope → Prop} {st : Store} : Developed E st → Developed E st.newRoot.2
  | evaluate {E : Scope → Prop} {st : Store} {sc : Scope} (n : Node) (depth : Nat) :
    Developed E st → E sc →
    Developed (Scope.Among E st.frames.size (n.evaluate depth sc st).store.frames.size)
      (n.evaluate depth sc st).store
  | expand {E : Scope → Prop} {st : Store} {sc : Scope} (program : Node) (depth : Nat) :
    Developed E st → ¬ E sc →
    Developed E ((expandProgram sc program).outcome evalRule depth st).store
  /-- Something else changes than frames. -/
  | rest {E : Scope → Prop} {st st' : Store} : Developed E st → st'.frames = st.frames →
    Developed E st'

/-- Nothing leads out of scopes that are as they were. -/
theorem Confined.of_frames (h : st.Confined E)
    (hframes : ∀ sc f, E sc → st.frame? sc = some f → st'.frame? sc = some f) : st'.Confined E := by
  have hsame : ∀ sc, E sc → ∃ f, st.frame? sc = some f ∧ st'.frame? sc = some f := by
    intro sc hsc
    have hf := Array.getElem?_eq_getElem (h.made sc hsc)
    exact ⟨_, hf, hframes sc _ hsc hf⟩
  refine ⟨fun sc hsc => ?_, fun sc f p hsc hf' => ?_, fun sc f hsc hf' => ?_⟩
  · obtain ⟨f, -, hf'⟩ := hsame sc hsc
    exact (Array.getElem?_eq_some_iff.1 hf').1
  · obtain ⟨g, hg, hg'⟩ := hsame sc hsc
    obtain rfl := Option.some.inj (hg'.symm.trans hf')
    exact h.parents sc _ p hsc hg
  · obtain ⟨g, hg, hg'⟩ := hsame sc hsc
    obtain rfl := Option.some.inj (hg'.symm.trans hf')
    exact h.values sc _ hsc hg

/-- Nothing leads out of a new outermost scope. -/
theorem Confined.newRoot (h : st.Confined E) :
    st.newRoot.2.Confined (Scope.Among E st.frames.size (st.frames.size + 1)) := by
  have hframe : ∀ {sc : Scope} {f : Frame}, sc.Among E st.frames.size (st.frames.size + 1) →
      st.newRoot.2.frame? sc = some f → f = ⟨none, []⟩ ∨ E sc ∧ st.frame? sc = some f := by
    intro sc f hsc hf
    rw [Store.newRoot, frame?_addFrame] at hf
    split at hf
    · exact .inl (Option.some.inj hf).symm
    · exact .inr ⟨hsc.resolve_right (by omega), hf⟩
  refine ⟨?_, fun sc f p hsc hf hp => ?_, fun sc f hsc hf b hb => ?_⟩
  · have hsize : st.newRoot.2.frames.size = st.frames.size + 1 := by simp [Store.newRoot, addFrame]
    rw [hsize]
    rintro sc (hsc | hsc)
    · exact Nat.lt_succ_of_lt (h.made sc hsc)
    · exact hsc.2
  · rcases hframe hsc hf with rfl | ⟨hE, hold⟩
    · cases hp
    · exact .inl (h.parents sc f p hE hold hp)
  · rcases hframe hsc hf with rfl | ⟨hE, hold⟩
    · cases hb
    · exact (h.values sc f hE hold b hb).imp fun v hv => hv.mono fun _ => .inl

/-- Nothing ever leads out of the scopes that are there for evaluation. -/
theorem Developed.confined (h : Developed E st) : st.Confined E := by
  induction h with
  | empty => exact ⟨nofun, nofun, nofun⟩
  | values _ ih => exact ih.newRoot
  | macros _ ih => exact ih.of_frames fun sc f _ hf => frame?_addFrame_of_some _ hf
  | evaluate n depth _ hsc ih => exact (confined_evaluate ih hsc n depth).2.1
  | @expand _ _ macros program depth _ hmacros ih =>
    refine ih.of_frames fun sc f hsc hf => ?_
    have hother : macros ≠ sc := by
      rintro rfl
      exact hmacros hsc
    obtain ⟨_, hf', rfl⟩ :=
      frame?_expandProgram (P := (· = f)) (fun h => absurd h hother) hf rfl program depth
    exact hf'
  | rest _ hframes ih =>
    refine ih.of_frames fun sc f _ hf => ?_
    rw [frame?, hframes]
    exact hf

/-- Whatever was evaluated and expanded before, in every evaluation in a scope that is there for
it, and at any time, no `unquote` is left in the trees quoted in values that the scopes of
evaluation bind or that any part comes to; and nothing leads out of these scopes. -/
theorem Developed.unquoteFree (h : Developed E st) {sc : Scope} (hsc : E sc) (n : Node)
    (depth : Nat) : ∀ w ∈ (eval n sc).visits evalRule depth st, w.Confined E st.frames.size :=
  (confined_evaluate h.confined hsc n depth).1

/-- A callee that is made by splicing in the name `unquote` is no exception. -/
theorem Developed.unquoteFree_callee :
    let name : Node := .call (.ident "unquote") [.call (.ident "quote") [.ident "unquote"]]
    let n : Node := .call (.ident "quote") [.call name [.infixOp (.int 1) "+" (.int 2)]]
    ∃ v, (n.evaluate 9 ⟨0⟩ Store.empty.newRoot.2).result = .ok v ∧
      v.Every (Value.Quotes Node.UnquoteFree) ∧ v.inspect = "QUOTE(3)" := by
  intro name n
  have htext : (n.evaluate 9 ⟨0⟩ Store.empty.newRoot.2).result.toOption.map Value.inspect =
      some "QUOTE(3)" := by
    rw [Node.evaluate, run_eq, outcome_eval]
    decide +kernel
  have hfirst : ⟨8, n, ⟨0⟩, Store.empty.newRoot.2⟩ ∈
      (eval n ⟨0⟩).visits evalRule 9 Store.empty.newRoot.2 := by
    rw [visits_eval_succ]
    exact List.mem_cons_self
  have hconfined :=
    Developed.unquoteFree (.values .empty) (.inr ⟨by decide, by decide⟩) n 9 _ hfirst
  have houtcome : n.evaluate 9 ⟨0⟩ Store.empty.newRoot.2 =
      Visit.outcome evalRule ⟨8, n, ⟨0⟩, Store.empty.newRoot.2⟩ := by
    rw [Node.evaluate, run_eq, outcome_eval_succ]
    rfl
  rw [houtcome] at htext ⊢
  cases hv : (Visit.outcome evalRule ⟨8, n, ⟨0⟩, Store.empty.newRoot.2⟩).result with
  | error e =>
    rw [hv] at htext
    cases htext
  | ok v =>
    rw [hv] at htext
    exact ⟨v, rfl, (hconfined.value v hv).imp fun _ h => h.quotes, Option.some.inj htext⟩

/-! ## Sessions -/

/-- The variables of a session are in a scope that is there for evaluation, and its macros in one
that is not. -/
structure Separates (E : Scope → Prop) (values macros : Scope) (st : Store) : Prop where
  developed : st.Developed E
  inside : E values
  outside : ¬ E macros
  made : macros.index < st.frames.size

namespace Separates
variable {values macros : Scope} (h : st.Separates E values macros)
include h

theorem rest (hframes : st'.frames = st.frames) : st'.Separates E values macros :=
  ⟨h.developed.rest hframes, h.inside, h.outside, by rw [hframes]; exact h.made⟩

theorem expand (program : Node) (depth : Nat) :
    ((expandProgram macros program).outcome evalRule depth st).store.Separates E values macros := by
  refine ⟨h.developed.expand program depth h.outside, h.inside, h.outside, ?_⟩
  have hframe := Array.getElem?_eq_getElem h.made
  obtain ⟨f, hf, -⟩ :=
    frame?_expandProgram (P := fun _ => True) (fun _ _ _ _ h => h) hframe trivial program depth
  exact (Array.getElem?_eq_some_iff.1 hf).1

theorem evaluate (n : Node) (depth : Nat) :
    ∃ E', (n.evaluate depth values st).store.Separates E' values macros := by
  have hmade := h.made
  have hgrown := (confined_evaluate h.developed.confined h.inside n depth).2.2
  refine ⟨_, h.developed.evaluate n depth h.inside, .inl h.inside, ?_, by omega⟩
  rintro (hold | hnew)
  · exact h.outside hold
  · omega

/-- The macro calls in a program are replaced, and what it expands to is evaluated in the scope of
variables. -/
theorem run (program : Node) (depth : Nat) :
    ∃ E', ((runProgram values macros program).outcome evalRule depth st).store.Separates E' values
      macros := by
  have hexpanded := h.expand program depth
  rw [runProgram_eq, outcome_bind]
  generalize (expandProgram macros program).outcome evalRule depth st = o at hexpanded ⊢
  obtain ⟨result, st₁⟩ := o
  rcases result with e | (fault | n)
  · exact ⟨E, hexpanded⟩
  · exact ⟨E, hexpanded.rest rfl⟩
  · obtain ⟨E', hevaluated⟩ := hexpanded.evaluate n depth
    rw [Node.evaluate, run_eq] at hevaluated
    dsimp only at hevaluated ⊢
    rw [outcome_bind]
    generalize (eval n values).outcome evalRule depth st₁ = o at hevaluated ⊢
    obtain ⟨result, st₂⟩ := o
    -- how the evaluation ends makes no difference to the store it leaves
    cases result with
    | error e => exact ⟨E', hevaluated⟩
    | ok v => exact ⟨E', hevaluated⟩

end Separates
end Store

/-- Variables and macros are separated in every session that is reached. -/
theorem Session.separates_after (history : List Entry) :
    ∃ E, (after history).store.Separates E (after history).values (after history).macros := by
  obtain ⟨hv, hm⟩ := scopes_after history
  rw [hv, hm]
  refine after_induction (P := fun st => ∃ E, st.Separates E new.values new.macros) ?_ ?_ ?_ history
  · refine ⟨_, .macros (.values .empty), .inr ⟨by decide, by decide⟩, ?_, by decide⟩
    rintro (h | h)
    · exact h
    · exact absurd h (by decide)
  · rintro st ⟨E, h⟩
    exact ⟨E, h.rest rfl⟩
  · rintro program depth st ⟨E, h⟩
    exact h.run program depth

end Monkey
