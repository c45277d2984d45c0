import Monkey.Node.Equality
import Monkey.Proofs.Correlation
import Monkey.Proofs.Frames
import Monkey.Source

/-!
# A scope is what its names mean

Two scopes in which every name means the same cannot be told apart by evaluating an
expression in them: however the scopes are nested, and whatever shadowed bindings
there are, the outcomes look alike. What is evaluated in one of them makes functions
that remember that scope, and in the other functions that remember the other; these
are bound, passed on and called, but they only look names up in it.

An expression binds no names in the scope where it is evaluated, so the two scopes
stay as they are. That could only change if a quoted tree with a statement in the
place of an expression were unquoted; no program makes such trees.

## Main definitions

* `Store.Twins` — scopes in which every name means the same.
* `Outcome.ShowsLike` — outcomes that cannot be told apart by what is shown.
* `Matching.twins`, `Store.twins` — what corresponds in the two runs.

## Main results

* `Store.laws_twins` — evaluation keeps what corresponds.
* `Node.evaluate_twins` — expressions come to the same in twin scopes.
-/

namespace Monkey

open Monkey.Computation

/-- Every name means the same in both scopes. -/
def Store.Twins (st : Store) (sc sc' : Scope) : Prop :=
  ∀ name, st.lookup name sc = st.lookup name sc'

/-- A tree that is rebuilt for a quotation comes to a well-sorted tree, and what is unquoted in
it is a well-sorted expression. -/
theorem Node.asks_wellSorted (arg : Node) {ok : Node → Prop}
    (hok : ∀ e : Node, e.isExpression = true → e.WellSorted → ok e) :
    (Dialogue.asking (fun n => ∀ e, n = .call (.ident "unquote") [e] → ok e)
      (Node.Unquotes Node.WellSorted)).holds (arg.rebuildM Dialogue.question).run
        (Judgement.Either (fun _ => True) Node.WellSorted) := by
  have hquestion : ∀ n : Node, n.Built WellSorted →
      (Dialogue.asking (fun n => ∀ e, n = .call (.ident "unquote") [e] → ok e)
        (Node.Unquotes Node.WellSorted)).holds (Dialogue.question n) Node.WellSorted := by
    refine fun n hn => ⟨?_, fun n' hanswer => ?_⟩
    · rintro e rfl
      obtain ⟨he, hsorted⟩ := hn.operands e (by simp)
      exact hok e he hsorted
    · cases hanswer with
      | splice hv hnode => exact (Value.wellSorted_toNode _ _ hv hnode).2
      | stays => exact Node.wellSorted_iff.2 hn
  exact Judgement.rebuildM hquestion arg

/-- The scope `sc'` is where `sc` is, or the two are `F` and `G`. -/
def Scope.TwinOf (F G sc sc' : Scope) : Prop := sc = sc' ∨ (sc = F ∧ sc' = G)

/-- Scopes from `size` on are made in both runs alike, and admit every tree; the scopes `F` and
`G` admit well-sorted expressions and blocks, which bind nothing in them. -/
def Matching.twins (size : Nat) (F G : Scope) : Matching where
  toPartners := .sameIdentity
  admits sc sc' n := (sc = sc' ∧ size ≤ sc.index) ∨
    (sc = F ∧ sc' = G) ∧ (n.isExpression = true ∨ n.isBlock = true) ∧ n.WellSorted
  closes sc sc' _ _ := Scope.TwinOf F G sc sc'
  quoted := Node.WellSorted
  parts sc sc' n h m hm := by
    rcases h with hnew | ⟨htwins, hsort, hn⟩
    · exact .inl hnew
    · exact .inr ⟨htwins, hn.parts hsort m hm⟩
  functions sc sc' ps b h := by
    rcases h with (⟨heq, -⟩ | ⟨htwins, -⟩) | (⟨heq, -⟩ | ⟨htwins, -⟩)
    · exact .inl heq
    · exact .inr htwins
    · exact .inl heq
    · exact .inr htwins
  quotations sc sc' arg h := by
    refine Node.asks_wellSorted arg fun e he hsorted => ?_
    rcases h with hnew | ⟨htwins, -, -⟩
    · exact .inl hnew
    · exact .inr ⟨htwins, .inl he, hsorted⟩

namespace Store
variable {st₀ : Store} {F G : Scope}

/-- Both runs have printed the same and given out as many identities, have left the frames that
were there in `st₀` as they were, and have made as many new ones, which are alike. -/
structure TwinRuns (st₀ : Store) (F G : Scope) (st st' : Store) : Prop where
  output : st.output = st'.output
  identities : st.nextIdentity = st'.nextIdentity
  size : st.frames.size = st'.frames.size
  grown : st₀.frames.size ≤ st.frames.size
  old : ∀ sc : Scope, sc.index < st₀.frames.size →
    st.frame? sc = st₀.frame? sc ∧ st'.frame? sc = st₀.frame? sc
  new : ∀ sc : Scope, st₀.frames.size ≤ sc.index →
    Option.Rel (Frame.Alike (Matching.twins st₀.frames.size F G).Alike (Scope.TwinOf F G))
      (st.frame? sc) (st'.frame? sc)

/-- The relation between two runs in the scopes `F` and `G` of a store. -/
def twins (st₀ : Store) (F G : Scope) : StoreRelation :=
  fun M st st' => M = .twins st₀.frames.size F G ∧ TwinRuns st₀ F G st st'

section Laws
variable (hquotes : st₀.Every (Value.Quotes Node.WellSorted)) {st st' : Store}

/-- Values that were there before look like themselves. -/
theorem twins_refl {v : Value} (hv : v.Every (Value.Quotes Node.WellSorted)) :
    v.Like (.twins st₀.frames.size F G) v := by
  refine .of_every (hv.imp fun u hu => ⟨?_, rfl⟩)
  cases u with
  | function => exact .function (.inl rfl)
  | macroFn => exact .macroFn (.inl rfl)
  | quote i n => exact .quote (hu i n rfl)
  | hash => exact .hash rfl
  | _ => constructor

/-- New scopes inside corresponding ones correspond. -/
theorem TwinRuns.child (h : TwinRuns st₀ F G st st') {sc sc' : Scope}
    (hsc : Scope.TwinOf F G sc sc') {bs bs' : Table String Value}
    (hbs : Table.Alike (Matching.twins st₀.frames.size F G).Alike bs bs') :
    TwinRuns st₀ F G (st.child sc bs).2 (st'.child sc' bs').2 where
  output := h.output
  identities := h.identities
  size := by simp [h.size]
  grown := by
    have hgrown := h.grown
    rw [size_child]
    omega
  old u hlt := by
    have hgrown := h.grown
    have hsize := h.size
    simp only [Store.child, frame?_addFrame]
    rw [if_neg (by omega), if_neg (by omega)]
    exact h.old u hlt
  new u hle := frame?_child_alike (by rw [h.size]) hsc hbs fun _ => h.new u hle

/-- Names are bound alike in the new scopes. -/
theorem TwinRuns.define (h : TwinRuns st₀ F G st st') {sc : Scope}
    (hsc : st₀.frames.size ≤ sc.index) (name : String) {v v' : Value}
    (hv : v.Like (.twins st₀.frames.size F G) v') :
    TwinRuns st₀ F G (st.define sc name v) (st'.define sc name v') where
  output := h.output
  identities := h.identities
  size := by simp [h.size]
  grown := by simpa using h.grown
  old u hlt := by
    have hne : sc ≠ u := by rintro rfl; omega
    rw [frame?_define, frame?_define, if_neg hne, if_neg hne]
    exact h.old u hlt
  new u hle := frame?_define_alike Iff.rfl name hv (h.new u hle)

variable (hF : F.index < st₀.frames.size) (hG : G.index < st₀.frames.size)
  (htwins : st₀.Twins F G)
include hquotes hF hG htwins

/-- Names mean values that look alike in corresponding scopes. -/
theorem TwinRuns.lookup (h : TwinRuns st₀ F G st st') (name : String) {sc sc' : Scope}
    (hsc : Scope.TwinOf F G sc sc') : Option.Rel (Matching.twins st₀.frames.size F G).Alike
      (st.lookup name sc) (st'.lookup name sc') := by
  have hold : ∀ sc : Scope, sc.index < st₀.frames.size →
      st.lookup name sc = st₀.lookup name sc ∧ st'.lookup name sc = st₀.lookup name sc := by
    intro sc hlt
    exact ⟨lookup_congr (fun sc' hle => (h.old sc' (by omega)).1) name,
      lookup_congr (fun sc' hle => (h.old sc' (by omega)).2) name⟩
  have hrefl : ∀ sc : Scope, Option.Rel (Matching.twins st₀.frames.size F G).Alike
      (st₀.lookup name sc) (st₀.lookup name sc) := by
    intro sc
    cases hv : st₀.lookup name sc with
    | none => exact .none
    | some v => exact .some (twins_refl (every_lookup hquotes hv))
  -- in old scopes names mean what they did at first; new scopes are alike up to old ones
  refine lookup_related (R := Scope.TwinOf F G) (fun sc sc' hsc => ?_) hsc
  rcases hsc with rfl | ⟨rfl, rfl⟩
  · by_cases hlt : sc.index < st₀.frames.size
    · rw [(hold sc hlt).1, (hold sc hlt).2]
      exact .inl (hrefl sc)
    · refine .inr ?_
      have hnew := h.new sc (by omega)
      generalize st.frame? sc = o, st'.frame? sc = o' at hnew
      cases hnew with
      | none => exact .none
      | some hframe =>
        refine .some (hframe.mono (fun _ _ => id) fun p p' hp => ⟨hp, ?_⟩)
        rcases hp with rfl | ⟨rfl, rfl⟩
        · exact Iff.rfl
        · exact ⟨fun _ => by omega, fun _ => by omega⟩
  · rw [(hold sc hF).1, (hold sc' hG).2, ← htwins name]
    exact .inl (hrefl sc)

/-- Evaluation goes alike in scopes in which every name means the same. -/
theorem laws_twins : (st₀.twins F G).Laws where
  fresh := by
    rintro _ st st' f g ⟨rfl, h⟩ hmakes
    refine ⟨_, Matching.le_refl _, ⟨rfl, ?_⟩, ?_⟩
    · exact ⟨h.output, congrArg (· + 1) h.identities, h.size, h.grown, h.old, h.new⟩
    · exact (hmakes.labelled _).trans ((congrArg some h.identities).trans (hmakes.labelled' _).symm)
  lookup := by
    rintro _ st st' sc sc' name ⟨rfl, h⟩ hadmits
    refine TwinRuns.lookup hquotes hF hG htwins h name ?_
    exact hadmits.imp And.left And.left
  define := by
    rintro _ st st' sc sc' name e v v' ⟨rfl, h⟩ hadmits hv
    -- a `let` is neither an expression nor a block, so it stands in a new scope
    obtain ⟨rfl, hsc⟩ : sc = sc' ∧ st₀.frames.size ≤ sc.index := by
      rcases hadmits with hnew | ⟨-, hsort | hsort, -⟩
      · exact hnew
      · cases hsort
      · cases hsort
    exact ⟨rfl, h.define hsc name hv⟩
  block := by
    rintro _ st st' sc sc' ss ⟨rfl, h⟩ hadmits
    have hchild := h.child (hadmits.imp And.left And.left) .nil
    refine ⟨_, Matching.le_refl _, ⟨rfl, hchild⟩, fun s _ => .inl ⟨?_, h.grown⟩⟩
    rw [h.size]
  body := by
    rintro _ st st' sc sc' ps body args args' ⟨rfl, h⟩ hcloses hargs -
    have hchild := h.child hcloses (bindParams_alike hargs ps)
    refine ⟨_, Matching.le_refl _, ⟨rfl, hchild⟩, .inl ⟨?_, h.grown⟩⟩
    rw [h.size]
  printLine := by
    rintro _ st st' line ⟨rfl, h⟩
    refine ⟨rfl, ?_, h.identities, h.size, h.grown, h.old, h.new⟩
    simp [Store.printLine, h.output]

end Laws

end Store

/-- Nobody can tell from what is shown which of the two it is: the same was printed, and there are
two values of one kind and with one text, or failures for the same reason. -/
structure Outcome.ShowsLike (o o' : Outcome Value) : Prop where
  output : o.store.output = o'.store.output
  result : Both Eq (fun v v' => v.kind = v'.kind ∧ v.inspect = v'.inspect ∧
    v.showable = v'.showable) o.result o'.result

/-- An expression shows the same in two scopes in which every name means the same, as long as it and
all quoted trees are well sorted. That is so however deep evaluation may go, so it comes to an end
in one of the scopes exactly if it does in the other. -/
theorem Node.evaluate_twins {st : Store} {F G : Scope} (hF : F.index < st.frames.size)
    (hG : G.index < st.frames.size) (htwins : st.Twins F G)
    (hquotes : st.Every (Value.Quotes Node.WellSorted)) {e : Node}
    (he : e.isExpression = true) (hsorted : e.WellSorted) (depth : Nat) :
    (e.evaluate depth F st).ShowsLike (e.evaluate depth G st) := by
  have hstart : Store.TwinRuns st F G st st := by
    refine ⟨rfl, rfl, rfl, Nat.le_refl _, fun _ _ => ⟨rfl, rfl⟩, fun sc hle => ?_⟩
    have hnone : st.frame? sc = none := Array.getElem?_eq_none hle
    rw [hnone]
    exact .none
  have hadmits : (Matching.twins st.frames.size F G).admits F G e :=
    .inr ⟨⟨rfl, rfl⟩, .inl he, hsorted⟩
  obtain ⟨-, M, -, ⟨rfl, hruns⟩, hresult⟩ :=
    (Store.laws_twins hquotes hF hG htwins).eval depth hadmits _ st st (Matching.le_refl _)
      ⟨rfl, hstart⟩
  rw [Node.evaluate, Node.evaluate, run_eq, run_eq]
  exact ⟨hruns.output, hresult.mono fun v v' hv => ⟨hv.kind_eq, hv.inspect_eq, hv.showable_eq⟩⟩

/-- A name means in a new scope that binds nothing what it means around. -/
theorem Store.twins_child (st : Store) {sc : Scope} (h : sc.index < st.frames.size) :
    (st.child sc []).2.Twins sc ⟨st.frames.size⟩ := by
  intro name
  rw [lookup_child]
  exact lookup_addFrame _ name h

/-- A function that is made in an empty scope inside another is called like one made in that. -/
theorem Node.evaluate_twins_add :
    let st := (Store.empty.newRoot.2.define ⟨0⟩ "x" (.int 1)).child ⟨0⟩ [] |>.2
    let add : Node := .fnLit ["y"] [.exprStmt (.infixOp (.ident "x") "+" (.ident "y"))]
    let e : Node := .call add [.int 2]
    (e.evaluate 9 ⟨0⟩ st).ShowsLike (e.evaluate 9 ⟨1⟩ st) ∧
      (e.evaluate 9 ⟨0⟩ st).result.toOption.map Value.inspect = some "3" := by
  intro st add e
  have hquotes : st.Every (Value.Quotes Node.WellSorted) := by
    refine Store.every_addFrame (Store.every_define (Store.every_addFrame ?_ ?_) ?_) ?_
    · intro sc f hf
      cases hf
    · simp
    · exact Value.every_of_isAtom (fun _ => Value.quotes_of_isData _) rfl
    · simp
  have htwins : st.Twins ⟨0⟩ ⟨1⟩ := Store.twins_child _ (by decide)
  refine ⟨Node.evaluate_twins (by decide) (by decide) htwins hquotes rfl (by decide) 9, ?_⟩
  rw [Node.evaluate, run_eq, outcome_eval]
  decide +kernel

/-- A store in which `x` is one, `f` answers `x`, and `q` is a quoted tree that no program text has:
a `let` in the place of an operand. There is an empty scope inside. -/
def Store.quotingAssignment : Store :=
  let root := Store.empty.newRoot.2.define ⟨0⟩ "x" (.int 1)
    |>.define ⟨0⟩ "q" (.quote 0 (.prefixOp "!" (.letStmt "x" (.int 2))))
    |>.define ⟨0⟩ "f" (.function 1 [] (.block [.exprStmt (.ident "x")]) ⟨0⟩)
  (root.child ⟨0⟩ []).2

/-- That the expression is well sorted is not enough. Unquoting a quoted `let` twice binds its name
in the scope where that is done, and this is seen by functions only if it is the outer one. -/
theorem Node.evaluate_tells_twins_apart :
    ¬ ∀ (st : Store) (F G : Scope) (source : String) (e : Node) (depth : Nat) (v v' : Value),
      F.index < st.frames.size → G.index < st.frames.size → st.Twins F G →
        Source.parse source = .ok (.program [.exprStmt e]) →
        (e.evaluate depth F st).result = .ok v → (e.evaluate depth G st).result = .ok v' →
        v.inspect = v'.inspect := by
  intro h
  let e : Node := .index (.array [.call (.ident "quote") [.call (.ident "unquote")
    [.call (.ident "unquote") [.ident "q"]]], .call (.ident "f") []]) (.int 1)
  let source := "[quote(unquote(unquote(q))), f()][1]"
  have hparse : Source.parse source = .ok (.program [.exprStmt e]) :=
    Source.parse_of_toOption (by decide +kernel)
  let text (sc : Scope) : Option String :=
    (e.evaluate 9 sc .quotingAssignment).result.toOption.map Value.inspect
  have hinner : text ⟨1⟩ = some "1" := by
    unfold text
    rw [Node.evaluate, run_eq, outcome_eval]
    decide +kernel
  have houter : text ⟨0⟩ = some "2" := by
    unfold text
    rw [Node.evaluate, run_eq, outcome_eval]
    decide +kernel
  have htwins : Store.quotingAssignment.Twins ⟨0⟩ ⟨1⟩ := Store.twins_child _ (by decide)
  have hvalue : ∀ {r : Except Failure Value} {text : String},
      r.toOption.map Value.inspect = some text → ∃ v, r = .ok v ∧ v.inspect = text := by
    intro r text hr
    cases r with
    | error e => cases hr
    | ok v => exact ⟨v, rfl, Option.some.inj hr⟩
  obtain ⟨v, hv, hone⟩ := hvalue hinner
  obtain ⟨w, hw, htwo⟩ := hvalue houter
  have hsame : w.inspect = v.inspect :=
    h .quotingAssignment ⟨0⟩ ⟨1⟩ source e 9 w v (by decide) (by decide) htwins hparse hw hv
  rw [hone, htwo] at hsame
  exact absurd hsame (by decide)

end Monkey
