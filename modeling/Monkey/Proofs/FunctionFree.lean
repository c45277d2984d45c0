import Monkey.Proofs.Ending
import Monkey.Proofs.SortSafety
import Monkey.Proofs.UnquoteFree

/-!
# Evaluation without functions ends

Without functions, all that an evaluation takes up is a part of its tree, but for
one thing: what is unquoted is rebuilt first, and so may be a tree that was put
together from quoted values, larger than anything in the program. Such a tree is
evaluated once and for all, though. Quoted values hold no call of `unquote`, so what
is put together from them and from a tree whose own calls of `unquote` have been
replaced holds none either; and in a tree without `unquote` nothing is rebuilt.

Where quoted values may hold calls of `unquote`, as the arguments of macros do, this
fails. Then only *flat* trees are sure to end: those that unquote nothing inside what
they unquote, so that what is evaluated is a part of the tree after all.

## Main definitions

* `Node.FunctionFree`, `Node.Flat` — such trees.
* `Node.Tame` — the trees that values may quote.
* `Store.Secluded` — the stores in which some scopes lead to nothing but such values.

## Main results

* `Node.ends_of_flat`, `Node.ends_of_unquoteFree` — the two reasons to end.
* `Node.evaluate_ends` — without functions, programs end.
-/

namespace Monkey

open Monkey.Computation

/-! ## Trees -/

namespace Node

/-- Function literals. -/
def isFnLit : Node → Bool
  | fnLit _ _ => true
  | _ => false

/-- No function literal stands in the tree. -/
def FunctionFree (n : Node) : Prop := ∀ t ∈ n.subtrees, t.isFnLit = false

instance : DecidablePred FunctionFree := fun n =>
  inferInstanceAs (Decidable (∀ t ∈ n.subtrees, t.isFnLit = false))

theorem functionFree_iff {n : Node} :
    n.FunctionFree ↔ n.isFnLit = false ∧ ∀ c ∈ n.children, c.FunctionFree :=
  forall_subtrees_iff

/-- The trees that quoting may turn into the name `unquote`, because they are the name, or a call
whose callee may be. -/
def maySpellUnquote : Node → Bool
  | ident name => name == "unquote"
  | call callee [_] => callee.maySpellUnquote
  | _ => false

/-- The operand of a tree that is a call of `unquote`, or may be when its callee has been rebuilt. -/
def unquoted? : Node → Option Node
  | call callee [arg] => if callee.maySpellUnquote then some arg else none
  | _ => none

/-- Inside what the tree unquotes, nothing else is unquoted. -/
def Flat (n : Node) : Prop := ∀ t ∈ n.subtrees, ∀ arg ∈ t.unquoted?, arg.UnquoteFree

instance : DecidablePred Flat := fun n =>
  inferInstanceAs (Decidable (∀ t ∈ n.subtrees, ∀ arg ∈ t.unquoted?, arg.UnquoteFree))

theorem flat_iff {n : Node} :
    n.Flat ↔ (∀ arg ∈ n.unquoted?, arg.UnquoteFree) ∧ ∀ c ∈ n.children, c.Flat :=
  forall_subtrees_iff

theorem mem_unquoted? {callee arg : Node} (h : callee.maySpellUnquote = true) :
    arg ∈ (call callee [arg]).unquoted? := by
  simp [unquoted?, h]

theorem mem_children_of_mem_unquoted? {n arg : Node} (h : arg ∈ n.unquoted?) : arg ∈ n.children := by
  unfold unquoted? at h
  split at h
  · split at h
    · obtain rfl := Option.some.inj h
      simp [children]
    · cases h
  · cases h

/-- A tree in which nothing is unquoted is flat. -/
theorem UnquoteFree.flat {n : Node} (h : n.UnquoteFree) : n.Flat := by
  intro t ht arg harg u hu
  have harg' : arg ∈ n.subtrees :=
    mem_subtrees_trans ht (mem_subtrees_of_child (mem_children_of_mem_unquoted? harg))
  exact h u (mem_subtrees_trans harg' hu)

/-- The tree is well sorted and holds no function literal, and no call of `unquote` either, unless
it may be `live`. -/
structure Tame (live : Bool) (n : Node) : Prop where
  wellSorted : n.WellSorted
  functionFree : n.FunctionFree
  unquoteFree : live = false → n.UnquoteFree

variable {live : Bool}

theorem Lifts.isFnLit {rel : Node → Node → Prop} {n n' : Node} (h : n.Lifts rel n') :
    n'.isFnLit = n.isFnLit := by
  cases h <;> rfl

/-- A construct of tame trees is tame, if it is no function itself, and no call of `unquote` unless
it may be live. -/
theorem tame_of_built {n : Node} (hfn : n.isFnLit = false)
    (hn : live = false → ∀ arg, n ≠ .call (.ident "unquote") [arg]) (h : n.Built (Tame live)) :
    n.Tame live where
  wellSorted := wellSorted_iff.2 (h.mono fun _ hc => hc.wellSorted)
  functionFree := functionFree_iff.2 ⟨hfn, fun c hc => (h.child c hc).functionFree⟩
  unquoteFree hlive := unquoteFree_of_built (hn hlive) (h.mono fun _ hc => hc.unquoteFree hlive)

end Node

/-! ## Values -/

/-- At the top, the value is no function, and if it is a quotation, its tree is a tame expression. -/
structure Value.Inert (live : Bool) (v : Value) : Prop where
  quotes : v.Quotes fun n => n.isExpression = true ∧ n.Tame live
  uncallable : ∀ i ps body sc, v ≠ .function i ps body sc

namespace Value
variable {live : Bool}

theorem inert_of_isData {v : Value} (h : v.isData = true) : v.Inert live where
  quotes := quotes_of_isData _ h
  uncallable := by
    rintro i ps body sc rfl
    cases h

/-- What is spliced in is a tame expression, if all that is quoted is tame. -/
theorem tame_toNode {v : Value} {e : Node} (hv : v.Every (Inert live)) (h : v.toNode = .ok e) :
    e.isExpression = true ∧ e.Tame live := by
  have hquotes : v.Every (Quotes (Node.Tame live)) := hv.imp fun _ hu i n hn => (hu.quotes i n hn).2
  obtain ⟨hsort, hsorted⟩ := v.wellSorted_toNode e
    (hquotes.imp fun _ hu i n hn => (hu i n hn).wellSorted) h
  have hfree : e.FunctionFree := by
    refine forall_subtrees_toNode ?_ (hquotes.imp fun _ hu i n hn => (hu i n hn).functionFree) h
    intro n hn
    cases n <;> first | rfl | cases hn
  refine ⟨hsort, hsorted, hfree, fun hlive => ?_⟩
  exact unquoteFree_toNode (hquotes.imp fun _ hu i n hn => (hu i n hn).unquoteFree hlive) h

end Value

/-! ## Scopes -/

/-- The scope is `root`, or one made from the place `lo` on. -/
def Scope.Inside (sc root : Scope) (lo : Nat) : Prop := sc = root ∨ lo ≤ sc.index

/-- Nothing leads from `root` and the scopes made from the place `lo` on to any other scope, and all
that is bound in them has the shape. -/
structure Store.Secluded (root : Scope) (lo : Nat) (shape : Value → Prop) (st : Store) : Prop where
  grown : lo ≤ st.frames.size
  parents : ∀ (sc : Scope) f p, sc.Inside root lo → st.frame? sc = some f → f.parent = some p →
    p.Inside root lo
  values : ∀ (sc : Scope) f, sc.Inside root lo → st.frame? sc = some f →
    ∀ b ∈ f.bindings, b.2.Every shape

namespace Store.Secluded
variable {root : Scope} {lo : Nat} {shape : Value → Prop} {st st' : Store} {sc : Scope}
  (h : st.Secluded root lo shape)
include h

theorem of_frames (hframes : st'.frames = st.frames) : st'.Secluded root lo shape := by
  have hsame : ∀ sc, st'.frame? sc = st.frame? sc := fun sc => by rw [frame?, hframes, frame?]
  refine ⟨by rw [hframes]; exact h.grown, ?_, ?_⟩
  · intro sc f p hsc hf
    exact h.parents sc f p hsc (by rwa [hsame] at hf)
  · intro sc f hsc hf
    exact h.values sc f hsc (by rwa [hsame] at hf)

theorem lookup {name : String} {v : Value} (hsc : sc.Inside root lo)
    (hv : st.lookup name sc = some v) : v.Every shape := by
  fun_induction Store.lookup st name sc with
  | case1 => cases hv
  | case2 sc f hf v' hv' =>
    obtain rfl := Option.some.inj hv
    exact h.values sc f hsc hf _ (Table.mem_of_find? hv')
  | case3 => cases hv
  | case4 sc f hf hn p hp hlt ih => exact ih (h.parents sc f p hsc hf hp) hv
  | case5 => cases hv

theorem define {name : String} {v : Value} (hv : v.Every shape) (sc : Scope) :
    (st.define sc name v).Secluded root lo shape := by
  have hframe : ∀ {sc' : Scope} {f : Frame}, (st.define sc name v).frame? sc' = some f →
      ∃ g, st.frame? sc' = some g ∧ (f = g ∨ f = g.bind name v) := by
    intro sc' f hf
    rw [frame?_define] at hf
    split at hf
    · obtain ⟨g, hg, rfl⟩ := Option.map_eq_some_iff.1 hf
      exact ⟨g, hg, .inr rfl⟩
    · exact ⟨f, hf, .inl rfl⟩
  refine ⟨by rw [size_define]; exact h.grown, ?_, ?_⟩
  · intro sc' f p hsc hf hp
    obtain ⟨g, hg, rfl | rfl⟩ := hframe hf
    · exact h.parents sc' f p hsc hg hp
    · exact h.parents sc' g p hsc hg hp
  · intro sc' f hsc hf b hb
    obtain ⟨g, hg, rfl | rfl⟩ := hframe hf
    · exact h.values sc' f hsc hg b hb
    · rcases Table.mem_of_mem_insert hb with rfl | hb
      · exact hv
      · exact h.values sc' g hsc hg b hb

/-- A new scope is one of those that are made from the place `lo` on. -/
theorem child (hsc : sc.Inside root lo) {bindings : Table String Value}
    (hb : ∀ b ∈ bindings, b.2.Every shape) :
    (st.child sc bindings).2.Secluded root lo shape ∧
      (⟨st.frames.size⟩ : Scope).Inside root lo := by
  have hframe : ∀ {sc' : Scope} {f : Frame}, (st.child sc bindings).2.frame? sc' = some f →
      f = ⟨some sc, bindings⟩ ∨ st.frame? sc' = some f := by
    intro sc' f hf
    rw [Store.child, frame?_addFrame] at hf
    split at hf
    · exact .inl (Option.some.inj hf).symm
    · exact .inr hf
  refine ⟨⟨?_, ?_, ?_⟩, .inr h.grown⟩
  · rw [size_child]
    exact Nat.le_succ_of_le h.grown
  · intro sc' f p hsc' hf hp
    rcases hframe hf with rfl | hf
    · obtain rfl := Option.some.inj hp
      exact hsc
    · exact h.parents sc' f p hsc' hf hp
  · intro sc' f hsc' hf b hb'
    rcases hframe hf with rfl | hf
    · exact hb b hb'
    · exact h.values sc' f hsc' hf b hb'

end Store.Secluded

/-! ## Quotations -/

/-- What quoting may make of a tree, when all that is quoted already is tame. -/
structure Node.Requoted (live : Bool) (n n' : Node) : Prop where
  fits : n.FitsFor n'
  tame : n'.Tame live
  same : n.UnquoteFree → n' = n
  spells : n'.maySpellUnquote = true → n.maySpellUnquote = true

namespace Node
variable {live : Bool} {n n' : Node}

/-- A tree that is no call of `unquote` when its parts have been rebuilt stays as it is then. -/
theorem requoted_of_lifts (hfn : n.isFnLit = false) (hlift : n.Lifts (Requoted live) n')
    (hn' : ∀ arg, n' ≠ .call (.ident "unquote") [arg]) : n.Requoted live n' where
  fits := .of_lifts (hlift.mono_of_mem fun _ _ _ hc => hc.fits)
  tame := by
    have hfn' : n'.isFnLit = false := by rw [hlift.isFnLit, hfn]
    exact tame_of_built hfn' (fun _ => hn') (hlift.built fun _ _ hc => hc.tame)
  same hfree := hlift.eq_self fun c hc _ h => h.same ((unquoteFree_iff.1 hfree).2 c hc)
  spells hspells := by
    cases hlift with
    | ident => exact hspells
    | call hf hargs =>
      cases hargs with
      | nil => cases hspells
      | cons _ hargs =>
        cases hargs with
        | nil => exact hf.2.spells hspells
        | cons _ _ => cases hspells
    | _ => cases hspells

/-- A call that has come to be one of `unquote` is replaced by a tame expression. -/
theorem requoted_of_splice {callee arg e : Node} (hcallee : callee.Requoted live (.ident "unquote"))
    (he : e.isExpression = true) (htame : e.Tame live) :
    (Node.call callee [arg]).Requoted live e where
  fits := .of_call he htame.wellSorted
  tame := htame
  same hfree := by
    obtain ⟨hcall, hparts⟩ := unquoteFree_iff.1 hfree
    have hident : ident "unquote" = callee := hcallee.same (hparts callee (by simp [children]))
    exact absurd (by rw [hident]) (hcall arg)
  spells _ := hcallee.spells rfl

end Node

/-- Quotations are of tame trees, if what is unquoted in them is as a judgement wants it. -/
theorem QuietSteps.quotation_tame {J : Judgement Computation} {live : Bool}
    (U : QuietSteps J (Value.Inert live)) {arg : Node} {sc : Scope} (hsort : arg.isExpression = true)
    (hsorted : arg.WellSorted) (hfree : arg.FunctionFree)
    (replies : ∀ t ∈ arg.subtrees, ∀ x ∈ t.unquoted?, ∀ x', x.Requoted live x' →
      J.holds (eval x' sc) (Value.Result (Value.Inert live))) :
    (Upkeep.attempts J).holds (Monkey.evalQuote arg sc) (Value.Result (Value.Inert live)) := by
  have hanswers : ∀ n ∈ arg.subtrees, ∀ n', n.Lifts (Node.Requoted live) n' →
      (Upkeep.attempts J).holds (Monkey.unquoteStep sc n') (n.Requoted live) := by
    intro n hn n' hlift
    refine U.unquoteStep ?_ ?_ fun hn' => Node.requoted_of_lifts (hfree n hn) hlift hn'
    · rintro x' rfl
      cases hlift with
      | call hcallee hargs =>
        cases hargs with
        | cons hx hnil =>
          cases hnil
          exact replies _ hn _ (Node.mem_unquoted? (hcallee.2.spells rfl)) x' hx.2
    · rintro x' v e rfl hv he
      obtain ⟨hexpression, htame⟩ := Value.tame_toNode hv he
      cases hlift with
      | call hcallee hargs =>
        cases hargs with
        | cons _ hnil =>
          cases hnil
          exact Node.requoted_of_splice hcallee.2 hexpression htame
  refine U.quotation (fun _ h => h.elim)
    (Judgement.rewriting_subtrees hsorted (fun _ _ hr => hr.fits) hanswers) arg.self_mem_subtrees
    fun i n hr => ⟨?_, nofun⟩
  rintro _ _ ⟨⟩
  exact ⟨hr.fits.expression hsort, hr.tame⟩

/-! ## Evaluation -/

section Evaluation
variable {root : Scope} {lo : Nat} {live : Bool}

/-- The judgement that a computation ends among scopes that lead to nothing else. -/
abbrev secludedEnding (root : Scope) (lo : Nat) (live : Bool) : Judgement Computation :=
  ending (Store.Secluded root lo (Value.Inert live))

theorem secludedEnding_steps : Steps (secludedEnding root lo live) (Value.Inert live) :=
  ending_steps (fun _ => Value.inert_of_isData) fun _ _ hframes hst => hst.of_frames hframes

/-- The rule of a tree that is no function literal ends, if the evaluation of its parts does, and
what it quotes. -/
theorem ends_evalRule {n : Node} {sc : Scope} (hsc : sc.Inside root lo) (hfn : n.isFnLit = false)
    (parts : ∀ c ∈ n.children, ∀ sc' : Scope, sc'.Inside root lo →
      (secludedEnding root lo live).holds (eval c sc') (Value.Result (Value.Inert live)))
    (quotations : ∀ arg, n = .call (.ident "quote") [arg] →
      (Upkeep.attempts (secludedEnding root lo live)).holds (Monkey.evalQuote arg sc)
        (Value.Result (Value.Inert live))) :
    (secludedEnding root lo live).holds (evalRule n sc) (Value.Result (Value.Inert live)) := by
  have U : Steps (secludedEnding root lo live) (Value.Inert live) := secludedEnding_steps
  refine U.evalRule ?_ ?_ ?_ ?_ ?_ ?_ ?_ ?_ quotations
  · exact fun name => ends_reading fun st hst v hv => hst.lookup hsc hv
  · exact fun m hm => parts m (n.parts_subset hm) sc hsc
  · rintro ss rfl
    have hopened : (secludedEnding root lo live).holds (openScope sc []) (·.Inside root lo) :=
      ends_yielding fun st hst => hst.child hsc (by simp)
    refine Judgement.bind _ hopened fun inner hinner => ?_
    refine U.evalStatements_null fun s hs => parts s ?_ inner hinner
    exact Node.mem_children.2 (.inr (.inl hs))
  · rintro callee args rfl
    rw [evalCall_eq]
    refine Judgement.bind _ (Upkeep.evalOperands fun m hm => parts m ?_ sc hsc) fun p hp => ?_
    · exact Node.mem_children.2 (.inl hm)
    · refine Judgement.lift _ (U.call (fun v hv => hp v (List.mem_cons_of_mem _ hv)) ?_)
      intro i params body sc' hcallee
      have hinert := (Value.every_iff.1 (hp _ List.mem_cons_self)).1
      exact absurd hcallee (hinert.uncallable i params body sc')
  · exact fun name e v _ hv => ends_modify fun st hst => hst.define hv sc
  · exact fun e i v _ _ => ⟨nofun, nofun⟩
  · rintro ps b i rfl
    cases hfn
  · exact fun ps b i _ => ⟨nofun, nofun⟩

namespace Node

/-- Whatever values quote, a flat tree without functions ends: nothing is evaluated but parts of it. -/
theorem ends_of_flat (n : Node) (hsorted : n.WellSorted) (hfree : n.FunctionFree) (hflat : n.Flat)
    {sc : Scope} (hsc : sc.Inside root lo) :
    (secludedEnding root lo live).holds (eval n sc) (Value.Result (Value.Inert live)) := by
  induction n using subtree_induction generalizing sc with
  | h n ih =>
    have hbelow : ∀ c ∈ n.children, ∀ t ∈ c.subtrees, ∀ {sc : Scope}, sc.Inside root lo →
        (secludedEnding root lo live).holds (eval t sc) (Value.Result (Value.Inert live)) := by
      intro c hc t ht sc hsc
      have hmem : t ∈ n.subtrees := mem_subtrees.2 (.inr ⟨c, hc, ht⟩)
      exact ih c hc t ht (hsorted.of_mem_subtrees hmem)
        (fun u hu => hfree u (mem_subtrees_trans hmem hu))
        (fun u hu => hflat u (mem_subtrees_trans hmem hu)) hsc
    refine ends_eval (ends_evalRule hsc (functionFree_iff.1 hfree).1 ?_ ?_)
    · exact fun c hc sc' hsc' => hbelow c hc c c.self_mem_subtrees hsc'
    · rintro arg rfl
      have harg : arg ∈ (call (ident "quote") [arg]).children := by simp [children]
      have hsort := ((wellSorted_iff.1 hsorted).operands arg (by simp)).1
      refine secludedEnding_steps.quotation_tame hsort (hsorted.child harg)
        ((functionFree_iff.1 hfree).2 arg harg) fun t ht x hx x' hrequoted => ?_
      -- nothing is unquoted inside what is unquoted, so it is evaluated as it stands
      obtain rfl : x' = x := hrequoted.same ((flat_iff.1 hflat).2 arg harg t ht x hx)
      have hx' : x' ∈ t.subtrees := mem_subtrees_of_child (mem_children_of_mem_unquoted? hx)
      exact hbelow arg harg x' (mem_subtrees_trans ht hx') hsc

/-- If no `unquote` is left in what values quote, any tree without functions ends: what it unquotes
is a tree without `unquote` by the time it is evaluated. -/
theorem ends_of_unquoteFree (n : Node) (hsorted : n.WellSorted) (hfree : n.FunctionFree)
    {sc : Scope} (hsc : sc.Inside root lo) :
    (secludedEnding root lo false).holds (eval n sc) (Value.Result (Value.Inert false)) := by
  induction n using child_induction generalizing sc with
  | h n ih =>
    obtain ⟨hfn, hfreeBelow⟩ := functionFree_iff.1 hfree
    refine ends_eval (ends_evalRule hsc hfn ?_ ?_)
    · exact fun c hc sc' hsc' => ih c hc (hsorted.child hc) (hfreeBelow c hc) hsc'
    · rintro arg rfl
      have harg : arg ∈ (call (ident "quote") [arg]).children := by simp [children]
      have hsort := ((wellSorted_iff.1 hsorted).operands arg (by simp)).1
      refine secludedEnding_steps.quotation_tame hsort (hsorted.child harg) (hfreeBelow arg harg)
        fun t _ x _ x' hrequoted => ?_
      have htame := hrequoted.tame
      exact ends_of_flat x' htame.wellSorted htame.functionFree (htame.unquoteFree rfl).flat hsc

end Node

end Evaluation

/-- An outermost scope is secluded, if all that it binds has the shape. -/
theorem Store.secluded_of_root {st : Store} {root : Scope} {f : Frame} {shape : Value → Prop}
    (hf : st.frame? root = some f) (hparent : f.parent = none)
    (hvalues : ∀ b ∈ f.bindings, b.2.Every shape) : st.Secluded root st.frames.size shape := by
  have hframe : ∀ {sc : Scope} {g : Frame}, sc.Inside root st.frames.size →
      st.frame? sc = some g → g = f := by
    rintro sc g (rfl | hle) hg
    · exact Option.some.inj (hg.symm.trans hf)
    · have hlt : sc.index < st.frames.size := (Array.getElem?_eq_some_iff.1 hg).1
      omega
  refine ⟨Nat.le_refl _, ?_, ?_⟩
  · intro sc g p hsc hg hp
    obtain rfl := hframe hsc hg
    rw [hparent] at hp
    cases hp
  · intro sc g hsc hg
    obtain rfl := hframe hsc hg
    exact hvalues

/-- A new outermost scope has a frame of its own, without bindings. -/
theorem Store.frame?_newRoot (st : Store) : st.newRoot.2.frame? st.newRoot.1 = some ⟨none, []⟩ := by
  rw [newRoot, frame?_addFrame]
  exact if_pos rfl

namespace Node

/-- A program without functions ends when it is evaluated in a new outermost scope, however its
quotations are nested: at every sufficient depth it comes to the same value, unless a number is to be
shown that cannot be written. -/
theorem evaluate_ends {source : String} {program : Node} (hparse : Source.parse source = .ok program)
    (hfree : program.FunctionFree) (st : Store) :
    ∃ (o : Outcome Value) (least : Nat),
      (∀ depth, least ≤ depth → program.evaluate depth st.newRoot.1 st.newRoot.2 = o) ∧
        ((∃ v, o.result = .ok v) ∨
          o.result = .error .unwritableNumber ∧
            ∃ w ∈ (eval program st.newRoot.1).visits evalRule least st.newRoot.2,
              w.ShowsUnwritable) := by
  have hends : (secludedEnding st.newRoot.1 st.newRoot.2.frames.size false).holds
      (eval program st.newRoot.1) (Value.Result (Value.Inert false)) :=
    ends_of_unquoteFree program (Source.parse_wellSorted hparse) hfree (.inl rfl)
  obtain ⟨o, least, hsettled, hresult⟩ :=
    hends.settled (Store.secluded_of_root st.frame?_newRoot rfl (by simp))
  refine ⟨o, least, fun depth hle => ?_, ?_⟩
  · rw [evaluate, run_eq]
    exact hsettled depth hle
  · cases ho : o.result with
    | ok v => exact .inl ⟨v, rfl⟩
    | error e =>
      rw [ho] at hresult
      obtain rfl : e = .unwritableNumber := hresult
      refine .inr ⟨rfl, (traces_eval least program _ st.newRoot.2).1 ?_⟩
      rw [hsettled least (Nat.le_refl _), ho]

/-- What is unquoted here is spliced in first, and is no part of the program. -/
theorem evaluate_ends_spliced :
    let source := "let a = quote(1 + 2); quote(unquote(unquote(a)))"
    ∃ program, Source.parse source = .ok program ∧ program.FunctionFree ∧
      ∃ (o : Outcome Value) (least : Nat),
        (∀ depth, least ≤ depth → program.evaluate depth ⟨0⟩ Store.empty.newRoot.2 = o) ∧
          o.result.toOption.map Value.inspect = some "QUOTE(3)" := by
  intro source
  let program : Node := .program
    [.letStmt "a" (.call (.ident "quote") [.infixOp (.int 1) "+" (.int 2)]),
      .exprStmt (.call (.ident "quote")
        [.call (.ident "unquote") [.call (.ident "unquote") [.ident "a"]]])]
  have hparse : Source.parse source = .ok program := Source.parse_of_toOption (by decide +kernel)
  have hfree : program.FunctionFree := by decide
  have htext : ((eval program ⟨0⟩).outcome evalRule 9 Store.empty.newRoot.2).result.toOption.map
      Value.inspect = some "QUOTE(3)" := by
    decide +kernel
  obtain ⟨o, least, hsettled, -⟩ := evaluate_ends hparse hfree .empty
  refine ⟨program, hparse, hfree, o, least, hsettled, ?_⟩
  have hfinished : ((eval program ⟨0⟩).outcome evalRule 9 Store.empty.newRoot.2).Finished := by
    intro hlack
    rw [hlack] at htext
    cases htext
  have ho : (eval program ⟨0⟩).outcome evalRule 9 Store.empty.newRoot.2 = o :=
    eq_of_settled (fun depth hle => (run_eq ..).symm.trans (hsettled depth hle)) hfinished
  rw [← ho]
  exact htext

end Node

end Monkey
