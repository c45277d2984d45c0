import Monkey.Proofs.Composition
import Monkey.Proofs.FunctionFree

/-!
# When the expansion of macros ends

What a macro yields is not expanded again, so expansion makes one pass over a program.
It ends if the bodies of the macros end. These are evaluated where their parameters
mean quoted arguments, and the arguments are quoted as they stand, with the calls of
`unquote` that are in them. So a macro that unquotes a parameter inside something
that it unquotes evaluates a quotation of its caller's, in the scope of its own
parameters; and that may quote the parameter again, without end.

This takes both a body that is not flat and an argument that unquotes something. Where
no call brings the two together, expansion ends. As the name `unquote` may be what
a macro yields, and the name of a macro, too, callees that are calls of macros have to be
taken into account.

## Main definitions

* `Node.Harmless` — no call in the tree brings the two together.

## Main results

* `Node.expansion_ends` — then the expansion of a program without functions ends.
* `Node.expansion_loops` — a program without functions whose expansion does not end.
-/

namespace Monkey

open Monkey.Computation

/-! ## Calls of macros -/

/-- The body of a macro. -/
def Value.macroBody? : Value → Option Node
  | macroFn _ _ body _ => some body
  | _ => none

namespace Node

/-- The callees of calls that may come to be calls of the name, because they are the name, or calls
of macros, which may be replaced by it. The callee of such a call may again be a call. -/
def mayName (macros : Table String Value) : Node → String → Bool
  | ident other, name => other == name
  | call callee _, _ => macros.any fun m => callee.mayName macros m.1
  | _, _ => false

/-- Whether the tree is a call of `unquote`, or may come to be one when macros are expanded. -/
def mayUnquote (macros : Table String Value) : Node → Bool
  | call callee [_] => callee.mayName macros "unquote"
  | _ => false

/-- No call of `unquote` is in the tree, whatever macro calls in it are replaced by. -/
def Plain (macros : Table String Value) (n : Node) : Prop :=
  ∀ t ∈ n.subtrees, t.mayUnquote macros = false

instance (macros : Table String Value) : DecidablePred (Plain macros) := fun n =>
  inferInstanceAs (Decidable (∀ t ∈ n.subtrees, t.mayUnquote macros = false))

theorem plain_iff {macros : Table String Value} {n : Node} : n.Plain macros ↔
    n.mayUnquote macros = false ∧ ∀ c ∈ n.children, c.Plain macros :=
  forall_subtrees_iff

/-- The arguments of the call are plain, unless the macros that it may come to be a call of have flat
bodies. -/
def Spares (macros : Table String Value) : Node → Prop
  | call callee args => ∀ m ∈ macros, ∀ body ∈ m.2.macroBody?, callee.mayName macros m.1 = true →
      (∀ a ∈ args, a.Plain macros) ∨ body.Flat
  | _ => True

instance (macros : Table String Value) : DecidablePred (Spares macros)
  | call callee args => inferInstanceAs (Decidable (∀ m ∈ macros, ∀ body ∈ m.2.macroBody?,
      callee.mayName macros m.1 = true → (∀ a ∈ args, a.Plain macros) ∨ body.Flat))
  | program _ | letStmt _ _ | returnStmt _ | exprStmt _ | block _ | ident _ | int _ | str _ | bool _
  | array _ | hash _ | index _ _ | prefixOp _ _ | infixOp _ _ _ | ifExpr _ _ _ | fnLit _ _
  | macroLit _ _ => .isTrue trivial

/-- No call in the tree may come to be one of a macro that evaluates what its arguments unquote. -/
def Harmless (macros : Table String Value) (n : Node) : Prop := ∀ t ∈ n.subtrees, t.Spares macros

instance (macros : Table String Value) : DecidablePred (Harmless macros) := fun n =>
  inferInstanceAs (Decidable (∀ t ∈ n.subtrees, t.Spares macros))

/-- What macros may make of a tree. -/
structure Expanded (macros : Table String Value) (n n' : Node) : Prop where
  fits : n.FitsFor n'
  tame : ∀ live, (live = false → n.Plain macros) → n'.Tame live
  names : ∀ name, n' = .ident name → n.mayName macros name = true

variable {macros : Table String Value} {n n' : Node}

theorem Tame.mono {live live' : Bool} (h : n.Tame live) (hle : live' = false → live = false) :
    n.Tame live' :=
  ⟨h.wellSorted, h.functionFree, fun hlive => h.unquoteFree (hle hlive)⟩

/-- A tree that is no macro call when its parts have been expanded stays as it is then. -/
theorem expanded_of_lifts (hfn : n.isFnLit = false) (hlift : n.Lifts (Expanded macros) n') :
    n.Expanded macros n' where
  fits := .of_lifts (hlift.mono_of_mem fun _ _ _ hc => hc.fits)
  tame live hplain := by
    have hparts : n.Lifts (fun _ c' => c'.Tame live) n' := hlift.mono_of_mem fun c hc _ h =>
      h.tame live fun hlive => (plain_iff.1 (hplain hlive)).2 c hc
    refine tame_of_built (by rw [hlift.isFnLit, hfn]) ?_ (hparts.built fun _ _ => id)
    rintro hlive arg rfl
    have hunquote : n.mayUnquote macros = true := by
      cases hlift with
      | call hf hargs =>
        cases hargs with
        | cons _ hnil =>
          cases hnil
          exact hf.2.names "unquote" rfl
    rw [(plain_iff.1 (hplain hlive)).1] at hunquote
    cases hunquote
  names name hname := by
    subst hname
    cases hlift
    exact beq_self_eq_true name

/-- A call that may be one of a macro may be replaced by any expression that is as tame as it has to
be. -/
theorem expanded_of_call {callee : Node} {args : List Node} {m : String × Value} (hm : m ∈ macros)
    (hcallee : callee.mayName macros m.1 = true) (he : n'.isExpression = true)
    (htame : ∀ live, (live = false → (call callee args).Plain macros) → n'.Tame live) :
    (call callee args).Expanded macros n' where
  fits := .of_call he (htame true nofun).wellSorted
  tame := htame
  names _ _ := List.any_eq_true.2 ⟨m, hm, hcallee⟩

end Node

/-! ## The scope of macros -/

/-- The value is a macro that was made in the scope and has no function in its body. -/
def Value.TameMacro (root : Scope) (v : Value) : Prop :=
  ∃ i params body, v = .macroFn i params body root ∧ body.WellSorted ∧ body.FunctionFree

/-- The frame of an outermost scope, with such macros and nothing else. -/
structure Frame.HoldsTame (root : Scope) (f : Frame) : Prop where
  outermost : f.parent = none
  macros : ∀ b ∈ f.bindings, b.2.TameMacro root

/-- What statements define are the macros of their definitions. -/
theorem Node.exists_of_mem_definitions {root : Scope} {ss : List Node} {i : Identity}
    {b : String × Value} (hb : b ∈ definitions root i ss) :
    ∃ j params body, b.2 = .macroFn j params (.block body) root ∧
      .letStmt b.1 (.macroLit params body) ∈ ss := by
  induction ss generalizing i with
  | nil => cases hb
  | cons s ss ih =>
    cases hs : s.isMacroDefinition with
    | true =>
      obtain ⟨name, params, body, rfl⟩ := isMacroDefinition_iff.1 hs
      rcases List.mem_cons.1 hb with rfl | hb
      · exact ⟨i, params, body, rfl, List.mem_cons_self⟩
      · obtain ⟨j, params', body', hvalue, hmem⟩ := ih hb
        exact ⟨j, params', body', hvalue, List.mem_cons_of_mem _ hmem⟩
    | false =>
      rw [definitions_cons hs] at hb
      obtain ⟨j, params, body, hvalue, hmem⟩ := ih hb
      exact ⟨j, params, body, hvalue, List.mem_cons_of_mem _ hmem⟩

/-- The definitions of a program without functions give such a frame. -/
theorem Frame.holdsTame_bindAll {root : Scope} {ss : List Node} (i : Identity)
    (hsorted : (Node.program ss).WellSorted) (hfree : (Node.program ss).FunctionFree) :
    (Frame.bindAll (Node.definitions root i ss) ⟨none, []⟩).HoldsTame root where
  outermost := rfl
  macros := by
    refine Table.forall_insertAll (P := Value.TameMacro root) (fun b hb => ?_) nofun
    obtain ⟨j, params, body, hvalue, hmem⟩ := Node.exists_of_mem_definitions hb
    -- the body is a child of the literal, which is the operand of the definition
    have hdefinition : Node.letStmt b.1 (.macroLit params body) ∈ (Node.program ss).subtrees :=
      Node.mem_subtrees_of_child (Node.mem_children.2 (.inr (.inl hmem)))
    have hliteral : Node.macroLit params body ∈ (Node.program ss).subtrees :=
      Node.mem_subtrees_trans hdefinition (Node.mem_subtrees_of_child (by simp [Node.children]))
    have hbody : Node.block body ∈ (Node.program ss).subtrees :=
      Node.mem_subtrees_trans hliteral (Node.mem_subtrees_of_child (by simp [Node.children]))
    refine ⟨j, params, _, hvalue, hsorted.of_mem_subtrees hbody, fun t ht => ?_⟩
    exact hfree t (Node.mem_subtrees_trans hbody ht)

/-! ## The pass -/

section Pass
variable {root : Scope} {f : Frame}

/-- The judgement that a computation ends and leaves the scope of macros alone. -/
abbrev expansionEnding (root : Scope) (f : Frame) : Judgement Computation :=
  ending fun st => st.frame? root = some f

theorem frame?_of_frames {st st' : Store} (h : st'.frames = st.frames)
    (hf : st.frame? root = some f) : st'.frame? root = some f := by
  rwa [Store.frame?, h]

theorem expansionEnding_steps (live : Bool) :
    Steps (expansionEnding root f) (Value.Inert live) :=
  ending_steps (fun _ => Value.inert_of_isData) fun _ _ => frame?_of_frames

theorem expansionEnding_note (n : Note) :
    (expansionEnding root f).holds (modify (Store.note n)) fun _ => True :=
  ends_modify fun _ => frame?_of_frames rfl

variable (hf : f.HoldsTame root)
include hf

/-- The body of a macro ends, if it is flat or nothing is unquoted in the arguments. -/
theorem ends_macroBody {live : Bool} {body : Node} (hsorted : body.WellSorted)
    (hfree : body.FunctionFree) (hflat : live = true → body.Flat) {bindings : Table String Value}
    (hb : ∀ b ∈ bindings, b.2.Every (Value.Inert live)) :
    (expansionEnding root f).holds (openScope root bindings >>= fun inner => eval body inner)
      (Value.Result (Value.Inert live)) := by
  intro st hst
  have hvalues : ∀ b ∈ f.bindings, b.2.Every (Value.Inert live) := by
    intro b hmem
    obtain ⟨i, params, body, hvalue, -⟩ := hf.macros b hmem
    rw [hvalue]
    exact .intro ⟨nofun, nofun⟩ (by simp)
  have hbody : ∀ inner : Scope, inner.Inside root st.frames.size →
      (secludedEnding root st.frames.size live).holds (eval body inner)
        (Value.Result (Value.Inert live)) := by
    intro inner hinner
    cases live with
    | true => exact body.ends_of_flat hsorted hfree (hflat rfl) hinner
    | false => exact body.ends_of_unquoteFree hsorted hfree hinner
  have hopened : (secludedEnding root st.frames.size live).holds (openScope root bindings)
      (·.Inside root st.frames.size) := ends_yielding fun st' hst' => hst'.child (.inl rfl) hb
  obtain ⟨depth, -, hresult⟩ := Judgement.bind _ hopened hbody st
    (Store.secluded_of_root hst hf.outermost hvalues)
  refine ⟨depth, ?_, hresult⟩
  -- the evaluation takes place in the new scope and leaves all others alone
  have hlt : root.index < st.frames.size := (Array.getElem?_eq_some_iff.1 hst).1
  have hne : root ≠ ⟨st.frames.size⟩ := by
    rintro rfl
    exact Nat.lt_irrefl _ hlt
  have hframe : (st.child root bindings).2.frame? root = some f :=
    Store.frame?_addFrame_of_some _ hst
  have hkept := Store.frame?_evaluate_of_ne hframe hne body depth
  rwa [Node.evaluate, run_eq] at hkept

/-- A macro that is found is one of those that the frame holds. -/
theorem ends_findMacro (name : String) :
    (expansionEnding root f).holds (findMacro name root) fun found => ∀ m, found = some m →
      ∃ i, (name, Value.macroFn i m.1 m.2.1 m.2.2) ∈ f.bindings := by
  refine ends_reading fun st hst m hm => ?_
  have hlookup : ∀ v, st.lookup name root = some v → (name, v) ∈ f.bindings := by
    intro v hv
    cases hfind : f.bindings.find? name with
    | none =>
      rw [Store.lookup_of_root hst hfind hf.outermost] at hv
      cases hv
    | some w =>
      have hbindings : (st.bindings root).find? name = some w := by rwa [Store.bindings, hst]
      rw [Store.lookup_of_find? hbindings] at hv
      obtain rfl := Option.some.inj hv
      exact Table.mem_of_find? hfind
  split at hm
  · next i params body sc hfound =>
    obtain rfl := Option.some.inj hm
    exact ⟨i, hlookup _ hfound⟩
  · cases hm

/-- The replacement of a macro call ends, if it does not bring a body that is not flat together with
an argument that unquotes something. -/
theorem ends_expandStep {n n' : Node} (hfn : n.isFnLit = false) (hspares : n.Spares f.bindings)
    (hlift : n.Lifts (Node.Expanded f.bindings) n') :
    ((expansionEnding root f).except fun _ => True).holds (expandStep root n')
      (n.Expanded f.bindings) := by
  have hstays : n.Expanded f.bindings n' := Node.expanded_of_lifts hfn hlift
  unfold expandStep
  split
  · next name args' =>
    cases hlift with
    | @call callee _ args _ hcallee hargs =>
      refine Judgement.bind _ (Judgement.lift _ (ends_findMacro hf name)) fun found hfound => ?_
      cases found with
      | none => exact Judgement.pure _ hstays
      | some m =>
        obtain ⟨i, hmem⟩ := hfound m rfl
        have hname : callee.mayName f.bindings name = true := hcallee.2.names name rfl
        obtain ⟨j, params, body, hvalue, hsorted, hfree⟩ := hf.macros _ hmem
        obtain ⟨-, -, hbody, hroot⟩ : i = j ∧ m.1 = params ∧ m.2.1 = body ∧ m.2.2 = root := by
          simpa using hvalue
        rw [← hbody] at hsorted hfree
        -- what is quoted may be live unless all arguments are plain
        obtain ⟨live, hlive⟩ : ∃ live : Bool, live = false ↔ ∀ a ∈ args, a.Plain f.bindings :=
          ⟨!decide (∀ a ∈ args, a.Plain f.bindings), by simp⟩
        have hflat : live = true → m.2.1.Flat := by
          rintro rfl
          refine (hspares _ hmem _ rfl hname).resolve_left fun hplain => ?_
          cases hlive.2 hplain
        have hquotes : ∀ a' ∈ args', ∀ i, Value.Inert live (.quote i a') := by
          intro a' ha' i
          obtain ⟨a, ha, hsort, hexpanded⟩ := hargs.exists_left a' ha'
          refine ⟨?_, nofun⟩
          rintro _ _ ⟨⟩
          exact ⟨hsort, hexpanded.tame live fun h => hlive.1 h a ha⟩
        show ((expansionEnding root f).except fun _ => True).holds
          (expandCall name args' m.1 m.2.1 m.2.2) _
        rw [hroot]
        refine Judgement.mono _ ((expansionEnding_steps live).expandCall expansionEnding_note hquotes
          m.1 fun bindings hb => ends_macroBody hf hsorted hfree hflat hb) fun e he => ?_
        obtain ⟨k, hquote⟩ := he
        obtain ⟨hsort, htame⟩ := hquote.quotes k e rfl
        refine Node.expanded_of_call hmem hname hsort fun live' hplain => htame.mono fun hlive' => ?_
        exact hlive.2 fun a ha => (Node.plain_iff.1 (hplain hlive')).2 a (by simp [Node.children, ha])
  · exact Judgement.pure _ hstays

/-- The replacement of all macro calls ends in a harmless program. -/
theorem ends_expandMacros {program : Node} (hsorted : program.WellSorted)
    (hfree : program.FunctionFree) (hharmless : program.Harmless f.bindings) :
    ((expansionEnding root f).except fun _ => True).holds (expandMacros root program)
      fun _ => True := by
  have hrewriting := Judgement.rewriting_subtrees hsorted (fun _ _ h => h.fits) fun n hn n' hlift =>
    ends_expandStep hf (hfree n hn) (hharmless n hn) hlift
  refine Judgement.bind _ (Judgement.rebuild hrewriting program program.self_mem_subtrees)
    fun r hr => ?_
  cases r with
  | ok n => exact Judgement.pure _ trivial
  | error e => exact hr.elim

end Pass

namespace Node

/-- What is left of a program when its definitions have been taken out is in the program. -/
theorem mem_subtrees_of_undefining {ss : List Node} {c t : Node}
    (hc : c ∈ (program (undefining ss)).children) (ht : t ∈ c.subtrees) :
    t ∈ (program ss).subtrees := by
  have hmem : c ∈ undefining ss := by simpa [children] using hc
  have hchild : c ∈ (program ss).children := by simpa [children] using (List.mem_filter.1 hmem).1
  exact mem_subtrees_trans (mem_subtrees_of_child hchild) ht

theorem wellSorted_undefining {ss : List Node} (h : (program ss).WellSorted) :
    (program (undefining ss)).WellSorted := by
  have hlisted := (wellSorted_iff.1 h).listed
  exact wellSorted_iff.2 ⟨by simp, fun s hs => hlisted s (List.mem_filter.1 hs).1, by simp⟩

theorem functionFree_undefining {ss : List Node} (h : (program ss).FunctionFree) :
    (program (undefining ss)).FunctionFree :=
  functionFree_iff.2 ⟨rfl, fun _ hc t ht => h t (mem_subtrees_of_undefining hc ht)⟩

/-- The expansion of a program without functions, with its macros in a new outermost scope, ends if
what is left when the definitions have been taken out is harmless: at every sufficient depth it comes to
the same program or to the same fault of a macro call, unless a number is to be shown that cannot be
written. -/
theorem expansion_ends {source : String} {program : Node}
    (hparse : Source.parse source = .ok program) (hfree : program.FunctionFree) (st : Store)
    (hharmless : (Node.program (undefining program.statements)).Harmless
      ((st.newRoot.2.defineAll st.newRoot.1 program.statements).bindings st.newRoot.1)) :
    ∃ (o : Outcome (Except Fault Node)) (least : Nat),
      (∀ depth, least ≤ depth →
        (expandProgram st.newRoot.1 program).outcome evalRule depth st.newRoot.2 = o) ∧
        ((∃ ss, o.result = .ok (.ok (.program ss))) ∨ (∃ fault, o.result = .ok (.error fault)) ∨
          o.result = .error .unwritableNumber ∧
            ∃ w ∈ (expandProgram st.newRoot.1 program).visits evalRule least st.newRoot.2,
              w.ShowsUnwritable) := by
  have hsorted := Source.parse_wellSorted hparse
  obtain ⟨ss, rfl⟩ := Source.parse_eq_program hparse
  -- taking the definitions out always succeeds, and leaves the macros in the new scope
  let st' : Store := (st.newRoot.2.note (.parsed ss.length)).defineAll st.newRoot.1 ss
  let f : Frame := Frame.bindAll (definitions st.newRoot.1 st.nextIdentity ss) ⟨none, []⟩
  have hframe : ∀ before : Store, before.frames = st.newRoot.2.frames →
      before.nextIdentity = st.nextIdentity →
      (before.defineAll st.newRoot.1 ss).frame? st.newRoot.1 = some f := by
    intro before hframes hidentity
    have hnew := frame?_of_frames hframes st.frame?_newRoot
    rw [Store.frame?_defineAll, if_pos rfl, hnew, hidentity]
    rfl
  have hbindings : (st.newRoot.2.defineAll st.newRoot.1 ss).bindings st.newRoot.1 = f.bindings := by
    rw [Store.bindings, hframe _ rfl rfl]
  have hends := ends_expandMacros (Frame.holdsTame_bindAll st.nextIdentity hsorted hfree)
    (wellSorted_undefining hsorted) (functionFree_undefining hfree) (hbindings ▸ hharmless)
  have hstart : st'.frame? st.newRoot.1 = some f := hframe _ rfl rfl
  obtain ⟨o, least, hsettled, hresult⟩ := Computation.Ends.settled hends hstart
  have hexpand : ∀ depth, least ≤ depth →
      (expandProgram st.newRoot.1 (.program ss)).outcome evalRule depth st.newRoot.2 = o := by
    intro depth hle
    rw [outcome_expandProgram]
    exact hsettled depth hle
  refine ⟨o, least, hexpand, ?_⟩
  have hleast := hexpand least (Nat.le_refl _)
  obtain ⟨result, st''⟩ := o
  rcases result with e | (fault | n)
  · obtain rfl : e = .unwritableNumber := hresult
    refine .inr (.inr ⟨rfl, (traces_expandProgram _ _ st.newRoot.2).1 ?_⟩)
    rw [hleast]
  · exact .inr (.inl ⟨fault, rfl⟩)
  · obtain ⟨ss', rfl⟩ := program_of_expandProgram hleast
    exact .inl ⟨ss', rfl⟩

/-- A macro that is not flat ends on a plain argument, and a flat one on any. -/
theorem expansion_ends_mixed :
    let source := "let twice = macro(p) \x7b quote(unquote(unquote(p))) \x7d; " ++
      "let keep = macro(p) \x7b quote([unquote(p)]) \x7d; keep(quote(unquote(twice(1 + 2))));"
    ∃ program, Source.parse source = .ok program ∧ program.FunctionFree ∧
      (Node.program (undefining program.statements)).Harmless
        ((Store.empty.newRoot.2.defineAll Store.empty.newRoot.1 program.statements).bindings
          Store.empty.newRoot.1) ∧
      ∃ (o : Outcome (Except Fault Node)) (least : Nat),
        (∀ depth, least ≤ depth →
          (expandProgram Store.empty.newRoot.1 program).outcome evalRule depth Store.empty.newRoot.2 = o) ∧
        o.result.toOption.map (·.toOption.map Node.render) = some (some "[quote(unquote(3))]") := by
  intro source
  let nested : Node :=
    .call (.ident "quote") [.call (.ident "unquote") [.call (.ident "unquote") [.ident "p"]]]
  let listed : Node :=
    .call (.ident "quote") [.array [.call (.ident "unquote") [.ident "p"]]]
  let program : Node := .program
    [.letStmt "twice" (.macroLit ["p"] [.exprStmt nested]),
      .letStmt "keep" (.macroLit ["p"] [.exprStmt listed]),
      .exprStmt (.call (.ident "keep") [.call (.ident "quote") [.call (.ident "unquote")
        [.call (.ident "twice") [.infixOp (.int 1) "+" (.int 2)]]]])]
  have hparse : Source.parse source = .ok program := Source.parse_of_toOption (by decide +kernel)
  have hfree : program.FunctionFree := by decide
  have hharmless : (Node.program (undefining program.statements)).Harmless
      ((Store.empty.newRoot.2.defineAll Store.empty.newRoot.1 program.statements).bindings
          Store.empty.newRoot.1) := by decide +kernel
  have htext : ((expandProgram Store.empty.newRoot.1 program).outcome evalRule 9
      Store.empty.newRoot.2).result.toOption.map (·.toOption.map Node.render) =
        some (some "[quote(unquote(3))]") := by
    decide +kernel
  obtain ⟨o, least, hsettled, -⟩ := expansion_ends hparse hfree .empty hharmless
  refine ⟨program, hparse, hfree, hharmless, o, least, hsettled, ?_⟩
  have hfinished : ((expandProgram Store.empty.newRoot.1 program).outcome evalRule 9
      Store.empty.newRoot.2).Finished := by
    intro hlack
    rw [hlack] at htext
    cases htext
  rw [← eq_of_settled hsettled hfinished]
  exact htext

/-! ## Expansion without end -/

/-- The evaluation of the tree lacks depth, however much it is given. -/
def NeverEnds (n : Node) (sc : Scope) (st : Store) : Prop :=
  ∀ depth, (evalWithin evalRule depth n sc st).result = .error .depthExceeded

/-- A computation lacks depth if what it asks for never ends. -/
theorem NeverEnds.lacks {α : Type} {n : Node} {sc : Scope} {st : Store} (h : n.NeverEnds sc st)
    (resume : Value → Store → Progress α) (depth : Nat) :
    ((Progress.request n sc st resume).resolve (evalWithin evalRule depth)).result =
      .error .depthExceeded := by
  simp only [Progress.resolve, h depth]

/-- A tree that quotes the value of what `p` quotes. -/
def requoting : Node :=
  .call (.ident "quote") [.call (.ident "unquote") [.call (.ident "unquote") [.ident "p"]]]

/-- Where `p` quotes this tree, its evaluation asks for its own value in the same scope. -/
theorem neverEnds_requoting {sc : Scope} {st : Store} {i : Identity}
    (hquote : st.lookup "quote" sc = none) (hp : st.lookup "p" sc = some (.quote i requoting)) :
    requoting.NeverEnds sc st := by
  obtain ⟨resume, resume', hrule, hresume⟩ : ∃ resume resume',
      evalRule requoting sc st = .request (.ident "p") sc st resume ∧
        resume (.quote i requoting) st = .request requoting sc st resume' := by
    rw [requoting, evalRule_quote hquote]
    exact ⟨_, _, rfl, rfl⟩
  intro depth
  induction depth using Nat.strongRecOn with
  | ind depth ih =>
    match depth with
    | 0 => rfl
    | 1 =>
      rw [evalWithin_succ, hrule]
      simp only [Progress.resolve, evalWithin_zero]
    | depth + 2 =>
      have hname : evalWithin evalRule (depth + 1) (.ident "p") sc st =
          ⟨.ok (.quote i requoting), st⟩ := by
        show (evalName "p" sc).outcome evalRule depth st = _
        rw [evalName, outcome_bind, outcome_reading, hp]
        rfl
      rw [evalWithin_succ, hrule]
      simp only [Progress.resolve, hname, hresume, ih (depth + 1) (by omega)]

/-- The body of a macro is a block, and has a scope of its own. -/
theorem neverEnds_block_requoting {sc : Scope} {st : Store} {i : Identity}
    (hquote : st.lookup "quote" sc = none) (hp : st.lookup "p" sc = some (.quote i requoting)) :
    (block [.exprStmt requoting]).NeverEnds sc st := by
  have hrequoting : requoting.NeverEnds ⟨st.frames.size⟩ (st.child sc []).2 := by
    refine neverEnds_requoting (i := i) ?_ ?_
    · rw [Store.lookup_child, hquote]
      rfl
    · rw [Store.lookup_child, hp]
      rfl
  have hstatement : (exprStmt requoting).NeverEnds ⟨st.frames.size⟩ (st.child sc []).2 := by
    intro depth
    cases depth with
    | zero => rfl
    | succ depth => exact hrequoting.lacks _ depth
  intro depth
  cases depth with
  | zero => rfl
  | succ depth => exact hstatement.lacks _ depth

/-- Whether the computation first asks for the block that holds the tree, where `quote` is unbound and
`p` quotes the tree. -/
def asksRequoting {α : Type} : Progress α → Bool
  | .request n sc st _ => n == .block [.exprStmt requoting] && (st.lookup "quote" sc).isNone &&
      match st.lookup "p" sc with
      | some (.quote _ t) => t == requoting
      | _ => false
  | _ => false

theorem lacks_of_asksRequoting {α : Type} {p : Progress α} (h : asksRequoting p = true)
    (depth : Nat) : (p.resolve (evalWithin evalRule depth)).result = .error .depthExceeded := by
  unfold asksRequoting at h
  split at h
  · next n sc st resume =>
    rw [Bool.and_eq_true, Bool.and_eq_true] at h
    obtain ⟨⟨hn, hquote⟩, hp⟩ := h
    obtain rfl := eq_of_beq hn
    split at hp
    · next i t hlookup =>
      obtain rfl := eq_of_beq hp
      exact (neverEnds_block_requoting (Option.isNone_iff_eq_none.1 hquote) hlookup).lacks resume depth
    · cases hp
  · cases h

/-- The expansion of a program without functions need not end. Here the macro evaluates what its
argument unquotes, which is what the parameter quotes. -/
theorem expansion_loops :
    ¬ ∀ (source : String) (program : Node), Source.parse source = .ok program →
      program.FunctionFree → ∃ depth,
        ((expandProgram Store.empty.newRoot.1 program).outcome evalRule depth
          Store.empty.newRoot.2).Finished := by
  intro h
  let program : Node := .program
    [.letStmt "m" (.macroLit ["p"] [.exprStmt requoting]), .exprStmt (.call (.ident "m") [requoting])]
  have hparse : Source.parse ("let m = macro(p) \x7b quote(unquote(unquote(p))) \x7d; " ++
      "m(quote(unquote(unquote(p))));") = .ok program := Source.parse_of_toOption (by decide +kernel)
  obtain ⟨depth, hfinished⟩ := h _ program hparse (by decide)
  have hasks : asksRequoting
      (expandProgram Store.empty.newRoot.1 program Store.empty.newRoot.2) = true := by
    decide +kernel
  exact hfinished (lacks_of_asksRequoting hasks depth)

end Node

end Monkey
