import Monkey.Proofs.Grammar

/-!
# Soundness of the parser

What the parser has read when it is in a state. The words behind the innermost
open construct are kept apart (`Begun`); the others belong to the open
constructs, each of which has its own words (`Frame`) on top of those of the
constructs around it (`Opened`).

An operator waits only where its result may stand: the level of the place
around it (`holeLevel`) is never above its own. That is why what `reduce`
leaves behind is an expression of the level that the next word asks for.

## Main results

* `reduce_sound` — completing operators keeps the words and yields an
  expression of the level asked for.
* `step_sound`, `steps_sound` — every word read is accounted for.
* `finish_sound` — at the end, the words read make the program.
* `Source.parse_sound` — the tree of a text is one that the grammar makes of it.
-/

namespace Monkey

namespace Parser

/-! ## Series of parts -/

/-- The words of a series of parts, given newest first. -/
inductive Series {α : Type} (item : α → List Word → Prop) : List α → List Word → Prop where
  | nil : Series item [] []
  | snoc {x : α} {xs : List α} {ws w : List Word} :
    Series item xs ws → item x w → Series item (x :: xs) (ws ++ w)

/-- A series in front of a phrase is part of the phrase, if one part in front of it is. -/
theorem Series.extend {α : Type} {item : α → List Word → Prop} {P : List α → List Word → Prop}
    (cons : ∀ {x xs w ws}, item x w → P xs ws → P (x :: xs) (w ++ ws)) {done xs : List α}
    {w ws : List Word} (h : Series item done w) (hxs : P xs ws) :
    P (done.reverse ++ xs) (w ++ ws) := by
  induction h generalizing xs ws with
  | nil => exact hxs
  | snoc _ hx ih =>
    have hrest := ih (cons hx hxs)
    simpa using hrest

/-- A statement as part of a list of statements. -/
def StatementItem (s : Node) (ws : List Word) : Prop := Derives false (.statement s) ws

/-- An expression with the comma behind it. -/
def ArgumentItem (e : Node) (ws : List Word) : Prop :=
  ∃ we t, ws = we ++ [(.comma, t)] ∧ Derives false (.expr 1 e) we

/-- A key and its value with the comma behind them. -/
def PairItem (p : Node × Node) (ws : List Word) : Prop :=
  ∃ wk wv t₁ t₂, ws = wk ++ (.colon, t₁) :: (wv ++ [(.comma, t₂)]) ∧
    Derives false (.expr 1 p.1) wk ∧ Derives false (.expr 1 p.2) wv

/-- A parameter with the comma behind it. -/
def ParamItem (name : String) (ws : List Word) : Prop :=
  ∃ t, ws = [(.ident, name), (.comma, t)]

variable {ws w w' : List Word}

theorem Series.statements {done : List Node} (h : Series StatementItem done ws) :
    Derives false (.statements done.reverse) ws := by
  have hall :=
    h.extend (P := fun ss ws => Derives false (.statements ss) ws) .statements .noStatements
  simpa using hall

theorem Series.args {done es : List Node} (h : Series ArgumentItem done ws)
    (hes : Derives false (.args es) w) : Derives false (.args (done.reverse ++ es)) (ws ++ w) := by
  refine h.extend (P := fun es ws => Derives false (.args es) ws) ?_ hes
  rintro e es _ ws ⟨we, t, rfl, he⟩ hes
  have hcons : Derives false (.args (e :: es)) (we ++ (.comma, t) :: ws) := .args he hes
  simpa using hcons

theorem Series.pairs {done ps : List (Node × Node)} (h : Series PairItem done ws)
    (hps : Derives false (.pairs ps) w) :
    Derives false (.pairs (done.reverse ++ ps)) (ws ++ w) := by
  refine h.extend (P := fun ps ws => Derives false (.pairs ps) ws) ?_ hps
  rintro ⟨key, value⟩ ps _ ws ⟨wk, wv, t₁, t₂, rfl, hk, hv⟩ hps
  have hcons : Derives false (.pairs ((key, value) :: ps))
      (wk ++ (.colon, t₁) :: (wv ++ (.comma, t₂) :: ws)) := .pairs hk hv hps
  simpa using hcons

theorem Series.params {done names : List String} (h : Series ParamItem done ws)
    (hns : Derives false (.params names) w) :
    Derives false (.params (done.reverse ++ names)) (ws ++ w) := by
  refine h.extend (P := fun ns ws => Derives false (.params ns) ws) ?_ hns
  rintro name names _ ws ⟨t, rfl⟩ hns
  exact .params hns

/-! ## Open constructs -/

/-- The level that an expression must have at least in the place that the open constructs leave. -/
def holeLevel : List Pending → Nat
  | .prefixOp _ :: _ => 5
  | .infixOp _ _ own :: _ => own + 1
  | _ => 1

/-- The words in front of the block that belongs to an owner. -/
inductive Heading : Owner → List Word → Prop where
  | consequence {t₁ t₂ t₃ : String} {c : Node} {wc : List Word} : Derives false (.expr 1 c) wc →
    Heading (.consequence c) ((.kwIf, t₁) :: (.lparen, t₂) :: (wc ++ [(.rparen, t₃)]))
  | alternative {t₁ t₂ t₃ t₄ : String} {c : Node} {t : List Node} {wc wt : List Word} :
    Derives false (.expr 1 c) wc → Derives false (.block t) wt →
    Heading (.alternative c t)
      ((.kwIf, t₁) :: (.lparen, t₂) :: (wc ++ (.rparen, t₃) :: (wt ++ [(.kwElse, t₄)])))
  | body {t₁ t₂ t₃ : String} {form : Form} {names : List String} {wn : List Word} :
    Derives false (.names names) wn →
    Heading (.body form names)
      ((form.keyword, t₁) :: (.lparen, t₂) :: (wn ++ [(.rparen, t₃)]))

/-- The words of one open construct, in a place that asks for the level `hole`. -/
inductive Frame (hole : Nat) : Pending → List Word → Prop where
  | statements {owner : Owner} {done : List Node} {t : String} {wh ws : List Word} :
    Heading owner wh → Series StatementItem done ws →
    Frame hole (.statements owner done) (wh ++ (.lbrace, t) :: ws)
  | letValue {name t₁ t₂ : String} :
    Frame hole (.letValue name) [(.kwLet, t₁), (.ident, name), (.assign, t₂)]
  | returnValue {t : String} : Frame hole .returnValue [(.kwReturn, t)]
  | exprStatement : Frame hole .exprStatement []
  | paren {t : String} : Frame hole .paren [(.lparen, t)]
  | array {t : String} {done : List Node} {ws : List Word} : Series ArgumentItem done ws →
    Frame hole (.array done) ((.lbracket, t) :: ws)
  | arguments {t : String} {f : Node} {done : List Node} {wf ws : List Word} :
    Derives false (.expr 6 f) wf → Series ArgumentItem done ws →
    Frame hole (.arguments f done) (wf ++ (.lparen, t) :: ws)
  | position {t : String} {l : Node} {wl : List Word} : Derives false (.expr 6 l) wl →
    Frame hole (.position l) (wl ++ [(.lbracket, t)])
  | hashKey {t : String} {done : List (Node × Node)} {ws : List Word} : Series PairItem done ws →
    Frame hole (.hashKey done) ((.lbrace, t) :: ws)
  | hashValue {t₁ t₂ : String} {done : List (Node × Node)} {key : Node} {ws wk : List Word} :
    Series PairItem done ws → Derives false (.expr 1 key) wk →
    Frame hole (.hashValue done key) ((.lbrace, t₁) :: (ws ++ (wk ++ [(.colon, t₂)])))
  | prefixOp {k : TokenKind} {op : String} : hole ≤ 5 → k = .bang ∨ k = .minus →
    Frame hole (.prefixOp op) [(k, op)]
  | infixOp {k : TokenKind} {l : Node} {op : String} {own : Nat} {wl : List Word} :
    hole ≤ own → Infix k own → Derives false (.expr own l) wl →
    Frame hole (.infixOp l op own) (wl ++ [(k, op)])
  | condition {t₁ t₂ : String} : Frame hole .condition [(.kwIf, t₁), (.lparen, t₂)]

/-- The words of all open constructs. -/
inductive Opened : List Pending → List Word → Prop where
  | bottom {done : List Node} {ws : List Word} : Series StatementItem done ws →
    Opened [.statements .program done] ws
  | push {p : Pending} {pending : List Pending} {ws w : List Word} :
    Opened pending ws → Frame (holeLevel pending) p w → Opened (p :: pending) (ws ++ w)

/-- The words behind the innermost open construct. -/
inductive Begun : Expect → List Word → Prop where
  | statement : Begun .statement []
  | letName {t : String} : Begun .letName [(.kwLet, t)]
  | letSign {t name : String} : Begun (.letSign name) [(.kwLet, t), (.ident, name)]
  | operand : Begun .operand []
  | firstItem : Begun .firstItem []
  | operator {e : Node} {we : List Word} : Derives false (.expr 6 e) we → Begun (.operator e) we
  | ifOpen {t : String} : Begun .ifOpen [(.kwIf, t)]
  | blockOpen {owner : Owner} {wh : List Word} : Heading owner wh → Begun (.blockOpen owner) wh
  | ifEnd {t₁ t₂ t₃ : String} {c : Node} {t : List Node} {wc wt : List Word} :
    Derives false (.expr 1 c) wc → Derives false (.block t) wt →
    Begun (.ifEnd c t) ((.kwIf, t₁) :: (.lparen, t₂) :: (wc ++ (.rparen, t₃) :: wt))
  | paramsOpen {t : String} {form : Form} : Begun (.paramsOpen form) [(form.keyword, t)]
  | paramFirst {t₁ t₂ : String} {form : Form} :
    Begun (.paramFirst form) [(form.keyword, t₁), (.lparen, t₂)]
  | paramSign {t₁ t₂ name : String} {form : Form} {done : List String} {ws : List Word} :
    Series ParamItem done ws →
    Begun (.paramSign form (name :: done))
      ((form.keyword, t₁) :: (.lparen, t₂) :: (ws ++ [(.ident, name)]))
  | paramName {t₁ t₂ : String} {form : Form} {done : List String} {ws : List Word} :
    Series ParamItem done ws →
    Begun (.paramName form done) ((form.keyword, t₁) :: (.lparen, t₂) :: ws)

/-- Without `else`, an `if` is complete behind its first block. -/
theorem Begun.ifExpr {c : Node} {t : List Node} (h : Begun (.ifEnd c t) w) :
    Derives false (.expr 6 (.ifExpr c t none)) w := by
  cases h with
  | ifEnd hc ht => exact (Derives.ifExpr hc ht).lower (by decide) (by decide)

/-- The words that the parser has read in a state. -/
def Reads (st : State) (ws : List Word) : Prop :=
  ∃ w v, ws = w ++ v ∧ Opened st.pending w ∧ Begun st.expect v

/-! ## Completing operators -/

theorem holeLevel_le_five {pending : List Pending} (h : Opened pending ws) :
    holeLevel pending ≤ 5 := by
  cases h with
  | bottom _ => exact Nat.le_add_left 1 4
  | push _ hframe =>
    cases hframe with
    | prefixOp _ _ => exact Nat.le_refl 5
    | infixOp _ hop _ =>
      have hown := hop.bounds
      simp only [holeLevel]
      omega
    | _ => simp [holeLevel]

/-- Completing operators keeps the words. What comes out is an expression of the level asked
for, in a place that an expression of this level fits. -/
theorem reduce_sound {level m : Nat} {e : Node} {pending : List Pending} {we : List Word}
    (hlevel : level ≤ 4) (hopened : Opened pending w) (he : Derives false (.expr m e) we)
    (hhole : holeLevel pending ≤ m) (hm : max 1 level ≤ m) :
    ∃ w' we', w ++ we = w' ++ we' ∧ Opened (reduce level e pending).2 w' ∧
      Derives false (.expr (max 1 level) (reduce level e pending).1) we' ∧
      holeLevel (reduce level e pending).2 ≤ max 1 level := by
  induction e, pending using reduce.induct level generalizing m w we with
  | case1 e op rest ih =>
    cases hopened with
    | push hrest hframe =>
      cases hframe with
      | prefixOp hle hk =>
        have hoperand : Derives false (.expr 5 e) we := he.lower (by decide) hhole
        obtain ⟨w', we', hw, hopened, he', hhole'⟩ :=
          ih hrest (.prefixOp hk hoperand) hle (by omega)
        have hstep : reduce level e (.prefixOp op :: rest) = reduce level (.prefixOp op e) rest := rfl
        rw [hstep]
        exact ⟨w', we', by simpa using hw, hopened, he', hhole'⟩
  | case2 e l op own rest hle ih =>
    cases hopened with
    | push hrest hframe =>
      cases hframe with
      | infixOp hown hop hl =>
        have hpos := hop.bounds.1
        have hoperand : Derives false (.expr (own + 1) e) we := he.lower (by omega) hhole
        obtain ⟨w', we', hw, hopened, he', hhole'⟩ :=
          ih hrest (.infixOp hop hl hoperand) hown (by omega)
        have hstep : reduce level e (.infixOp l op own :: rest) =
            reduce level (.infixOp l op e) rest := if_pos hle
        rw [hstep]
        exact ⟨w', we', by simpa using hw, hopened, he', hhole'⟩
  | case3 e l op own rest hlt =>
    refine ⟨w, we, rfl, ?_⟩
    simp only [reduce, hlt, if_false, holeLevel] at hhole ⊢
    exact ⟨hopened, he.lower (by omega) hm, by omega⟩
  | case4 e pending hnotPre hnotIn =>
    have hone : holeLevel pending = 1 := by
      unfold holeLevel
      split
      · exact absurd rfl (hnotPre _ _)
      · exact absurd rfl (hnotIn _ _ _ _)
      · rfl
    have hstop : reduce level e pending = (e, pending) := by
      rw [reduce]
      · exact hnotPre
      · exact hnotIn
    rw [hstop]
    have hplace : holeLevel pending ≤ max 1 level := by omega
    exact ⟨w, we, rfl, hopened, he.lower (by omega) hm, hplace⟩

/-! ## One token -/

theorem Reads.intro {expect : Expect} {pending : List Pending} {v : List Word}
    (hopened : Opened pending w) (hbegun : Begun expect v) : Reads ⟨expect, pending⟩ (w ++ v) :=
  ⟨w, v, rfl, hopened, hbegun⟩

theorem Reads.push {expect : Expect} {p : Pending} {pending : List Pending} {v : List Word}
    (hopened : Opened pending w) (hframe : Frame (holeLevel pending) p v)
    (hbegun : Begun expect []) : Reads ⟨expect, p :: pending⟩ (w ++ v) :=
  ⟨w ++ v, [], (List.append_nil _).symm, .push hopened hframe, hbegun⟩

theorem Reads.operator {level : Nat} {e : Node} {pending : List Pending} {we : List Word}
    (hopened : Opened pending w) (he : Derives false (.expr level e) we) (hle : 6 ≤ level) :
    Reads ⟨.operator e, pending⟩ (w ++ we) :=
  .intro hopened (.operator (he.lower (by decide) hle))

variable {k : TokenKind} {text : String} {pending : List Pending} {st : State}

theorem beginOperand_sound (hopened : Opened pending w)
    (h : beginOperand k text pending = some st) : Reads st (w ++ [(k, text)]) := by
  have hhole := holeLevel_le_five hopened
  cases k <;> simp only [beginOperand, Option.some.injEq, reduceCtorEq] at h <;> subst h
  case int => exact .operator hopened .int (by decide)
  case string => exact .operator hopened .str (by decide)
  case kwTrue => exact .operator hopened .boolTrue (by decide)
  case kwFalse => exact .operator hopened .boolFalse (by decide)
  case ident => exact .operator hopened .ident (by decide)
  case bang => exact .push hopened (.prefixOp hhole (.inl rfl)) .operand
  case minus => exact .push hopened (.prefixOp hhole (.inr rfl)) .operand
  case lparen => exact .push hopened .paren .operand
  case lbracket => exact .push hopened (.array .nil) .firstItem
  case lbrace => exact .push hopened (.hashKey .nil) .firstItem
  case kwIf => exact .intro hopened .ifOpen
  case kwFn => exact .intro hopened .paramsOpen
  case kwMacro => exact .intro hopened .paramsOpen

/-- What stands behind a closed block is read on from the words of its owner and its own. -/
theorem closeBlock_sound {owner : Owner} {done : List Node} {wh wb : List Word}
    (hopened : Opened pending w) (hheading : Heading owner wh)
    (hblock : Derives false (.block done.reverse) wb)
    (h : closeBlock owner done pending = some st) : Reads st (w ++ (wh ++ wb)) := by
  cases hheading with
  | @consequence t₁ t₂ t₃ c wc hc =>
    obtain rfl := Option.some.inj h
    have hbegun : Begun (.ifEnd c done.reverse)
        ((.kwIf, t₁) :: (.lparen, t₂) :: (wc ++ (.rparen, t₃) :: wb)) := .ifEnd hc hblock
    simpa using Reads.intro hopened hbegun
  | @alternative t₁ t₂ t₃ t₄ c t wc wt hc ht =>
    obtain rfl := Option.some.inj h
    have he : Derives false (.expr 7 (.ifExpr c t (some done.reverse)))
        ((.kwIf, t₁) :: (.lparen, t₂) :: (wc ++ (.rparen, t₃) :: (wt ++ (.kwElse, t₄) :: wb))) :=
      .ifElse hc ht hblock
    simpa using Reads.operator hopened he (by decide)
  | @body t₁ t₂ t₃ form names wn hnames =>
    obtain rfl := Option.some.inj h
    have he : Derives false (.expr 7 (form.literal names done.reverse))
        ((form.keyword, t₁) :: (.lparen, t₂) :: (wn ++ (.rparen, t₃) :: wb)) :=
      .literal hnames hblock
    simpa using Reads.operator hopened he (by decide)

theorem stepStatement_sound (hopened : Opened pending w)
    (h : stepStatement k text pending = some st) : Reads st (w ++ [(k, text)]) := by
  unfold stepStatement at h
  split at h
  · obtain rfl := Option.some.inj h
    exact .intro hopened .letName
  · obtain rfl := Option.some.inj h
    exact .push hopened .returnValue .operand
  · cases hopened with
    | bottom _ => simp [closeBlock] at h
    | push hrest hframe =>
      cases hframe with
      | @statements _ _ t _ ws hheading hdone =>
        have hblock : Derives false (.block _) ((.lbrace, t) :: (ws ++ [(.rbrace, text)])) :=
          .block hdone.statements
        simpa using closeBlock_sound hrest hheading hblock h
  · have hstatement : Opened (.exprStatement :: pending) (w ++ []) := .push hopened .exprStatement
    have hread := beginOperand_sound hstatement h
    simpa using hread

/-- An expression behind what begins a statement is the statement, up to its end. -/
theorem statement?_sound {hole : Nat} {e s : Node} {p : Pending} {wp we wt : List Word}
    (hframe : Frame hole p wp) (he : Derives false (.expr 1 e) we) (ht : Terminator false wt)
    (h : statement? e p = some s) : Derives false (.statement s) (wp ++ (we ++ wt)) := by
  cases hframe <;> simp only [statement?, Option.some.injEq, reduceCtorEq] at h <;> subst h
  case letValue =>
    show Derives false _ (_ :: _ :: _ :: (we ++ wt))
    exact .letStmt he ht
  case returnValue =>
    show Derives false _ (_ :: (we ++ wt))
    exact .returnStmt he ht
  case exprStatement =>
    show Derives false _ (we ++ wt)
    exact .exprStmt he ht

/-- A statement behind the statements that are there already. -/
theorem Opened.snoc {owner : Owner} {done : List Node} {s : Node} {ws : List Word}
    (hopened : Opened (.statements owner done :: pending) w)
    (hs : Derives false (.statement s) ws) :
    Opened (.statements owner (s :: done) :: pending) (w ++ ws) := by
  cases hopened with
  | bottom hdone => exact .bottom (.snoc hdone hs)
  | push hrest hframe =>
    cases hframe with
    | @statements _ _ t wh _ hheading hdone =>
      have hframe : Frame (holeLevel pending) (.statements owner (s :: done))
          (wh ++ (.lbrace, t) :: (_ ++ ws)) := .statements hheading (.snoc hdone hs)
      simpa using Opened.push hrest hframe

/-! ### Behind a whole expression -/

section
variable {e : Node} {we : List Word}

theorem Opened.closeParen (hopened : Opened (.paren :: pending) w)
    (he : Derives false (.expr 1 e) we) :
    Reads ⟨.operator e, pending⟩ (w ++ (we ++ [(.rparen, text)])) := by
  cases hopened with
  | push hrest hframe =>
    cases hframe with
    | @paren t =>
      have hparen : Derives false (.expr 7 e) ((.lparen, t) :: (we ++ [(.rparen, text)])) :=
        .paren he
      simpa using Reads.operator hrest hparen (by decide)

theorem Opened.closeCondition (hopened : Opened (.condition :: pending) w)
    (he : Derives false (.expr 1 e) we) :
    Reads ⟨.blockOpen (.consequence e), pending⟩ (w ++ (we ++ [(.rparen, text)])) := by
  cases hopened with
  | push hrest hframe =>
    cases hframe with
    | @condition t₁ t₂ =>
      have hheading : Heading (.consequence e)
          ((.kwIf, t₁) :: (.lparen, t₂) :: (we ++ [(.rparen, text)])) := .consequence he
      simpa using Reads.intro hrest (.blockOpen hheading)

theorem Opened.closePosition {l : Node} (hopened : Opened (.position l :: pending) w)
    (he : Derives false (.expr 1 e) we) :
    Reads ⟨.operator (.index l e), pending⟩ (w ++ (we ++ [(.rbracket, text)])) := by
  cases hopened with
  | push hrest hframe =>
    cases hframe with
    | @position t _ wl hl =>
      have hindex : Derives false (.expr 6 (.index l e))
          (wl ++ (.lbracket, t) :: (we ++ [(.rbracket, text)])) := .index hl he
      simpa using Reads.operator hrest hindex (by decide)

/-- An argument with the comma behind it joins those before it. -/
theorem Series.argument {done : List Node} (hdone : Series ArgumentItem done ws)
    (he : Derives false (.expr 1 e) we) :
    Series ArgumentItem (e :: done) (ws ++ (we ++ [(.comma, text)])) :=
  .snoc hdone ⟨we, text, rfl, he⟩

/-- The last argument completes those before it. -/
theorem Series.lastArgument {done : List Node} (hdone : Series ArgumentItem done ws)
    (he : Derives false (.expr 1 e) we) : Derives false (.list (e :: done).reverse) (ws ++ we) := by
  have hargs := hdone.args (.arg he)
  exact .list (by simpa using hargs)

theorem Opened.nextElement {done : List Node} (hopened : Opened (.array done :: pending) w)
    (he : Derives false (.expr 1 e) we) :
    Reads ⟨.operand, .array (e :: done) :: pending⟩ (w ++ (we ++ [(.comma, text)])) := by
  cases hopened with
  | push hrest hframe =>
    cases hframe with
    | array hdone => simpa using Reads.push hrest (.array (hdone.argument he)) .operand

theorem Opened.closeArray {done : List Node} (hopened : Opened (.array done :: pending) w)
    (he : Derives false (.expr 1 e) we) :
    Reads ⟨.operator (.array (e :: done).reverse), pending⟩ (w ++ (we ++ [(.rbracket, text)])) := by
  cases hopened with
  | push hrest hframe =>
    cases hframe with
    | @array t _ ws hdone =>
      have harray : Derives false (.expr 7 (.array (e :: done).reverse))
          ((.lbracket, t) :: ((ws ++ we) ++ [(.rbracket, text)])) := .array (hdone.lastArgument he)
      simpa using Reads.operator hrest harray (by decide)

theorem Opened.nextArgument {f : Node} {done : List Node}
    (hopened : Opened (.arguments f done :: pending) w) (he : Derives false (.expr 1 e) we) :
    Reads ⟨.operand, .arguments f (e :: done) :: pending⟩ (w ++ (we ++ [(.comma, text)])) := by
  cases hopened with
  | push hrest hframe =>
    cases hframe with
    | arguments hf hdone =>
      simpa using Reads.push hrest (.arguments hf (hdone.argument he)) .operand

theorem Opened.closeCall {f : Node} {done : List Node}
    (hopened : Opened (.arguments f done :: pending) w) (he : Derives false (.expr 1 e) we) :
    Reads ⟨.operator (.call f (e :: done).reverse), pending⟩ (w ++ (we ++ [(.rparen, text)])) := by
  cases hopened with
  | push hrest hframe =>
    cases hframe with
    | @arguments t _ _ wf ws hf hdone =>
      have hcall : Derives false (.expr 6 (.call f (e :: done).reverse))
          (wf ++ (.lparen, t) :: ((ws ++ we) ++ [(.rparen, text)])) :=
        .call hf (hdone.lastArgument he)
      simpa using Reads.operator hrest hcall (by decide)

theorem Opened.nextValue {done : List (Node × Node)} (hopened : Opened (.hashKey done :: pending) w)
    (he : Derives false (.expr 1 e) we) :
    Reads ⟨.operand, .hashValue done e :: pending⟩ (w ++ (we ++ [(.colon, text)])) := by
  cases hopened with
  | push hrest hframe =>
    cases hframe with
    | @hashKey t _ ws hdone =>
      have hframe : Frame (holeLevel pending) (.hashValue done e)
          ((.lbrace, t) :: (ws ++ (we ++ [(.colon, text)]))) := .hashValue hdone he
      simpa using Reads.push hrest hframe .operand

theorem Opened.nextKey {done : List (Node × Node)} {key : Node}
    (hopened : Opened (.hashValue done key :: pending) w) (he : Derives false (.expr 1 e) we) :
    Reads ⟨.operand, .hashKey ((key, e) :: done) :: pending⟩ (w ++ (we ++ [(.comma, text)])) := by
  cases hopened with
  | push hrest hframe =>
    cases hframe with
    | @hashValue t₁ t₂ _ _ ws wk hdone hkey =>
      have hmore : Series PairItem ((key, e) :: done)
          (ws ++ (wk ++ (.colon, t₂) :: (we ++ [(.comma, text)]))) :=
        .snoc hdone ⟨wk, we, t₂, text, rfl, hkey, he⟩
      simpa using Reads.push hrest (.hashKey hmore) .operand

theorem Opened.closeHash {done : List (Node × Node)} {key : Node}
    (hopened : Opened (.hashValue done key :: pending) w) (he : Derives false (.expr 1 e) we) :
    Reads ⟨.operator (.hash ((key, e) :: done).reverse), pending⟩
      (w ++ (we ++ [(.rbrace, text)])) := by
  cases hopened with
  | push hrest hframe =>
    cases hframe with
    | @hashValue t₁ t₂ _ _ ws wk hdone hkey =>
      have hpairs : Derives false (.pairs ((key, e) :: done).reverse)
          (ws ++ (wk ++ (.colon, t₂) :: we)) := by
        simpa using hdone.pairs (.pair hkey he)
      have hhash : Derives false (.expr 7 (.hash ((key, e) :: done).reverse))
          ((.lbrace, t₁) :: ((ws ++ (wk ++ (.colon, t₂) :: we)) ++ [(.rbrace, text)])) :=
        .hash (.entries hpairs)
      simpa using Reads.operator hrest hhash (by decide)

theorem of_ite_some {α : Type} {P : Prop} [Decidable P] {a b : α}
    (h : (if P then some a else none) = some b) : P ∧ a = b := by
  simpa using h

theorem stepExpressionEnd_sound (hopened : Opened pending w) (he : Derives false (.expr 1 e) we)
    (h : stepExpressionEnd e k text pending = some st) : Reads st (w ++ (we ++ [(k, text)])) := by
  unfold stepExpressionEnd at h
  split at h
  · obtain ⟨rfl, rfl⟩ := of_ite_some h
    exact hopened.closeParen he
  · obtain ⟨rfl, rfl⟩ := of_ite_some h
    exact hopened.closeCondition he
  · obtain ⟨rfl, rfl⟩ := of_ite_some h
    exact hopened.closePosition he
  · split at h
    · obtain rfl := Option.some.inj h
      exact hopened.nextElement he
    · obtain rfl := Option.some.inj h
      exact hopened.closeArray he
    · simp at h
  · split at h
    · obtain rfl := Option.some.inj h
      exact hopened.nextArgument he
    · obtain rfl := Option.some.inj h
      exact hopened.closeCall he
    · simp at h
  · obtain ⟨rfl, rfl⟩ := of_ite_some h
    exact hopened.nextValue he
  · split at h
    · obtain rfl := Option.some.inj h
      exact hopened.nextKey he
    · obtain rfl := Option.some.inj h
      exact hopened.closeHash he
    · simp at h
  · -- A statement ends, with its semicolon or with the next word.
    cases hopened with
    | push hstatements hframe =>
      split at h
      · simp at h
      · next s hs =>
        split at h
        · obtain rfl := Option.some.inj h
          subst k
          have hstatement := statement?_sound hframe he (.semicolon (t := text)) hs
          simpa using Reads.intro (hstatements.snoc hstatement) .statement
        · have hstatement := statement?_sound hframe he (.omitted rfl) hs
          have hread := stepStatement_sound (hstatements.snoc hstatement) h
          simpa using hread
  · simp at h

end

theorem stepOperator_sound {e : Node} {we : List Word} (hopened : Opened pending w)
    (he : Derives false (.expr 6 e) we) (h : stepOperator e k text pending = some st) :
    Reads st (w ++ (we ++ [(k, text)])) := by
  have hhole := holeLevel_le_five hopened
  unfold stepOperator at h
  split at h
  · obtain rfl := Option.some.inj h
    have hframe : Frame (holeLevel pending) (.arguments e []) (we ++ (.lparen, text) :: []) :=
      .arguments he .nil
    exact .push hopened hframe .firstItem
  · obtain rfl := Option.some.inj h
    exact .push hopened (.position he) .operand
  · split at h
    · next level hlevel =>
      have hop := level?_eq_some_iff.1 hlevel
      have hbounds := hop.bounds
      obtain rfl := Option.some.inj h
      obtain ⟨w', we', hw, hopened', he', hhole'⟩ :=
        reduce_sound hbounds.2 hopened he (by omega) (by omega)
      rw [Nat.max_eq_right hbounds.1] at he' hhole'
      rw [← List.append_assoc, hw, List.append_assoc]
      exact .push hopened' (.infixOp hhole' hop he') .operand
    · obtain ⟨w', we', hw, hopened', he', _⟩ :=
        reduce_sound (Nat.zero_le 4) hopened he (by omega) (by omega)
      rw [← List.append_assoc, hw, List.append_assoc]
      exact stepExpressionEnd_sound hopened' he' h

theorem stepFirstItem_sound (hopened : Opened pending w)
    (h : stepFirstItem k text pending = some st) : Reads st (w ++ [(k, text)]) := by
  unfold stepFirstItem at h
  split at h
  · obtain rfl := Option.some.inj h
    cases hopened with
    | push hrest hframe =>
      cases hframe with
      | @array t _ ws hdone =>
        cases hdone
        have harray : Derives false (.expr 7 (.array []))
            ((.lbracket, t) :: ([] ++ [(.rbracket, text)])) := .array .noList
        simpa using Reads.operator hrest harray (by decide)
  · rename_i f rest
    obtain rfl := Option.some.inj h
    cases hopened with
    | push hrest hframe =>
      cases hframe with
      | @arguments t _ _ wf ws hf hdone =>
        cases hdone
        have hcall : Derives false (.expr 6 (.call f []))
            (wf ++ (.lparen, t) :: ([] ++ [(.rparen, text)])) := .call hf .noList
        simpa using Reads.operator hrest hcall (by decide)
  · obtain rfl := Option.some.inj h
    cases hopened with
    | push hrest hframe =>
      cases hframe with
      | @hashKey t _ ws hdone =>
        cases hdone
        have hhash : Derives false (.expr 7 (.hash []))
            ((.lbrace, t) :: ([] ++ [(.rbrace, text)])) := .hash .noEntries
        simpa using Reads.operator hrest hhash (by decide)
  · exact beginOperand_sound hopened h

/-- One token more is accounted for. -/
theorem step_sound {ws : List Word} (hread : Reads st ws) {st' : State}
    (h : step st k text = some st') : Reads st' (ws ++ [(k, text)]) := by
  obtain ⟨expect, pending⟩ := st
  obtain ⟨w, v, rfl, hopened, hbegun⟩ := hread
  rw [List.append_assoc]
  cases hbegun with
  | statement => exact stepStatement_sound hopened h
  | operand => exact beginOperand_sound hopened h
  | firstItem => exact stepFirstItem_sound hopened h
  | operator he => exact stepOperator_sound hopened he h
  | letName =>
    obtain ⟨rfl, rfl⟩ := of_ite_some h
    exact .intro hopened .letSign
  | letSign =>
    obtain ⟨rfl, rfl⟩ := of_ite_some h
    exact .push hopened .letValue .operand
  | ifOpen =>
    obtain ⟨rfl, rfl⟩ := of_ite_some h
    exact .push hopened .condition .operand
  | @blockOpen owner _ hheading =>
    obtain ⟨rfl, rfl⟩ := of_ite_some h
    have hframe : Frame (holeLevel pending) (.statements owner []) (v ++ (.lbrace, text) :: []) :=
      .statements hheading .nil
    exact .push hopened hframe .statement
  | @ifEnd t₁ t₂ t₃ c t wc wt hc ht =>
    simp only [step] at h
    split at h
    · subst k
      obtain rfl := Option.some.inj h
      have hheading : Heading (.alternative c t) ((.kwIf, t₁) :: (.lparen, t₂) ::
          (wc ++ (.rparen, t₃) :: (wt ++ [(.kwElse, text)]))) := .alternative hc ht
      simpa using Reads.intro hopened (.blockOpen hheading)
    · exact stepOperator_sound hopened (Begun.ifEnd hc ht).ifExpr h
  | paramsOpen =>
    obtain ⟨rfl, rfl⟩ := of_ite_some h
    exact .intro hopened .paramFirst
  | @paramFirst t₁ t₂ form =>
    simp only [step] at h
    split at h
    · obtain rfl := Option.some.inj h
      exact .intro hopened (.paramSign .nil)
    · obtain rfl := Option.some.inj h
      have hheading : Heading (.body form []) ((form.keyword, t₁) :: (.lparen, t₂) ::
          ([] ++ [(.rparen, text)])) := .body .noNames
      exact .intro hopened (.blockOpen hheading)
    · simp at h
  | @paramSign t₁ t₂ name form done ws hdone =>
    simp only [step] at h
    split at h
    · obtain rfl := Option.some.inj h
      have hmore : Series ParamItem (name :: done) (ws ++ [(.ident, name), (.comma, text)]) :=
        .snoc hdone ⟨text, rfl⟩
      have hbegun : Begun (.paramName form (name :: done)) ((form.keyword, t₁) :: (.lparen, t₂) ::
          (ws ++ [(.ident, name), (.comma, text)])) := .paramName hmore
      simpa using Reads.intro hopened hbegun
    · obtain rfl := Option.some.inj h
      have hnames : Derives false (.params (name :: done).reverse) (ws ++ [(.ident, name)]) := by
        simpa using hdone.params .param
      have hheading : Heading (.body form (name :: done).reverse) ((form.keyword, t₁) ::
          (.lparen, t₂) :: ((ws ++ [(.ident, name)]) ++ [(.rparen, text)])) :=
        .body (.names hnames)
      simpa using Reads.intro hopened (.blockOpen hheading)
    · simp at h
  | @paramName t₁ t₂ form done ws hdone =>
    obtain ⟨rfl, rfl⟩ := of_ite_some h
    have hbegun : Begun (.paramSign form (text :: done)) ((form.keyword, t₁) :: (.lparen, t₂) ::
        (ws ++ [(.ident, text)])) := .paramSign hdone
    exact .intro hopened hbegun

/-- All tokens are accounted for. -/
theorem steps_sound {tokens : List Token} {ws : List Word} (hread : Reads st ws) {st' : State}
    (h : steps st tokens = .ok st') : Reads st' (ws ++ tokens.map Token.word) := by
  induction tokens generalizing st ws with
  | nil =>
    obtain rfl := Except.ok.inj h
    simpa using hread
  | cons t tokens ih =>
    rw [steps_cons] at h
    split at h
    · next st₁ hstep =>
      have hall := ih (step_sound hread hstep) h
      simpa [Token.word] using hall
    · simp at h

/-! ## The end -/

theorem Opened.program {done : List Node} (h : Opened [.statements .program done] ws) :
    Derives false (.program (.program done.reverse)) ws := by
  cases h with
  | bottom hdone => exact .program hdone.statements
  | push hrest _ => cases hrest

theorem finishExpression_sound {e p : Node} {we : List Word} (hopened : Opened pending w)
    (he : Derives false (.expr 6 e) we) (h : finishExpression e pending = some p) :
    Derives false (.program p) (w ++ we) := by
  have hhole := holeLevel_le_five hopened
  obtain ⟨w', we', hw, hopened', he', _⟩ :=
    reduce_sound (Nat.zero_le 4) hopened he (by omega) (by omega)
  rw [hw]
  unfold finishExpression at h
  split at h
  · next e' last done heq =>
    rw [heq] at hopened' he'
    obtain ⟨s, hs, rfl⟩ := Option.map_eq_some_iff.1 h
    cases hopened' with
    | push hstatements hframe =>
      have hstatement := statement?_sound hframe he' (.omitted rfl) hs
      simpa using (hstatements.snoc hstatement).program
  · simp at h

/-- Where a program may end, the words read make the program. -/
theorem finish_sound {p : Node} (hread : Reads st ws) (h : finish st = some p) :
    Derives false (.program p) ws := by
  obtain ⟨expect, pending⟩ := st
  obtain ⟨w, v, rfl, hopened, hbegun⟩ := hread
  unfold finish at h
  split at h
  · next done hexpect hpending =>
    obtain rfl := Option.some.inj h
    obtain rfl : expect = .statement := hexpect
    obtain rfl : pending = [.statements .program done] := hpending
    cases hbegun
    simpa using hopened.program
  · next e hexpect =>
    obtain rfl : expect = .operator e := hexpect
    cases hbegun with
    | operator he => exact finishExpression_sound hopened he h
  · next c t hexpect =>
    obtain rfl : expect = .ifEnd c t := hexpect
    exact finishExpression_sound hopened hbegun.ifExpr h
  · simp at h

end Parser

/-- The tree of a text is one that the grammar makes of its words. -/
theorem Source.parse_sound {source : String} {p : Node} (h : parse source = .ok p) :
    ∃ ws, Lexes source ws ∧ Derives false (.program p) ws := by
  obtain ⟨hstop, st, hsteps, hfinish⟩ := parseGrammar_eq_ok.1 (parse_eq_ok.1 h).1
  have hstart : Parser.Reads .initial [] := ⟨[], [], rfl, .bottom .nil, .statement⟩
  have hread := Parser.steps_sound hstart hsteps
  exact ⟨_, ⟨hstop, rfl⟩, Parser.finish_sound hread hfinish⟩

/-- The trees of texts are well sorted. -/
theorem Source.parse_wellSorted {source : String} {p : Node} (h : parse source = .ok p) :
    p.WellSorted := by
  obtain ⟨ws, _, hderives⟩ := parse_sound h
  exact hderives.sorted

theorem Source.parse_eq_program {source : String} {p : Node} (h : parse source = .ok p) :
    ∃ ss, p = .program ss := by
  obtain ⟨ws, _, hderives⟩ := parse_sound h
  cases hderives with
  | program hstatements => exact ⟨_, rfl⟩

end Monkey
