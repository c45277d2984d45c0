import Monkey.Proofs.ParserSound

/-!
# Completeness of the parser

The parser reads every phrase of the grammar whose statements all end in
semicolons, and builds the tree that the grammar makes of it. `Completes` says
for each kind of phrase what reading it does to the state, whatever constructs
are open around it; there is one lemma for each production.

When an expression has been read, operators inside it may still be open, and
the operators in front of it too: only the next word tells where its operand
ends. So reading an expression of a level is said to be complete when closing
all operators down to any level at or below it has the same result as if the
expression had been a single operand.

## Main results

* `Completes.of_derives` — the parser reads what the grammar derives.
* `Derives.program_unique` — with all semicolons, the grammar is not ambiguous.
* `Source.parse_complete` — texts of such words are parsed.
* `Source.parse_implements_grammar` — the parser implements the grammar.
-/

namespace Monkey

namespace Parser

/-! ## Reading words -/

/-- Takes a list of words; none if one of them is refused. -/
def read (st : State) (ws : List Word) : Option State :=
  ws.foldlM (fun st w => step st w.1 w.2) st

@[simp] theorem read_nil (st : State) : read st [] = some st := rfl

@[simp] theorem read_cons (st : State) (w : Word) (ws : List Word) :
    read st (w :: ws) = (step st w.1 w.2).bind (read · ws) := rfl

theorem read_append (st : State) (ws ws' : List Word) :
    read st (ws ++ ws') = (read st ws).bind (read · ws') :=
  List.foldlM_append

theorem steps_of_read {st st' : State} {tokens : List Token}
    (h : read st (tokens.map Token.word) = some st') : steps st tokens = .ok st' := by
  induction tokens generalizing st with
  | nil => exact congrArg Except.ok (Option.some.inj h)
  | cons t tokens ih =>
    obtain ⟨st₁, hstep, hrest⟩ := Option.bind_eq_some_iff.1 h
    have hkind : step st t.kind t.text = some st₁ := hstep
    rw [steps_cons, hkind]
    exact ih hrest

variable {k : TokenKind} {text : String} {pending : List Pending} {st : State} {ws : List Word}

/-- A state that takes every first word as another one does reads the same words. -/
theorem read_of_step {st₁ st₂ : State}
    (hstep : ∀ {k text st'}, step st₁ k text = some st' → step st₂ k text = some st')
    (h : read st₁ ws = some st) (hne : ws ≠ []) : read st₂ ws = some st := by
  cases ws with
  | nil => exact absurd rfl hne
  | cons w ws =>
    obtain ⟨st', hfirst, hrest⟩ := Option.bind_eq_some_iff.1 h
    exact Option.bind_eq_some_iff.2 ⟨st', hstep hfirst, hrest⟩

/-- What begins an expression does so directly behind a bracket too. -/
theorem read_firstItem (h : read ⟨.operand, pending⟩ ws = some st) (hne : ws ≠ []) :
    read ⟨.firstItem, pending⟩ ws = some st := by
  refine read_of_step ?_ h hne
  intro k text st' hstep
  have hbegin : beginOperand k text pending = some st' := hstep
  show stepFirstItem k text pending = some st'
  cases k <;> simp_all [stepFirstItem, beginOperand]

/-- What begins an expression begins an expression statement where a statement may begin. -/
theorem read_statement (h : read ⟨.operand, .exprStatement :: pending⟩ ws = some st)
    (hne : ws ≠ []) : read ⟨.statement, pending⟩ ws = some st := by
  refine read_of_step ?_ h hne
  intro k text st' hstep
  have hbegin : beginOperand k text (.exprStatement :: pending) = some st' := hstep
  show stepStatement k text pending = some st'
  cases k <;> simp_all [stepStatement, beginOperand]

/-- The first parameter is read like every other. -/
theorem read_paramFirst {form : Form} (h : read ⟨.paramName form [], pending⟩ ws = some st)
    (hne : ws ≠ []) : read ⟨.paramFirst form, pending⟩ ws = some st := by
  refine read_of_step ?_ h hne
  intro k text st' hstep
  have hname : k = .ident ∧ (⟨.paramSign form [text], pending⟩ : State) = st' := by
    simpa [step] using hstep
  obtain ⟨rfl, rfl⟩ := hname
  rfl

/-! ## Behind an operand -/

/-- A state behind the operand `e`, with the open constructs `pending` around it. -/
inductive Ready : State → Node → List Pending → Prop where
  | operator {e : Node} {pending : List Pending} : Ready ⟨.operator e, pending⟩ e pending
  | ifEnd {c : Node} {t : List Node} {pending : List Pending} :
    Ready ⟨.ifEnd c t, pending⟩ (.ifExpr c t none) pending

theorem Ready.step {e : Node} (h : Ready st e pending) (hk : k ≠ .kwElse) :
    step st k text = stepOperator e k text pending := by
  cases h with
  | operator => rfl
  | ifEnd => exact if_neg hk

/-- The kinds of words that end an expression with all its operators. -/
def endsExpression : TokenKind → Bool
  | .rparen | .rbracket | .rbrace | .comma | .colon | .semicolon => true
  | _ => false

theorem stepOperator_end {e : Node} (hk : endsExpression k = true) :
    stepOperator e k text pending =
      stepExpressionEnd (reduce 0 e pending).1 k text (reduce 0 e pending).2 := by
  cases k <;> first | rfl | simp [endsExpression] at hk

/-- Whether an open construct is an operator that waits for its last operand. -/
def Pending.isOperator : Pending → Bool
  | prefixOp _ | infixOp .. => true
  | _ => false

theorem reduce_of_not_isOperator {p : Pending} (hp : p.isOperator = false) (level : Nat)
    (e : Node) : reduce level e (p :: pending) = (e, p :: pending) := by
  cases p <;> first | rfl | simp [Pending.isOperator] at hp

theorem holeLevel_of_not_isOperator {p : Pending} (hp : p.isOperator = false) :
    holeLevel (p :: pending) = 1 := by
  cases p <;> first | rfl | simp [Pending.isOperator] at hp

/-- Operators that bind less tightly than a level stay open. -/
theorem reduce_of_holeLevel_le {level : Nat} (hhole : holeLevel pending ≤ level)
    (hlevel : level ≤ 4) (e : Node) : reduce level e pending = (e, pending) := by
  unfold reduce
  split
  · have hle : 5 ≤ level := hhole
    omega
  · have hlt : _ + 1 ≤ level := hhole
    exact if_neg (by omega)
  · rfl

/-! ## What reading a phrase does -/

/-- The two constructs that list expressions in brackets. -/
inductive Listing where
  | array
  | call (f : Node)

namespace Listing

/-- The open construct, with the elements that are there already. -/
def frame : Listing → List Node → Pending
  | array => .array
  | call f => .arguments f

theorem frame_isOperator (listing : Listing) (done : List Node) :
    (listing.frame done).isOperator = false := by
  cases listing <;> rfl

/-- The bracket at its end. -/
def close : Listing → TokenKind
  | array => .rbracket
  | call _ => .rparen

/-- The tree of its elements. -/
def tree : Listing → List Node → Node
  | array => .array
  | call f => .call f

end Listing

/-- What reading the words of a phrase does to the state of the parser. -/
def Completes : Phrase → List Word → Prop
  | .program p, ws => ∃ st, read .initial ws = some st ∧ finish st = some p
  | .statements ss, ws => ∀ owner done pending,
      read ⟨.statement, .statements owner done :: pending⟩ ws =
        some ⟨.statement, .statements owner (ss.reverse ++ done) :: pending⟩
  | .statement s, ws => ∀ owner done pending,
      read ⟨.statement, .statements owner done :: pending⟩ ws =
        some ⟨.statement, .statements owner (s :: done) :: pending⟩
  | .block ss, ws => ∀ owner pending,
      read ⟨.blockOpen owner, pending⟩ ws = closeBlock owner ss.reverse pending
  | .expr level e, ws => ∀ pending, holeLevel pending ≤ level →
      ∃ st operand inner, read ⟨.operand, pending⟩ ws = some st ∧ Ready st operand inner ∧
        (∀ l ≤ level, reduce l operand inner = reduce l e pending) ∧
        (6 ≤ level → operand = e ∧ inner = pending)
  | .args es, ws => ∀ (listing : Listing) done pending text,
      read ⟨.operand, listing.frame done :: pending⟩ (ws ++ [(listing.close, text)]) =
        some ⟨.operator (listing.tree (done.reverse ++ es)), pending⟩
  | .list es, ws => ∀ (listing : Listing) pending text,
      read ⟨.firstItem, listing.frame [] :: pending⟩ (ws ++ [(listing.close, text)]) =
        some ⟨.operator (listing.tree es), pending⟩
  | .pairs ps, ws => ∀ done pending text,
      read ⟨.operand, .hashKey done :: pending⟩ (ws ++ [(.rbrace, text)]) =
        some ⟨.operator (.hash (done.reverse ++ ps)), pending⟩
  | .entries ps, ws => ∀ pending text,
      read ⟨.firstItem, .hashKey [] :: pending⟩ (ws ++ [(.rbrace, text)]) =
        some ⟨.operator (.hash ps), pending⟩
  | .params names, ws => ∀ form done pending text,
      read ⟨.paramName form done, pending⟩ (ws ++ [(.rparen, text)]) =
        some ⟨.blockOpen (.body form (done.reverse ++ names)), pending⟩
  | .names names, ws => ∀ form pending text,
      read ⟨.paramFirst form, pending⟩ (ws ++ [(.rparen, text)]) =
        some ⟨.blockOpen (.body form names), pending⟩

theorem stepOperator_infix {level : Nat} {e : Node} (hop : Infix k level) :
    stepOperator e k text pending =
      some ⟨.operand, .infixOp (reduce level e pending).1 text level ::
        (reduce level e pending).2⟩ := by
  cases hop <;> rfl

namespace Completes

/-! ### Expressions -/

variable {e : Node} {we : List Word} {t₁ t₂ t₃ t₄ : String}

/-- A whole expression behind an open construct, with the word that ends it. -/
theorem readEnd {p : Pending} (h : Completes (.expr 1 e) we) (hp : p.isOperator = false)
    (hk : endsExpression k = true) :
    read ⟨.operand, p :: pending⟩ (we ++ (k, text) :: ws) =
      (stepExpressionEnd e k text (p :: pending)).bind (read · ws) := by
  have hhole : holeLevel (p :: pending) ≤ 1 := Nat.le_of_eq (holeLevel_of_not_isOperator hp)
  obtain ⟨st, operand, inner, hread, hready, hreduce, _⟩ := h (p :: pending) hhole
  have helse : k ≠ .kwElse := by
    rintro rfl
    exact absurd hk (by decide)
  have hstep : step st k text = stepExpressionEnd e k text (p :: pending) := by
    rw [hready.step helse, stepOperator_end hk, hreduce 0 (by decide),
      reduce_of_not_isOperator hp]
  rw [read_append, hread, Option.bind_some, read_cons, hstep]

/-- What is read as one operand is an expression of every level. -/
theorem operand {level : Nat}
    (h : ∀ pending, ∃ st, read ⟨.operand, pending⟩ ws = some st ∧ Ready st e pending) :
    Completes (.expr level e) ws := by
  intro pending _
  obtain ⟨st, hread, hready⟩ := h pending
  exact ⟨st, e, pending, hread, hready, fun _ _ => rfl, fun _ => ⟨rfl, rfl⟩⟩

/-- An expression that binds tighter than all operators is read as one operand. -/
theorem ready (h : Completes (.expr 6 e) we) (hhole : holeLevel pending ≤ 6) :
    ∃ st, read ⟨.operand, pending⟩ we = some st ∧ Ready st e pending := by
  obtain ⟨st, operand, inner, hread, hready, _, hself⟩ := h pending hhole
  obtain ⟨rfl, rfl⟩ := hself (Nat.le_refl 6)
  exact ⟨st, hread, hready⟩

theorem tighter {level : Nat} (h : Completes (.expr (level + 1) e) we) :
    Completes (.expr level e) we := by
  intro pending hhole
  obtain ⟨st, operand, inner, hread, hready, hreduce, hself⟩ := h pending (by omega)
  have hreduce' : ∀ l ≤ level, reduce l operand inner = reduce l e pending :=
    fun l hl => hreduce l (by omega)
  exact ⟨st, operand, inner, hread, hready, hreduce', fun hsix => hself (by omega)⟩

theorem lower {level level' : Nat} (h : Completes (.expr level e) we) (hle : level' ≤ level) :
    Completes (.expr level' e) we := by
  induction hle with
  | refl => exact h
  | step _ ih => exact ih h.tighter

theorem infixOp {level : Nat} {l r : Node} {wl wr : List Word} (hop : Infix k level)
    (hl : Completes (.expr level l) wl) (hr : Completes (.expr (level + 1) r) wr) :
    Completes (.expr level (.infixOp l text r)) (wl ++ (k, text) :: wr) := by
  intro pending hhole
  have hbounds := hop.bounds
  have helse : k ≠ .kwElse := by
    rintro rfl
    cases hop
  obtain ⟨st, operand, inner, hread, hready, hreduce, _⟩ := hl pending hhole
  have hstep : step st k text = some ⟨.operand, .infixOp l text level :: pending⟩ := by
    rw [hready.step helse, stepOperator_infix hop, hreduce level (Nat.le_refl level),
      reduce_of_holeLevel_le hhole hbounds.2]
  obtain ⟨st', operand', inner', hread', hready', hreduce', _⟩ :=
    hr (.infixOp l text level :: pending) (Nat.le_refl _)
  refine ⟨st', operand', inner', ?_, hready', ?_, fun hsix => by omega⟩
  · rw [read_append, hread, Option.bind_some, read_cons, hstep]
    exact hread'
  · intro level' hle
    rw [hreduce' level' (by omega)]
    exact if_pos hle

theorem prefixOp {r : Node} {wr : List Word} (hk : k = .bang ∨ k = .minus)
    (hr : Completes (.expr 5 r) wr) :
    Completes (.expr 5 (.prefixOp text r)) ((k, text) :: wr) := by
  intro pending _
  obtain ⟨st, operand, inner, hread, hready, hreduce, _⟩ :=
    hr (.prefixOp text :: pending) (Nat.le_refl 5)
  have hstep : step ⟨.operand, pending⟩ k text = some ⟨.operand, .prefixOp text :: pending⟩ := by
    rcases hk with rfl | rfl <;> rfl
  refine ⟨st, operand, inner, ?_, hready, ?_, fun hsix => by omega⟩
  · rw [read_cons, hstep]
    exact hread
  · intro level hle
    rw [hreduce level hle]
    rfl

theorem call {f : Node} {es : List Node} {wf ws : List Word} (hf : Completes (.expr 6 f) wf)
    (hs : Completes (.list es) ws) :
    Completes (.expr 6 (.call f es)) (wf ++ (.lparen, t₁) :: (ws ++ [(.rparen, t₂)])) := by
  intro pending hhole
  obtain ⟨st, hread, hready⟩ := hf.ready hhole
  have hstep : step st .lparen t₁ = some ⟨.firstItem, .arguments f [] :: pending⟩ :=
    hready.step (by decide)
  refine ⟨⟨.operator (.call f es), pending⟩, .call f es, pending, ?_, .operator,
    fun _ _ => rfl, fun _ => ⟨rfl, rfl⟩⟩
  rw [read_append, hread, Option.bind_some, read_cons, hstep]
  exact hs (.call f) pending t₂

theorem index {l i : Node} {wl wi : List Word} (hl : Completes (.expr 6 l) wl)
    (hi : Completes (.expr 1 i) wi) :
    Completes (.expr 6 (.index l i)) (wl ++ (.lbracket, t₁) :: (wi ++ [(.rbracket, t₂)])) := by
  intro pending hhole
  obtain ⟨st, hread, hready⟩ := hl.ready hhole
  have hstep : step st .lbracket t₁ = some ⟨.operand, .position l :: pending⟩ :=
    hready.step (by decide)
  refine ⟨⟨.operator (.index l i), pending⟩, .index l i, pending, ?_, .operator,
    fun _ _ => rfl, fun _ => ⟨rfl, rfl⟩⟩
  rw [read_append, hread, Option.bind_some, read_cons, hstep]
  exact hi.readEnd rfl rfl

/-- An expression of one word. -/
theorem word {level : Nat}
    (h : ∀ pending, beginOperand k text pending = some ⟨.operator e, pending⟩) :
    Completes (.expr level e) [(k, text)] := by
  refine operand fun pending => ⟨⟨.operator e, pending⟩, ?_, .operator⟩
  have hstep : step ⟨.operand, pending⟩ k text = some ⟨.operator e, pending⟩ := h pending
  rw [read_cons, hstep]
  rfl

theorem paren (he : Completes (.expr 1 e) we) :
    Completes (.expr 7 e) ((.lparen, t₁) :: (we ++ [(.rparen, t₂)])) := by
  refine operand fun pending => ⟨⟨.operator e, pending⟩, ?_, .operator⟩
  show read ⟨.operand, .paren :: pending⟩ (we ++ [(.rparen, t₂)]) = _
  exact he.readEnd rfl rfl

theorem array {es : List Node} (hs : Completes (.list es) ws) :
    Completes (.expr 7 (.array es)) ((.lbracket, t₁) :: (ws ++ [(.rbracket, t₂)])) :=
  operand fun pending => ⟨⟨.operator (.array es), pending⟩, hs .array pending t₂, .operator⟩

theorem hash {ps : List (Node × Node)} (hs : Completes (.entries ps) ws) :
    Completes (.expr 7 (.hash ps)) ((.lbrace, t₁) :: (ws ++ [(.rbrace, t₂)])) :=
  operand fun pending => ⟨⟨.operator (.hash ps), pending⟩, hs pending t₂, .operator⟩

/-- The words of an `if` up to the end of its first block. -/
theorem readIf {c : Node} {t : List Node} {wc wt : List Word} (hc : Completes (.expr 1 c) wc)
    (ht : Completes (.block t) wt) (pending : List Pending) :
    read ⟨.operand, pending⟩
        ((.kwIf, t₁) :: (.lparen, t₂) :: (wc ++ (.rparen, t₃) :: wt)) =
      some ⟨.ifEnd c t, pending⟩ := by
  show read ⟨.operand, .condition :: pending⟩ (wc ++ (.rparen, t₃) :: wt) = _
  rw [hc.readEnd rfl rfl]
  show read ⟨.blockOpen (.consequence c), pending⟩ wt = _
  rw [ht (.consequence c) pending]
  simp [closeBlock]

theorem ifExpr {c : Node} {t : List Node} {wc wt : List Word} (hc : Completes (.expr 1 c) wc)
    (ht : Completes (.block t) wt) :
    Completes (.expr 7 (.ifExpr c t none))
      ((.kwIf, t₁) :: (.lparen, t₂) :: (wc ++ (.rparen, t₃) :: wt)) :=
  operand fun pending => ⟨⟨.ifEnd c t, pending⟩, hc.readIf ht pending, .ifEnd⟩

theorem ifElse {c : Node} {t e : List Node} {wc wt we : List Word} (hc : Completes (.expr 1 c) wc)
    (ht : Completes (.block t) wt) (he : Completes (.block e) we) :
    Completes (.expr 7 (.ifExpr c t (some e)))
      ((.kwIf, t₁) :: (.lparen, t₂) :: (wc ++ (.rparen, t₃) :: (wt ++ (.kwElse, t₄) :: we))) := by
  refine operand fun pending => ⟨⟨.operator (.ifExpr c t (some e)), pending⟩, ?_, .operator⟩
  have hsplit : (TokenKind.kwIf, t₁) :: (.lparen, t₂) ::
        (wc ++ (.rparen, t₃) :: (wt ++ (.kwElse, t₄) :: we)) =
      ((.kwIf, t₁) :: (.lparen, t₂) :: (wc ++ (.rparen, t₃) :: wt)) ++ (.kwElse, t₄) :: we := by
    simp
  rw [hsplit, read_append, hc.readIf ht pending]
  show read ⟨.blockOpen (.alternative c t), pending⟩ we = _
  rw [he (.alternative c t) pending]
  simp [closeBlock]

theorem literal {form : Form} {names : List String} {body : List Node} {wn wb : List Word}
    (hn : Completes (.names names) wn) (hb : Completes (.block body) wb) :
    Completes (.expr 7 (form.literal names body))
      ((form.keyword, t₁) :: (.lparen, t₂) :: (wn ++ (.rparen, t₃) :: wb)) := by
  refine operand fun pending => ⟨⟨.operator (form.literal names body), pending⟩, ?_, .operator⟩
  have hbegin : read ⟨.operand, pending⟩ [(form.keyword, t₁), (.lparen, t₂)] =
      some ⟨.paramFirst form, pending⟩ := by
    cases form <;> rfl
  have hsplit : (form.keyword, t₁) :: (.lparen, t₂) :: (wn ++ (.rparen, t₃) :: wb) =
      [(form.keyword, t₁), (.lparen, t₂)] ++ ((wn ++ [(.rparen, t₃)]) ++ wb) := by
    simp
  rw [hsplit, read_append, hbegin, Option.bind_some, read_append, hn form pending t₃,
    Option.bind_some, hb (.body form names) pending]
  simp [closeBlock]

/-! ### Lists -/

theorem arg (he : Completes (.expr 1 e) we) : Completes (.args [e]) we := by
  intro listing done pending text
  have hstep : stepExpressionEnd e listing.close text (listing.frame done :: pending) =
      some ⟨.operator (listing.tree (e :: done).reverse), pending⟩ := by
    cases listing <;> rfl
  have hends : endsExpression listing.close = true := by
    cases listing <;> rfl
  rw [he.readEnd (listing.frame_isOperator done) hends, hstep]
  simp

theorem args {es : List Node} (he : Completes (.expr 1 e) we) (hs : Completes (.args es) ws) :
    Completes (.args (e :: es)) (we ++ (.comma, t₁) :: ws) := by
  intro listing done pending text
  have hmore := hs listing (e :: done) pending text
  have hstep : stepExpressionEnd e .comma t₁ (listing.frame done :: pending) =
      some ⟨.operand, listing.frame (e :: done) :: pending⟩ := by
    cases listing <;> rfl
  rw [List.append_assoc, List.cons_append, he.readEnd (listing.frame_isOperator done) rfl, hstep,
    Option.bind_some, hmore]
  simp

theorem noList : Completes (.list []) [] := by
  intro listing pending text
  cases listing <;> rfl

theorem list {es : List Node} (hs : Completes (.args es) ws) : Completes (.list es) ws := by
  intro listing pending text
  exact read_firstItem (hs listing [] pending text) (by simp)

theorem pair {key value : Node} {wk wv : List Word} (hk : Completes (.expr 1 key) wk)
    (hv : Completes (.expr 1 value) wv) :
    Completes (.pairs [(key, value)]) (wk ++ (.colon, t₁) :: wv) := by
  intro done pending text
  have hvalue : read ⟨.operand, .hashValue done key :: pending⟩ (wv ++ [(.rbrace, text)]) =
      some ⟨.operator (.hash ((key, value) :: done).reverse), pending⟩ := hv.readEnd rfl rfl
  rw [List.append_assoc, List.cons_append, hk.readEnd rfl rfl]
  show read ⟨.operand, .hashValue done key :: pending⟩ _ = _
  rw [hvalue]
  simp

theorem pairs {key value : Node} {ps : List (Node × Node)} {wk wv : List Word}
    (hk : Completes (.expr 1 key) wk) (hv : Completes (.expr 1 value) wv)
    (hps : Completes (.pairs ps) ws) :
    Completes (.pairs ((key, value) :: ps)) (wk ++ (.colon, t₁) :: (wv ++ (.comma, t₂) :: ws)) := by
  intro done pending text
  have hmore := hps ((key, value) :: done) pending text
  have hvalue : read ⟨.operand, .hashValue done key :: pending⟩
      (wv ++ (.comma, t₂) :: (ws ++ [(.rbrace, text)])) =
      read ⟨.operand, .hashKey ((key, value) :: done) :: pending⟩ (ws ++ [(.rbrace, text)]) :=
    hv.readEnd rfl rfl
  have hsplit : wk ++ (.colon, t₁) :: (wv ++ (.comma, t₂) :: ws) ++ [(.rbrace, text)] =
      wk ++ (.colon, t₁) :: (wv ++ (.comma, t₂) :: (ws ++ [(.rbrace, text)])) := by
    simp
  rw [hsplit, hk.readEnd rfl rfl]
  show read ⟨.operand, .hashValue done key :: pending⟩ _ = _
  rw [hvalue, hmore]
  simp

theorem noEntries : Completes (.entries []) [] := fun _ _ => rfl

theorem entries {ps : List (Node × Node)} (hps : Completes (.pairs ps) ws) :
    Completes (.entries ps) ws := by
  intro pending text
  exact read_firstItem (hps [] pending text) (by simp)

theorem param {name : String} : Completes (.params [name]) [(.ident, name)] := by
  intro form done pending text
  show some (⟨.blockOpen (.body form (name :: done).reverse), pending⟩ : State) = _
  simp

theorem params {name : String} {names : List String} (hn : Completes (.params names) ws) :
    Completes (.params (name :: names)) ((.ident, name) :: (.comma, t₁) :: ws) := by
  intro form done pending text
  have hmore := hn form (name :: done) pending text
  show read ⟨.paramName form (name :: done), pending⟩ (ws ++ [(.rparen, text)]) = _
  rw [hmore]
  simp

theorem noNames : Completes (.names []) [] := fun _ _ _ => rfl

theorem names {names : List String} (hn : Completes (.params names) ws) :
    Completes (.names names) ws := by
  intro form pending text
  exact read_paramFirst (hn form [] pending text) (by simp)

/-! ### Statements -/

theorem letStmt {name : String} (he : Completes (.expr 1 e) we) :
    Completes (.statement (.letStmt name e))
      ((.kwLet, t₁) :: (.ident, name) :: (.assign, t₂) :: (we ++ [(.semicolon, t₃)])) := by
  intro owner done pending
  show read ⟨.operand, .letValue name :: .statements owner done :: pending⟩ _ = _
  exact he.readEnd rfl rfl

theorem returnStmt (he : Completes (.expr 1 e) we) :
    Completes (.statement (.returnStmt e)) ((.kwReturn, t₁) :: (we ++ [(.semicolon, t₂)])) := by
  intro owner done pending
  show read ⟨.operand, .returnValue :: .statements owner done :: pending⟩ _ = _
  exact he.readEnd rfl rfl

theorem exprStmt (he : Completes (.expr 1 e) we) :
    Completes (.statement (.exprStmt e)) (we ++ [(.semicolon, t₁)]) := by
  intro owner done pending
  have hread : read ⟨.operand, .exprStatement :: .statements owner done :: pending⟩
      (we ++ [(.semicolon, t₁)]) =
      some ⟨.statement, .statements owner (.exprStmt e :: done) :: pending⟩ := he.readEnd rfl rfl
  exact read_statement hread (by simp)

theorem noStatements : Completes (.statements []) [] := fun _ _ _ => rfl

theorem statements {s : Node} {ss : List Node} {w ws : List Word} (hs : Completes (.statement s) w)
    (hss : Completes (.statements ss) ws) : Completes (.statements (s :: ss)) (w ++ ws) := by
  intro owner done pending
  have hmore := hss owner (s :: done) pending
  rw [read_append, hs owner done pending, Option.bind_some, hmore]
  simp

theorem block {ss : List Node} (hss : Completes (.statements ss) ws) :
    Completes (.block ss) ((.lbrace, t₁) :: (ws ++ [(.rbrace, t₂)])) := by
  intro owner pending
  have hread := hss owner [] pending
  show read ⟨.statement, .statements owner [] :: pending⟩ (ws ++ [(.rbrace, t₂)]) = _
  rw [read_append, hread, Option.bind_some, List.append_nil]
  show (closeBlock owner ss.reverse pending).bind some = _
  simp

theorem program {ss : List Node} (hss : Completes (.statements ss) ws) :
    Completes (.program (.program ss)) ws := by
  have hread := hss .program [] []
  refine ⟨_, hread, ?_⟩
  simp [finish]

/-- The parser reads what the grammar derives with all semicolons. -/
theorem of_derives {p : Phrase} {ws : List Word} (h : Derives true p ws) : Completes p ws := by
  have hterminator : ∀ {wt : List Word}, Terminator true wt → ∃ t, wt = [(.semicolon, t)] := by
    rintro wt (_ | hstrict)
    · exact ⟨_, rfl⟩
    · cases hstrict
  induction h with
  | program _ ih => exact program ih
  | noStatements => exact noStatements
  | statements _ _ ihs ihss => exact statements ihs ihss
  | letStmt _ ht ih =>
    obtain ⟨t, rfl⟩ := hterminator ht
    exact letStmt ih
  | returnStmt _ ht ih =>
    obtain ⟨t, rfl⟩ := hterminator ht
    exact returnStmt ih
  | exprStmt _ ht ih =>
    obtain ⟨t, rfl⟩ := hterminator ht
    exact exprStmt ih
  | block _ ih => exact block ih
  | tighter _ _ ih => exact tighter ih
  | infixOp hop _ _ ihl ihr => exact infixOp hop ihl ihr
  | prefixOp hk _ ih => exact prefixOp hk ih
  | call _ _ ihf ihs => exact call ihf ihs
  | index _ _ ihl ihi => exact index ihl ihi
  | int => exact word fun _ => rfl
  | str => exact word fun _ => rfl
  | boolTrue => exact word fun _ => rfl
  | boolFalse => exact word fun _ => rfl
  | ident => exact word fun _ => rfl
  | paren _ ih => exact paren ih
  | array _ ih => exact array ih
  | hash _ ih => exact hash ih
  | ifExpr _ _ ihc iht => exact ifExpr ihc iht
  | ifElse _ _ _ ihc iht ihe => exact ifElse ihc iht ihe
  | literal _ _ ihn ihb => exact literal ihn ihb
  | arg _ ih => exact arg ih
  | args _ _ ihe ihs => exact args ihe ihs
  | noList => exact noList
  | list _ ih => exact list ih
  | pair _ _ ihk ihv => exact pair ihk ihv
  | pairs _ _ _ ihk ihv ihps => exact pairs ihk ihv ihps
  | noEntries => exact noEntries
  | entries _ ih => exact entries ih
  | param => exact param
  | params _ ih => exact params ih
  | noNames => exact noNames
  | names _ ih => exact names ih

end Completes

end Parser

/-- With all semicolons in place, no two programs have the same words. -/
theorem Derives.program_unique {p q : Node} {ws : List Word} (hp : Derives true (.program p) ws)
    (hq : Derives true (.program q) ws) : p = q := by
  obtain ⟨st, hread, hfinish⟩ := Parser.Completes.of_derives hp
  obtain ⟨st', hread', hfinish'⟩ := Parser.Completes.of_derives hq
  obtain rfl : st = st' := Option.some.inj (hread.symm.trans hread')
  exact Option.some.inj (hfinish.symm.trans hfinish')

namespace Source

/-- A text of words that the grammar derives with all semicolons is parsed, unless a number in
it is too long. -/
theorem parse_complete {source : String} {ws : List Word} {p : Node} (hlexes : Lexes source ws)
    (hp : Derives true (.program p) ws)
    (hdigits : ∀ text, (.int, text) ∈ ws → text.length ≤ Numeral.maxDigits) :
    parse source = .ok p := by
  obtain ⟨hstop, rfl⟩ := hlexes
  obtain ⟨st, hread, hfinish⟩ := Parser.Completes.of_derives hp
  have hgrammar : parseGrammar (lex source) = .ok p :=
    parseGrammar_eq_ok.2 ⟨hstop, st, Parser.steps_of_read hread, hfinish⟩
  have hshort : (lex source).tokens.any isTooLong = false := by
    rw [List.any_eq_false]
    intro t ht hlong
    simp only [isTooLong, Bool.and_eq_true, decide_eq_true_eq] at hlong
    have hword : (TokenKind.int, t.text) ∈ (lex source).tokens.map Token.word :=
      List.mem_map.2 ⟨t, ht, by rw [Token.word, hlong.1]⟩
    have hle := hdigits t.text hword
    omega
  exact parse_eq_ok.2 ⟨hgrammar, hshort⟩

/-- The parser implements its grammar: the tree of a text is one that the grammar makes of its
words, and words that make a program, with a semicolon behind every statement and no number
that is too long, are parsed to this program in every text of these words. -/
theorem parse_implements_grammar :
    (∀ {source : String} {p : Node}, parse source = .ok p →
      ∃ ws, Lexes source ws ∧ Derives false (.program p) ws) ∧
    ∀ {source : String} {ws : List Word} {p : Node}, Lexes source ws →
      Derives true (.program p) ws →
      (∀ text, (.int, text) ∈ ws → text.length ≤ Numeral.maxDigits) → parse source = .ok p :=
  ⟨parse_sound, parse_complete⟩

/-- Both halves at a product of a sum: the text is parsed, and the grammar makes its tree. -/
theorem parse_implements_grammar_product :
    let ws : List Word := [(.lparen, "("), (.ident, "a"), (.plus, "+"), (.bang, "!"),
      (.ident, "b"), (.rparen, ")"), (.star, "*"), (.int, "2"), (.semicolon, ";")]
    let p : Node := .program [.exprStmt (.infixOp
      (.infixOp (.ident "a") "+" (.prefixOp "!" (.ident "b"))) "*" (.int 2))]
    Lexes "(a + !b) * 2;" ws ∧ Derives true (.program p) ws ∧
      parse "(a + !b) * 2;" = .ok p ∧ ∃ ws', Lexes "(a + !b) * 2;" ws' ∧
        Derives false (.program p) ws' := by
  intro ws p
  have hlexes : Lexes "(a + !b) * 2;" ws := by
    constructor <;> decide +kernel
  have hsum : Derives true (.expr 1 (.infixOp (.ident "a") "+" (.prefixOp "!" (.ident "b"))))
      [(.ident, "a"), (.plus, "+"), (.bang, "!"), (.ident, "b")] :=
    .lower (.infixOp .plus (.lower .ident (by decide) (by decide))
      (.lower (.prefixOp (.inl rfl) (.lower .ident (by decide) (by decide))) (by decide) (by decide)))
      (by decide) (by decide)
  have htwo : Derives true (.expr 7 (.int 2)) [(.int, "2")] := by
    have hvalue : Numeral.ofDigits "2".toList = 2 := by decide +kernel
    have hint : Derives true (.expr 7 (.int (Numeral.ofDigits "2".toList))) [(.int, "2")] := .int
    rwa [hvalue] at hint
  have hproduct : Derives true (.expr 1 (.infixOp (.infixOp (.ident "a") "+"
      (.prefixOp "!" (.ident "b"))) "*" (.int 2)))
      ([(.lparen, "("), (.ident, "a"), (.plus, "+"), (.bang, "!"), (.ident, "b"), (.rparen, ")")] ++
        (.star, "*") :: [(.int, "2")]) :=
    .lower (.infixOp .star (.lower (.paren hsum) (by decide) (by decide))
      (.lower htwo (by decide) (by decide))) (by decide) (by decide)
  have hp : Derives true (.program p) ws :=
    .program (.statements (.exprStmt hproduct .semicolon) .noStatements)
  have hdigits : ∀ text, (.int, text) ∈ ws → text.length ≤ Numeral.maxDigits := by
    intro text htext
    obtain rfl : text = "2" := by simpa [ws] using htext
    decide
  have hparse := parse_implements_grammar.2 hlexes hp hdigits
  exact ⟨hlexes, hp, hparse, parse_implements_grammar.1 hparse⟩

end Source

end Monkey
