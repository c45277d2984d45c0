import Monkey.Source
import Monkey.Proofs.WellSorted

/-!
# The grammar

Which words make which trees, one rule for each production. Expressions come on
seven levels, each of which includes the next: `==` and `!=` (1), `<` and `>` (2),
`+` and `-` (3), `*` and `/` (4), operators in front of an operand (5), calls and
indexing (6), and what stands on its own or in brackets (7).

The grammar is ambiguous about where statements end, since their semicolons may be
left out. `Derives true` is the part of it where every statement has its semicolon.

## Main definitions

* `Word`, `Phrase` and `Derives` — the words of a phrase.

## Main results

* `Derives.sorted` — the grammar makes well-sorted trees.
-/

namespace Monkey

open Monkey.Parser

/-- A token without its place. -/
abbrev Word := TokenKind × String

/-- The kind and text of a token. -/
def Token.word (t : Token) : Word := (t.kind, t.text)

/-- The text is a sequence of words, without a rest that cannot be read. -/
def Source.Lexes (source : String) (ws : List Word) : Prop :=
  (lex source).stop = none ∧ (lex source).tokens.map Token.word = ws

/-- The word that begins a literal with parameters and a body. -/
def Parser.Form.keyword : Form → TokenKind
  | fn => .kwFn
  | macroLit => .kwMacro

/-- The parts of programs, with the trees that they make. -/
inductive Phrase where
  | program (p : Node)
  /-- Any number of statements. -/
  | statements (ss : List Node)
  | statement (s : Node)
  /-- Statements in braces. -/
  | block (ss : List Node)
  /-- An expression of a level or of one that binds tighter. -/
  | expr (level : Nat) (e : Node)
  /-- At least one expression, with commas between them. -/
  | args (es : List Node)
  /-- Any number of expressions, with commas between them. -/
  | list (es : List Node)
  /-- At least one key with its value, with commas between the pairs. -/
  | pairs (ps : List (Node × Node))
  /-- Any number of keys with their values. -/
  | entries (ps : List (Node × Node))
  /-- At least one name, with commas between them. -/
  | params (names : List String)
  /-- Any number of names. -/
  | names (names : List String)

/-- The end of a statement: a semicolon, or nothing unless semicolons are demanded. -/
inductive Terminator (strict : Bool) : List Word → Prop where
  | semicolon {t : String} : Terminator strict [(.semicolon, t)]
  | omitted : strict = false → Terminator strict []

/-- The operators between operands, with their levels. -/
inductive Infix : TokenKind → Nat → Prop where
  | eq : Infix .eq 1
  | notEq : Infix .notEq 1
  | lt : Infix .lt 2
  | gt : Infix .gt 2
  | plus : Infix .plus 3
  | minus : Infix .minus 3
  | star : Infix .star 4
  | slash : Infix .slash 4

theorem level?_eq_some_iff {k : TokenKind} {level : Nat} :
    level? k = some level ↔ Infix k level := by
  constructor
  · intro h
    cases k <;> simp only [level?, Option.some.injEq, reduceCtorEq] at h <;> subst h <;> constructor
  · intro h
    cases h <;> rfl

theorem Infix.bounds {k : TokenKind} {level : Nat} (h : Infix k level) :
    1 ≤ level ∧ level ≤ 4 := by
  cases h <;> decide

/-- The words of a phrase; with `strict`, every statement in it ends in a semicolon. -/
inductive Derives (strict : Bool) : Phrase → List Word → Prop where
  | program {ss : List Node} {ws : List Word} :
    Derives strict (.statements ss) ws → Derives strict (.program (.program ss)) ws
  | noStatements : Derives strict (.statements []) []
  | statements {s : Node} {ss : List Node} {w ws : List Word} :
    Derives strict (.statement s) w → Derives strict (.statements ss) ws →
    Derives strict (.statements (s :: ss)) (w ++ ws)
  | letStmt {name t₁ t₂ : String} {e : Node} {we wt : List Word} :
    Derives strict (.expr 1 e) we → Terminator strict wt →
    Derives strict (.statement (.letStmt name e))
      ((.kwLet, t₁) :: (.ident, name) :: (.assign, t₂) :: (we ++ wt))
  | returnStmt {t : String} {e : Node} {we wt : List Word} :
    Derives strict (.expr 1 e) we → Terminator strict wt →
    Derives strict (.statement (.returnStmt e)) ((.kwReturn, t) :: (we ++ wt))
  | exprStmt {e : Node} {we wt : List Word} :
    Derives strict (.expr 1 e) we → Terminator strict wt →
    Derives strict (.statement (.exprStmt e)) (we ++ wt)
  | block {t₁ t₂ : String} {ss : List Node} {ws : List Word} :
    Derives strict (.statements ss) ws →
    Derives strict (.block ss) ((.lbrace, t₁) :: (ws ++ [(.rbrace, t₂)]))
  | tighter {level : Nat} {e : Node} {we : List Word} : 1 ≤ level →
    Derives strict (.expr (level + 1) e) we → Derives strict (.expr level e) we
  | infixOp {k : TokenKind} {op : String} {level : Nat} {l r : Node} {wl wr : List Word} :
    Infix k level → Derives strict (.expr level l) wl →
    Derives strict (.expr (level + 1) r) wr →
    Derives strict (.expr level (.infixOp l op r)) (wl ++ (k, op) :: wr)
  | prefixOp {k : TokenKind} {op : String} {r : Node} {wr : List Word} :
    k = .bang ∨ k = .minus → Derives strict (.expr 5 r) wr →
    Derives strict (.expr 5 (.prefixOp op r)) ((k, op) :: wr)
  | call {t₁ t₂ : String} {f : Node} {es : List Node} {wf ws : List Word} :
    Derives strict (.expr 6 f) wf → Derives strict (.list es) ws →
    Derives strict (.expr 6 (.call f es)) (wf ++ (.lparen, t₁) :: (ws ++ [(.rparen, t₂)]))
  | index {t₁ t₂ : String} {l i : Node} {wl wi : List Word} :
    Derives strict (.expr 6 l) wl → Derives strict (.expr 1 i) wi →
    Derives strict (.expr 6 (.index l i)) (wl ++ (.lbracket, t₁) :: (wi ++ [(.rbracket, t₂)]))
  | int {text : String} :
    Derives strict (.expr 7 (.int (Numeral.ofDigits text.toList))) [(.int, text)]
  | str {text : String} :
    Derives strict (.expr 7 (.str (String.ofList (text.toList.drop 1).dropLast))) [(.string, text)]
  | boolTrue {t : String} : Derives strict (.expr 7 (.bool true)) [(.kwTrue, t)]
  | boolFalse {t : String} : Derives strict (.expr 7 (.bool false)) [(.kwFalse, t)]
  | ident {name : String} : Derives strict (.expr 7 (.ident name)) [(.ident, name)]
  | paren {t₁ t₂ : String} {e : Node} {we : List Word} : Derives strict (.expr 1 e) we →
    Derives strict (.expr 7 e) ((.lparen, t₁) :: (we ++ [(.rparen, t₂)]))
  | array {t₁ t₂ : String} {es : List Node} {ws : List Word} : Derives strict (.list es) ws →
    Derives strict (.expr 7 (.array es)) ((.lbracket, t₁) :: (ws ++ [(.rbracket, t₂)]))
  | hash {t₁ t₂ : String} {ps : List (Node × Node)} {ws : List Word} :
    Derives strict (.entries ps) ws →
    Derives strict (.expr 7 (.hash ps)) ((.lbrace, t₁) :: (ws ++ [(.rbrace, t₂)]))
  | ifExpr {t₁ t₂ t₃ : String} {c : Node} {t : List Node} {wc wt : List Word} :
    Derives strict (.expr 1 c) wc → Derives strict (.block t) wt →
    Derives strict (.expr 7 (.ifExpr c t none))
      ((.kwIf, t₁) :: (.lparen, t₂) :: (wc ++ (.rparen, t₃) :: wt))
  | ifElse {t₁ t₂ t₃ t₄ : String} {c : Node} {t e : List Node} {wc wt we : List Word} :
    Derives strict (.expr 1 c) wc → Derives strict (.block t) wt → Derives strict (.block e) we →
    Derives strict (.expr 7 (.ifExpr c t (some e)))
      ((.kwIf, t₁) :: (.lparen, t₂) :: (wc ++ (.rparen, t₃) :: (wt ++ (.kwElse, t₄) :: we)))
  | literal {t₁ t₂ t₃ : String} {form : Form} {names : List String} {body : List Node}
    {wn wb : List Word} : Derives strict (.names names) wn → Derives strict (.block body) wb →
    Derives strict (.expr 7 (form.literal names body))
      ((form.keyword, t₁) :: (.lparen, t₂) :: (wn ++ (.rparen, t₃) :: wb))
  | arg {e : Node} {we : List Word} : Derives strict (.expr 1 e) we →
    Derives strict (.args [e]) we
  | args {t : String} {e : Node} {es : List Node} {we ws : List Word} :
    Derives strict (.expr 1 e) we → Derives strict (.args es) ws →
    Derives strict (.args (e :: es)) (we ++ (.comma, t) :: ws)
  | noList : Derives strict (.list []) []
  | list {es : List Node} {ws : List Word} : Derives strict (.args es) ws →
    Derives strict (.list es) ws
  | pair {t : String} {k v : Node} {wk wv : List Word} : Derives strict (.expr 1 k) wk →
    Derives strict (.expr 1 v) wv → Derives strict (.pairs [(k, v)]) (wk ++ (.colon, t) :: wv)
  | pairs {t₁ t₂ : String} {k v : Node} {ps : List (Node × Node)} {wk wv ws : List Word} :
    Derives strict (.expr 1 k) wk → Derives strict (.expr 1 v) wv → Derives strict (.pairs ps) ws →
    Derives strict (.pairs ((k, v) :: ps)) (wk ++ (.colon, t₁) :: (wv ++ (.comma, t₂) :: ws))
  | noEntries : Derives strict (.entries []) []
  | entries {ps : List (Node × Node)} {ws : List Word} : Derives strict (.pairs ps) ws →
    Derives strict (.entries ps) ws
  | param {name : String} : Derives strict (.params [name]) [(.ident, name)]
  | params {name t : String} {names : List String} {ws : List Word} :
    Derives strict (.params names) ws →
    Derives strict (.params (name :: names)) ((.ident, name) :: (.comma, t) :: ws)
  | noNames : Derives strict (.names []) []
  | names {names : List String} {ws : List Word} : Derives strict (.params names) ws →
    Derives strict (.names names) ws

namespace Derives
variable {strict : Bool}

/-- An expression of a level is one of every level that binds less tightly. -/
theorem lower {level level' : Nat} {e : Node} {we : List Word}
    (h : Derives strict (.expr level e) we) (hpos : 1 ≤ level') (hle : level' ≤ level) :
    Derives strict (.expr level' e) we := by
  induction hle with
  | refl => exact h
  | step hle ih =>
    have hstep : 1 ≤ _ := Nat.le_trans hpos hle
    exact ih (.tighter hstep h)

end Derives

/-- What the grammar says of the trees of a phrase: they are well sorted, and of the sort of
the phrase. -/
def Phrase.Sorted : Phrase → Prop
  | program p => p.WellSorted
  | statements ss | block ss => ∀ s ∈ ss, s.isStatement = true ∧ s.WellSorted
  | statement s => s.isStatement = true ∧ s.WellSorted
  | expr _ e => e.isExpression = true ∧ e.WellSorted
  | args es | list es => ∀ e ∈ es, e.isExpression = true ∧ e.WellSorted
  | pairs ps | entries ps => ∀ e ∈ (Node.hash ps).operands, e.isExpression = true ∧ e.WellSorted
  | params _ | names _ => True

/-- The grammar makes well-sorted trees. -/
theorem Derives.sorted {strict : Bool} {p : Phrase} {ws : List Word} (h : Derives strict p ws) :
    p.Sorted := by
  have hblock : ∀ ss : List Node, (∀ s ∈ ss, s.isStatement = true ∧ s.WellSorted) →
      (Node.block ss).WellSorted :=
    fun ss h => Node.wellSorted_iff.2 ⟨by simp, h, by simp⟩
  have hone : ∀ {e : Node}, e.isExpression = true ∧ e.WellSorted →
      ∀ n ∈ [e], n.isExpression = true ∧ n.WellSorted := by
    intro e he n hn
    obtain rfl := List.mem_singleton.1 hn
    exact he
  induction h with
  | program _ ih => exact Node.wellSorted_iff.2 ⟨by simp, ih, by simp⟩
  | noStatements => simp [Phrase.Sorted]
  | statements _ _ ihs ihss => simpa [Phrase.Sorted] using ⟨ihs, ihss⟩
  | letStmt _ _ ih => exact ⟨rfl, Node.wellSorted_of_operands (hone ih) rfl rfl⟩
  | returnStmt _ _ ih => exact ⟨rfl, Node.wellSorted_of_operands (hone ih) rfl rfl⟩
  | exprStmt _ _ ih => exact ⟨rfl, Node.wellSorted_of_operands (hone ih) rfl rfl⟩
  | block _ ih => exact ih
  | tighter _ _ ih => exact ih
  | infixOp _ _ _ ihl ihr =>
    exact ⟨rfl, Node.wellSorted_of_operands (by simpa using ⟨ihl, ihr⟩) rfl rfl⟩
  | prefixOp _ _ ih => exact ⟨rfl, Node.wellSorted_of_operands (hone ih) rfl rfl⟩
  | call _ _ ihf ihs =>
    exact ⟨rfl, Node.wellSorted_of_operands (by simpa using ⟨ihf, ihs⟩) rfl rfl⟩
  | index _ _ ihl ihi =>
    exact ⟨rfl, Node.wellSorted_of_operands (by simpa using ⟨ihl, ihi⟩) rfl rfl⟩
  | int | str | boolTrue | boolFalse | ident =>
    exact ⟨rfl, Node.wellSorted_of_operands (by simp) rfl rfl⟩
  | paren _ ih => exact ih
  | array _ ih => exact ⟨rfl, Node.wellSorted_of_operands ih rfl rfl⟩
  | hash _ ih => exact ⟨rfl, Node.wellSorted_of_operands ih rfl rfl⟩
  | ifExpr _ _ ihc iht =>
    refine ⟨rfl, Node.wellSorted_iff.2 ⟨hone ihc, by simp, ?_⟩⟩
    simpa using hblock _ iht
  | ifElse _ _ _ ihc iht ihe =>
    refine ⟨rfl, Node.wellSorted_iff.2 ⟨hone ihc, by simp, ?_⟩⟩
    simpa using ⟨hblock _ iht, hblock _ ihe⟩
  | @literal _ _ _ form _ body _ _ _ _ _ ihb =>
    have hbody : (Node.block body).WellSorted := hblock body ihb
    cases form with
    | fn => exact ⟨rfl, Node.wellSorted_iff.2 ⟨nofun, nofun, by simpa [Form.literal] using hbody⟩⟩
    | macroLit =>
      exact ⟨rfl, Node.wellSorted_iff.2 ⟨nofun, nofun, by simpa [Form.literal] using hbody⟩⟩
  | arg _ ih => exact hone ih
  | args _ _ ihe ihes => simpa [Phrase.Sorted] using ⟨ihe, ihes⟩
  | noList => simp [Phrase.Sorted]
  | list _ ih => exact ih
  | pair _ _ ihk ihv => simpa [Phrase.Sorted] using ⟨ihk, ihv⟩
  | pairs _ _ _ ihk ihv ihps =>
    intro e he
    simp only [Node.operands, List.flatMap_cons, List.mem_append, List.mem_cons,
      List.not_mem_nil, or_false] at he
    rcases he with (rfl | rfl) | he
    · exact ihk
    · exact ihv
    · exact ihps e he
  | noEntries => simp [Phrase.Sorted]
  | entries _ ih => exact ih
  | param => trivial
  | params _ _ => trivial
  | noNames => trivial
  | names _ _ => trivial

end Monkey
