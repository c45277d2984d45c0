import Monkey.Node
import Monkey.Token
import Monkey.Text.Numeral

/-!
# Parsing

A program is parsed one token at a time. The state of the parser is what it
expects next (`Parser.Expect`) and the constructs that are still open around that
place, innermost first (`Parser.Pending`). `Parser.step` consumes exactly one
token, or refuses it; `Parser.finish` says whether a program may end here.

The grammar is ambiguous where one statement ends and another could begin, since
the semicolon is optional. The rule is that a statement goes on for as long as it
can: `a` followed by `(b)` on the next line is a call, `a` followed by `-b` is a
difference. A brace at the start of a statement opens a hash literal.

Calls and indexing bind tighter than the operators in front of an operand, and
these bind tighter than the operators between operands, which group to the left
on four levels.

## Main definitions

* `Parser.step`, `Parser.finish` — the parser.
* `Parser.run` — the parsing of a list of tokens.
* `Parser.Stop` — where parsing failed.
-/

namespace Monkey.Parser

/-- The two literals that have parameters and a body. -/
inductive Form where
  | fn | macroLit
  deriving DecidableEq

/-- The literal of a form. -/
def Form.literal : Form → List String → List Node → Node
  | fn => .fnLit
  | macroLit => .macroLit

/-- What a list of statements belongs to. -/
inductive Owner where
  /-- The whole program. -/
  | program
  /-- The first branch of an `if`. -/
  | consequence (condition : Node)
  /-- The branch after `else`. -/
  | alternative (condition : Node) (consequence : List Node)
  /-- The body of a literal. -/
  | body (form : Form) (params : List String)

/-- A construct that has been opened and waits for the part in hand. Lists of parts that are
already there have the newest part first. -/
inductive Pending where
  /-- A list of statements waits for its next statement or its end. -/
  | statements (owner : Owner) (done : List Node)
  /-- `let name =` waits for its value. -/
  | letValue (name : String)
  /-- `return` waits for its value. -/
  | returnValue
  /-- A statement waits for the expression that it consists of. -/
  | exprStatement
  /-- `(` waits for an expression and `)`. -/
  | paren
  /-- `[` and some elements wait for the next element. -/
  | array (done : List Node)
  /-- `callee(` and some arguments wait for the next argument. -/
  | arguments (callee : Node) (done : List Node)
  /-- `left[` waits for a position and `]`. -/
  | position (left : Node)
  /-- `{` and some pairs wait for the next key. -/
  | hashKey (done : List (Node × Node))
  /-- `{`, some pairs and `key:` wait for the value. -/
  | hashValue (done : List (Node × Node)) (key : Node)
  /-- An operator waits for the operand behind it. -/
  | prefixOp (operator : String)
  /-- An operand and an operator wait for the other operand. -/
  | infixOp (left : Node) (operator : String) (level : Nat)
  /-- `if (` waits for a condition and `)`. -/
  | condition

/-- What the parser expects next. -/
inductive Expect where
  /-- A statement, or the end of the list of statements. -/
  | statement
  /-- The name behind `let`. -/
  | letName
  /-- The sign behind `let name`. -/
  | letSign (name : String)
  /-- An expression. -/
  | operand
  /-- An expression, or the bracket that closes an empty list. -/
  | firstItem
  /-- What can follow a complete operand. -/
  | operator (operand : Node)
  /-- The bracket behind `if`. -/
  | ifOpen
  /-- The brace that opens a block. -/
  | blockOpen (owner : Owner)
  /-- `else`, or what can follow a complete `if`. -/
  | ifEnd (condition : Node) (consequence : List Node)
  /-- The bracket that opens the parameters. -/
  | paramsOpen (form : Form)
  /-- A parameter, or the bracket that closes an empty list of parameters. -/
  | paramFirst (form : Form)
  /-- A comma and another parameter, or the end of the parameters; the newest comes first. -/
  | paramSign (form : Form) (done : List String)
  /-- The parameter behind a comma. -/
  | paramName (form : Form) (done : List String)

/-- The state of the parser. -/
structure State where
  expect : Expect
  pending : List Pending

/-- The state before the first token. -/
def State.initial : State := ⟨.statement, [.statements .program []]⟩

/-- The level of an operator between operands; operators of a higher level bind tighter. -/
def level? : TokenKind → Option Nat
  | .eq | .notEq => some 1
  | .lt | .gt => some 2
  | .plus | .minus => some 3
  | .star | .slash => some 4
  | _ => none

/-- Completes the operators whose last operand is `e`, as far as they bind at least as tightly
as `level`. -/
def reduce (level : Nat) (e : Node) : List Pending → Node × List Pending
  | .prefixOp op :: rest => reduce level (.prefixOp op e) rest
  | .infixOp l op own :: rest =>
    if level ≤ own then reduce level (.infixOp l op e) rest
    else (e, .infixOp l op own :: rest)
  | rest => (e, rest)

/-- Takes a token that begins an expression. -/
def beginOperand (k : TokenKind) (text : String) (pending : List Pending) : Option State :=
  match k with
  | .int => some ⟨.operator (.int (Numeral.ofDigits text.toList)), pending⟩
  | .string => some ⟨.operator (.str (String.ofList (text.toList.drop 1).dropLast)), pending⟩
  | .kwTrue => some ⟨.operator (.bool true), pending⟩
  | .kwFalse => some ⟨.operator (.bool false), pending⟩
  | .ident => some ⟨.operator (.ident text), pending⟩
  | .bang | .minus => some ⟨.operand, .prefixOp text :: pending⟩
  | .lparen => some ⟨.operand, .paren :: pending⟩
  | .lbracket => some ⟨.firstItem, .array [] :: pending⟩
  | .lbrace => some ⟨.firstItem, .hashKey [] :: pending⟩
  | .kwIf => some ⟨.ifOpen, pending⟩
  | .kwFn => some ⟨.paramsOpen .fn, pending⟩
  | .kwMacro => some ⟨.paramsOpen .macroLit, pending⟩
  | _ => none

/-- Goes on behind the end of a list of statements, which are given newest first. -/
def closeBlock (owner : Owner) (done : List Node) (pending : List Pending) : Option State :=
  match owner with
  | .program => none
  | .consequence c => some ⟨.ifEnd c done.reverse, pending⟩
  | .alternative c t => some ⟨.operator (.ifExpr c t (some done.reverse)), pending⟩
  | .body form params => some ⟨.operator (form.literal params done.reverse), pending⟩

/-- Takes a token where a statement may begin or a list of statements may end. -/
def stepStatement (k : TokenKind) (text : String) (pending : List Pending) : Option State :=
  match k, pending with
  | .kwLet, pending => some ⟨.letName, pending⟩
  | .kwReturn, pending => some ⟨.operand, .returnValue :: pending⟩
  | .rbrace, .statements owner done :: pending => closeBlock owner done pending
  | k, pending => beginOperand k text (.exprStatement :: pending)

/-- The statement that a complete expression ends, if it ends one. -/
def statement? (e : Node) : Pending → Option Node
  | .letValue name => some (.letStmt name e)
  | .returnValue => some (.returnStmt e)
  | .exprStatement => some (.exprStmt e)
  | _ => none

/-- Takes a token behind an expression that all its operators are part of. -/
def stepExpressionEnd (e : Node) (k : TokenKind) (text : String) : List Pending → Option State
  | .paren :: rest => if k = .rparen then some ⟨.operator e, rest⟩ else none
  | .condition :: rest => if k = .rparen then some ⟨.blockOpen (.consequence e), rest⟩ else none
  | .position l :: rest => if k = .rbracket then some ⟨.operator (.index l e), rest⟩ else none
  | .array done :: rest => match k with
    | .comma => some ⟨.operand, .array (e :: done) :: rest⟩
    | .rbracket => some ⟨.operator (.array (e :: done).reverse), rest⟩
    | _ => none
  | .arguments f done :: rest => match k with
    | .comma => some ⟨.operand, .arguments f (e :: done) :: rest⟩
    | .rparen => some ⟨.operator (.call f (e :: done).reverse), rest⟩
    | _ => none
  | .hashKey done :: rest => if k = .colon then some ⟨.operand, .hashValue done e :: rest⟩ else none
  | .hashValue done key :: rest => match k with
    | .comma => some ⟨.operand, .hashKey ((key, e) :: done) :: rest⟩
    | .rbrace => some ⟨.operator (.hash ((key, e) :: done).reverse), rest⟩
    | _ => none
  | p :: .statements owner done :: rest => match statement? e p with
    | none => none
    | some s =>
      let pending := .statements owner (s :: done) :: rest
      if k = .semicolon then some ⟨.statement, pending⟩ else stepStatement k text pending
  | _ => none

/-- Takes a token behind a complete operand. -/
def stepOperator (e : Node) (k : TokenKind) (text : String) (pending : List Pending) : Option State :=
  match k with
  | .lparen => some ⟨.firstItem, .arguments e [] :: pending⟩
  | .lbracket => some ⟨.operand, .position e :: pending⟩
  | k => match level? k with
    | some level =>
      let (l, rest) := reduce level e pending
      some ⟨.operand, .infixOp l text level :: rest⟩
    | none =>
      let (e, rest) := reduce 0 e pending
      stepExpressionEnd e k text rest

/-- Takes a token directly behind an opening bracket, which may close an empty list. -/
def stepFirstItem (k : TokenKind) (text : String) (pending : List Pending) : Option State :=
  match k, pending with
  | .rbracket, .array [] :: rest => some ⟨.operator (.array []), rest⟩
  | .rparen, .arguments f [] :: rest => some ⟨.operator (.call f []), rest⟩
  | .rbrace, .hashKey [] :: rest => some ⟨.operator (.hash []), rest⟩
  | k, pending => beginOperand k text pending

/-- Takes one token, given by its kind and text; none if no program goes on with it. -/
def step (st : State) (k : TokenKind) (text : String) : Option State :=
  match st.expect with
  | .statement => stepStatement k text st.pending
  | .letName => if k = .ident then some ⟨.letSign text, st.pending⟩ else none
  | .letSign name => if k = .assign then some ⟨.operand, .letValue name :: st.pending⟩ else none
  | .operand => beginOperand k text st.pending
  | .firstItem => stepFirstItem k text st.pending
  | .operator e => stepOperator e k text st.pending
  | .ifOpen => if k = .lparen then some ⟨.operand, .condition :: st.pending⟩ else none
  | .blockOpen owner =>
    if k = .lbrace then some ⟨.statement, .statements owner [] :: st.pending⟩ else none
  | .ifEnd c t =>
    if k = .kwElse then some ⟨.blockOpen (.alternative c t), st.pending⟩
    else stepOperator (.ifExpr c t none) k text st.pending
  | .paramsOpen form => if k = .lparen then some ⟨.paramFirst form, st.pending⟩ else none
  | .paramFirst form => match k with
    | .ident => some ⟨.paramSign form [text], st.pending⟩
    | .rparen => some ⟨.blockOpen (.body form []), st.pending⟩
    | _ => none
  | .paramSign form done => match k with
    | .comma => some ⟨.paramName form done, st.pending⟩
    | .rparen => some ⟨.blockOpen (.body form done.reverse), st.pending⟩
    | _ => none
  | .paramName form done =>
    if k = .ident then some ⟨.paramSign form (text :: done), st.pending⟩ else none

/-- The program that ends with a complete expression, if one can. -/
def finishExpression (e : Node) (pending : List Pending) : Option Node :=
  match reduce 0 e pending with
  | (e, [p, .statements .program done]) =>
    (statement? e p).map fun s => .program (s :: done).reverse
  | _ => none

/-- The program that ends here, if one can. -/
def finish (st : State) : Option Node :=
  match st.expect, st.pending with
  | .statement, [.statements .program done] => some (.program done.reverse)
  | .operator e, pending => finishExpression e pending
  | .ifEnd c t, pending => finishExpression (.ifExpr c t none) pending
  | _, _ => none

/-- Takes a list of tokens; the first token that is refused is the failure. -/
def steps (st : State) (tokens : List Token) : Except Token State :=
  tokens.foldlM (fun st t =>
    match step st t.kind t.text with
    | some st => .ok st
    | none => .error t) st

@[simp] theorem steps_nil (st : State) : steps st [] = .ok st := rfl

theorem steps_cons (st : State) (t : Token) (tokens : List Token) :
    steps st (t :: tokens) = match step st t.kind t.text with
      | some st => steps st tokens
      | none => .error t := by
  rw [steps, List.foldlM_cons]
  cases step st t.kind t.text <;> rfl

end Monkey.Parser
