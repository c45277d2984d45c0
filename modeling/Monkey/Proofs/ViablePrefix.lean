import Monkey.Proofs.Cutting
import Monkey.Proofs.ParserComplete

/-!
# Errors stand where texts go wrong

Whatever the parser has taken can be completed to a program. The open constructs fit
into each other (`Nested`): each of them stands in a place that asks for a statement or
in one that asks for an expression, and none but the outermost belongs to the whole
program. So they can be closed one after the other, innermost first, with a few words
(`fillers`) that need nothing but a space between them.

On the other hand the parser looks at one word at a time and at nothing behind it, so
words behind a word that it refuses cannot help. A text is therefore refused at the
first token, or the first character, with which it stops being the beginning of a
program.

## Main definitions

* `Parser.Nested`, `Parser.Fits` — open constructs that fit, and states of the parser with such.
* `Parser.Completable` — states from which words lead to a program.
* `Source.Accepted`, `Source.Begins` — what the grammar reads, and how it may begin.
* `Source.FailsAt` — where and why a text stops being the beginning of a program.

## Main results

* `step_fits` — every step of the parser leads from states that fit to such.
* `Fits.completable` — every state that fits can be completed.
* `Source.failsAt_of_parse` — errors stand where texts stop being the beginning of a program.
-/

namespace Monkey

namespace Parser

/-! ## Open constructs that fit -/

/-- What a place asks for. -/
inductive Place where
  | statement
  | expression

def Owner.isProgram : Owner → Bool
  | .program => true
  | _ => false

/-- Whether an open construct is the program itself. -/
def Pending.isProgram : Pending → Bool
  | .statements owner _ => owner.isProgram
  | _ => false

/-- What an open construct waits for. -/
def Pending.waitsFor : Pending → Place
  | .statements .. => .statement
  | _ => .expression

/-- What the place around an open construct asks for. -/
def Pending.standsFor : Pending → Place
  | .letValue _ | .returnValue | .exprStatement => .statement
  | _ => .expression

/-- Open constructs that leave a place of the given kind, each in a place of its own kind. -/
inductive Nested : Place → List Pending → Prop where
  | program {done : List Node} : Nested .statement [.statements .program done]
  | push {place : Place} {p : Pending} {pending : List Pending} :
    p.isProgram = false → p.waitsFor = place → Nested p.standsFor pending →
    Nested place (p :: pending)

/-- What the place asks for in which the parser is. -/
def Expect.place : Expect → Place
  | .statement | .letName | .letSign _ => .statement
  | _ => .expression

/-- Whether the parser waits for the block of the whole program. -/
def Expect.isProgram : Expect → Bool
  | .blockOpen owner => owner.isProgram
  | _ => false

/-- States of the parser where all that is open fits. -/
structure Fits (st : State) : Prop where
  nested : Nested st.expect.place st.pending
  owned : st.expect.isProgram = false

variable {k : TokenKind} {text : String} {pending : List Pending} {st st' : State}
  {ws : List Word}

theorem Fits.initial : Fits .initial := ⟨.program, rfl⟩

/-- The place of statements stays one when statements are added to it. -/
theorem Nested.statements {owner : Owner} {done done' : List Node}
    (h : Nested .statement (.statements owner done :: pending)) :
    Nested .statement (.statements owner done' :: pending) := by
  cases h with
  | program => exact .program
  | push hown _ hrest => exact .push hown rfl hrest

/-- A block that does not belong to the whole program stands in the place of an expression. -/
theorem Nested.of_block {owner : Owner} {done : List Node}
    (h : Nested .statement (.statements owner done :: pending))
    (howner : owner.isProgram = false) : Nested .expression pending := by
  cases h with
  | program => cases howner
  | push _ _ hrest => exact hrest

/-- Completing operators leaves constructs that fit. -/
theorem Nested.reduced {level : Nat} (e : Node) (h : Nested .expression pending) :
    Nested .expression (reduce level e pending).2 := by
  induction e, pending using reduce.induct level with
  | case1 e op rest ih =>
    cases h with
    | push _ _ hrest => exact ih hrest
  | case2 e l op own rest hle ih =>
    cases h with
    | push _ _ hrest =>
      rw [reduce, if_pos hle]
      exact ih hrest
  | case3 e l op own rest hlt =>
    rw [reduce, if_neg hlt]
    exact h
  | case4 e pending hnotPre hnotIn =>
    rw [reduce]
    · exact h
    · exact hnotPre
    · exact hnotIn

/-! ## Steps of the parser -/

theorem beginOperand_fits (hnested : Nested .expression pending)
    (h : beginOperand k text pending = some st) : Fits st := by
  cases k <;> simp only [beginOperand, Option.some.injEq, reduceCtorEq] at h <;> subst h
  case int | string | kwTrue | kwFalse | ident | kwIf | kwFn | kwMacro =>
    exact ⟨hnested, rfl⟩
  all_goals exact ⟨.push rfl rfl hnested, rfl⟩

theorem closeBlock_fits {owner : Owner} {done : List Node} (hnested : Nested .expression pending)
    (h : closeBlock owner done pending = some st) : Fits st := by
  cases owner <;> simp only [closeBlock, Option.some.injEq, reduceCtorEq] at h <;> subst h <;>
    exact ⟨hnested, rfl⟩

theorem stepStatement_fits (hnested : Nested .statement pending)
    (h : stepStatement k text pending = some st) : Fits st := by
  unfold stepStatement at h
  split at h
  · obtain rfl := Option.some.inj h
    exact ⟨hnested, rfl⟩
  · obtain rfl := Option.some.inj h
    exact ⟨.push rfl rfl hnested, rfl⟩
  · next owner done rest =>
    have howner : owner.isProgram = false := by
      cases owner <;> first | rfl | cases h
    exact closeBlock_fits (hnested.of_block howner) h
  · have hbegun : Nested .expression (.exprStatement :: pending) := .push rfl rfl hnested
    exact beginOperand_fits hbegun h

/-- What begins a statement stands directly in a list of statements. -/
theorem Nested.exists_statements (h : Nested .statement pending) :
    ∃ owner done rest, pending = .statements owner done :: rest := by
  cases h with
  | program => exact ⟨_, _, _, rfl⟩
  | @push _ p rest _ hwaits _ =>
    cases p <;> first | exact ⟨_, _, _, rfl⟩ | cases hwaits

/-- An operator that still waits for its operand does not end an expression. -/
theorem stepExpressionEnd_of_isOperator {e : Node} {p : Pending} (hp : p.isOperator = true) :
    stepExpressionEnd e k text (p :: pending) = none := by
  cases p with
  | prefixOp _ | infixOp _ _ _ =>
    cases pending with
    | nil => rfl
    | cons q rest => cases q <;> rfl
  | _ => cases hp

theorem stepExpressionEnd_fits {e : Node} (hnested : Nested .expression pending)
    (h : stepExpressionEnd e k text pending = some st) : Fits st := by
  cases hnested with
  | @push _ p rest hown hwaits hrest =>
    cases p with
    | statements _ _ => cases hwaits
    | prefixOp _ | infixOp _ _ _ =>
      rw [stepExpressionEnd_of_isOperator rfl] at h
      cases h
    | paren | position _ =>
      obtain ⟨-, rfl⟩ := of_ite_some h
      exact ⟨hrest, rfl⟩
    | condition =>
      obtain ⟨-, rfl⟩ := of_ite_some h
      exact ⟨hrest, rfl⟩
    | hashKey done =>
      obtain ⟨-, rfl⟩ := of_ite_some h
      exact ⟨.push rfl rfl hrest, rfl⟩
    | array done | arguments f done | hashValue done key =>
      simp only [stepExpressionEnd] at h
      split at h
      · obtain rfl := Option.some.inj h
        exact ⟨.push rfl rfl hrest, rfl⟩
      · obtain rfl := Option.some.inj h
        exact ⟨hrest, rfl⟩
      · cases h
    | letValue _ | returnValue | exprStatement =>
      obtain ⟨owner, done, rest, rfl⟩ := hrest.exists_statements
      simp only [stepExpressionEnd, statement?] at h
      split at h
      · obtain rfl := Option.some.inj h
        exact ⟨hrest.statements, rfl⟩
      · exact stepStatement_fits hrest.statements h

theorem stepOperator_fits {e : Node} (hnested : Nested .expression pending)
    (h : stepOperator e k text pending = some st) : Fits st := by
  unfold stepOperator at h
  split at h
  · obtain rfl := Option.some.inj h
    exact ⟨.push rfl rfl hnested, rfl⟩
  · obtain rfl := Option.some.inj h
    exact ⟨.push rfl rfl hnested, rfl⟩
  · split at h
    · obtain rfl := Option.some.inj h
      exact ⟨.push rfl rfl (hnested.reduced e), rfl⟩
    · exact stepExpressionEnd_fits (hnested.reduced e) h

theorem stepFirstItem_fits (hnested : Nested .expression pending)
    (h : stepFirstItem k text pending = some st) : Fits st := by
  have hrest : ∀ {p rest}, p.standsFor = .expression → Nested .expression (p :: rest) →
      Nested .expression rest := by
    intro p rest hp hpush
    cases hpush with
    | push _ _ hrest => exact hp ▸ hrest
  unfold stepFirstItem at h
  split at h
  · obtain rfl := Option.some.inj h
    exact ⟨hrest rfl hnested, rfl⟩
  · obtain rfl := Option.some.inj h
    exact ⟨hrest rfl hnested, rfl⟩
  · obtain rfl := Option.some.inj h
    exact ⟨hrest rfl hnested, rfl⟩
  · exact beginOperand_fits hnested h

/-- Every step of the parser leads to a state where all that is open fits. -/
theorem step_fits (hfits : Fits st) (h : step st k text = some st') : Fits st' := by
  obtain ⟨expect, pending⟩ := st
  obtain ⟨hnested, howned⟩ := hfits
  cases expect with
  | statement => exact stepStatement_fits hnested h
  | operand => exact beginOperand_fits hnested h
  | firstItem => exact stepFirstItem_fits hnested h
  | operator e => exact stepOperator_fits hnested h
  | letName =>
    obtain ⟨-, rfl⟩ := of_ite_some h
    exact ⟨hnested, rfl⟩
  | letSign _ | ifOpen =>
    obtain ⟨-, rfl⟩ := of_ite_some h
    exact ⟨.push rfl rfl hnested, rfl⟩
  | paramsOpen _ | paramName _ _ =>
    obtain ⟨-, rfl⟩ := of_ite_some h
    exact ⟨hnested, rfl⟩
  | blockOpen owner =>
    obtain ⟨-, rfl⟩ := of_ite_some h
    exact ⟨.push howned rfl hnested, rfl⟩
  | ifEnd c t =>
    simp only [step] at h
    split at h
    · obtain rfl := Option.some.inj h
      exact ⟨hnested, rfl⟩
    · exact stepOperator_fits hnested h
  | paramFirst _ | paramSign _ _ =>
    simp only [step] at h
    split at h
    · obtain rfl := Option.some.inj h
      exact ⟨hnested, rfl⟩
    · obtain rfl := Option.some.inj h
      exact ⟨hnested, rfl⟩
    · cases h

/-! ## Completing a program -/

/-- Words that fill and close what is open. -/
def fillers : List Word :=
  [(.ident, "x"), (.assign, "="), (.int, "0"), (.semicolon, ";"), (.colon, ":"), (.lparen, "("),
    (.rparen, ")"), (.rbracket, "]"), (.lbrace, "\x7b"), (.rbrace, "\x7d")]

/-- Some of these words lead from the state to a program. -/
def Completable (st : State) : Prop :=
  ∃ ws st' p, (∀ w ∈ ws, w ∈ fillers) ∧ read st ws = some st' ∧ finish st' = some p

theorem Completable.of_step (h : Completable st') (k : TokenKind) (text : String)
    (hstep : step st k text = some st') (hfiller : (k, text) ∈ fillers) : Completable st := by
  obtain ⟨ws, last, p, hfillers, hread, hfinish⟩ := h
  refine ⟨(k, text) :: ws, last, p, List.forall_mem_cons.2 ⟨hfiller, hfillers⟩, ?_, hfinish⟩
  rw [read_cons, hstep]
  exact hread

/-- A word that ends an expression completes its operators first. -/
theorem Ready.step_end {e : Node} (h : Ready st e pending) (hk : endsExpression k = true) :
    Parser.step st k text =
      stepExpressionEnd (reduce 0 e pending).1 k text (reduce 0 e pending).2 := by
  have helse : k ≠ .kwElse := by
    rintro rfl
    cases hk
  rw [h.step helse, stepOperator_end hk]

/-- Wherever an operand has been read in this place, the program can be completed. -/
structure Closable (pending : List Pending) : Prop where
  completable : ∀ {st : State} {e : Node}, Ready st e pending → Completable st

namespace Closable

theorem operand (h : Closable pending) : Completable ⟨.operand, pending⟩ :=
  (h.completable .operator).of_step .int "0" rfl (by decide)

theorem statements {owner : Owner} {done : List Node} (h : Closable pending)
    (howner : owner.isProgram = false) :
    Completable ⟨.statement, .statements owner done :: pending⟩ := by
  cases owner with
  | program => cases howner
  | consequence c => exact (h.completable .ifEnd).of_step .rbrace "\x7d" rfl (by decide)
  | alternative c t => exact (h.completable .operator).of_step .rbrace "\x7d" rfl (by decide)
  | body form names => exact (h.completable .operator).of_step .rbrace "\x7d" rfl (by decide)

theorem blockOpen {owner : Owner} (h : Closable pending) (howner : owner.isProgram = false) :
    Completable ⟨.blockOpen owner, pending⟩ :=
  (h.statements howner).of_step .lbrace "\x7b" rfl (by decide)

/-- The pairs of a hash may end behind every value. -/
theorem hashValue {done : List (Node × Node)} {key : Node} (h : Closable pending) :
    Closable (.hashValue done key :: pending) := by
  refine ⟨fun {st e} hready => ?_⟩
  have hclose : step st .rbrace "\x7d" =
      some ⟨.operator (.hash ((key, e) :: done).reverse), pending⟩ := by
    rw [hready.step_end rfl, reduce_of_not_isOperator rfl]
    rfl
  exact (h.completable .operator).of_step _ _ hclose (by decide)

end Closable

/-- What is left when all operators have been completed: a construct that is no operator, in its
place. -/
theorem Nested.exists_end (e : Node) (h : Nested .expression pending) :
    ∃ p rest, (reduce 0 e pending).2 = p :: rest ∧ p.isOperator = false ∧
      p.waitsFor = .expression ∧ Nested p.standsFor rest ∧ rest.length < pending.length := by
  induction e, pending using reduce.induct 0 with
  | case1 e op rest ih =>
    cases h with
    | push _ _ hrest =>
      obtain ⟨p, rest', hreduce, hp, hwaits, hnested, hlength⟩ := ih hrest
      exact ⟨p, rest', hreduce, hp, hwaits, hnested, Nat.lt_succ_of_lt hlength⟩
  | case2 e l op own rest hle ih =>
    cases h with
    | push _ _ hrest =>
      obtain ⟨p, rest', hreduce, hp, hwaits, hnested, hlength⟩ := ih hrest
      rw [reduce, if_pos hle]
      exact ⟨p, rest', hreduce, hp, hwaits, hnested, Nat.lt_succ_of_lt hlength⟩
  | case3 e l op own rest hlt => exact absurd (Nat.zero_le own) hlt
  | case4 e pending hnotPre hnotIn =>
    cases h with
    | @push _ p rest _ hwaits hrest =>
      have hp : p.isOperator = false := by
        cases p with
        | prefixOp op => exact absurd rfl (hnotPre op rest)
        | infixOp l op own => exact absurd rfl (hnotIn l op own rest)
        | _ => rfl
      rw [reduce_of_not_isOperator hp]
      exact ⟨p, rest, rfl, hp, hwaits, hrest, Nat.lt_succ_self _⟩

/-- The program can be completed from this place. -/
def Place.Closes : Place → List Pending → Prop
  | statement, pending => Completable ⟨.statement, pending⟩
  | expression, pending => Closable pending

/-- Open constructs that fit can be closed, the innermost first. -/
theorem Nested.closes {place : Place} (h : Nested place pending) : place.Closes pending := by
  induction hlength : pending.length using Nat.strongRecOn generalizing place pending with
  | ind n ih =>
  cases place with
  | statement =>
    cases h with
    | @program done => exact ⟨[], _, _, by simp, rfl, rfl⟩
    | @push _ p rest hown hwaits hrest =>
      cases p <;> first | cases hwaits; done | skip
      have hclosable : Closable rest := ih rest.length (by rw [← hlength]; simp) hrest rfl
      exact hclosable.statements hown
  | expression =>
    refine ⟨fun {st e} hready => ?_⟩
    obtain ⟨p, rest, hreduce, hp, hwaits, hrest, hlt⟩ := h.exists_end e
    generalize hexpr : (reduce 0 e pending).1 = e'
    have hstep : ∀ {k text}, endsExpression k = true →
        step st k text = stepExpressionEnd e' k text (p :: rest) := by
      intro k text hk
      rw [hready.step_end hk, hreduce, hexpr]
    have hclosable : p.standsFor = .expression → Closable rest := by
      intro hplace
      exact ih rest.length (hlength ▸ hlt) (hplace ▸ hrest) rfl
    have hstatement : ∀ s, statement? e' p = some s → p.standsFor = .statement → Completable st := by
      intro s hs hplace
      obtain ⟨owner, done, rest, rfl⟩ := (hplace ▸ hrest).exists_statements
      have hnested : Nested .statement (.statements owner (s :: done) :: rest) :=
        (hplace ▸ hrest).statements
      have hmore : Completable ⟨.statement, .statements owner (s :: done) :: rest⟩ :=
        ih _ (hlength ▸ hlt) hnested rfl
      refine hmore.of_step .semicolon ";" ?_ (by decide)
      rw [hstep rfl]
      cases p <;> first | cases hplace; done | (simp only [stepExpressionEnd, hs]; rfl)
    cases p with
    | statements _ _ => cases hwaits
    | prefixOp _ | infixOp _ _ _ => cases hp
    | letValue _ | returnValue | exprStatement => exact hstatement _ rfl rfl
    | paren | arguments _ _ =>
      exact ((hclosable rfl).completable .operator).of_step .rparen ")"
        (hstep rfl) (by decide)
    | array _ | position _ =>
      exact ((hclosable rfl).completable .operator).of_step .rbracket "]"
        (hstep rfl) (by decide)
    | hashValue _ _ =>
      exact ((hclosable rfl).completable .operator).of_step .rbrace "\x7d"
        (hstep rfl) (by decide)
    | hashKey done =>
      have hvalue : Closable (.hashValue done e' :: rest) := (hclosable rfl).hashValue
      exact hvalue.operand.of_step .colon ":" (hstep rfl) (by decide)
    | condition =>
      exact ((hclosable rfl).blockOpen rfl).of_step .rparen ")" (hstep rfl)
        (by decide)

theorem Nested.closable (h : Nested .expression pending) : Closable pending := h.closes

/-- Behind `let` and a name, the value can be filled in. -/
theorem Nested.letSign (h : Nested .statement pending) (name : String) :
    Completable ⟨.letSign name, pending⟩ := by
  have hnested : Nested .expression (.letValue name :: pending) := .push rfl rfl h
  exact hnested.closable.operand.of_step .assign "=" rfl (by decide)

/-- The parameters of a literal can end behind every name. -/
theorem Closable.paramSign (h : Closable pending) (form : Form) (done : List String) :
    Completable ⟨.paramSign form done, pending⟩ :=
  (h.blockOpen rfl).of_step .rparen ")" rfl (by decide)

theorem Closable.paramFirst (h : Closable pending) (form : Form) :
    Completable ⟨.paramFirst form, pending⟩ :=
  (h.blockOpen rfl).of_step .rparen ")" rfl (by decide)

/-- Every state where all that is open fits can be completed to a program. -/
theorem Fits.completable (h : Fits st) : Completable st := by
  obtain ⟨expect, pending⟩ := st
  obtain ⟨hnested, howned⟩ := h
  cases expect with
  | statement => exact hnested.closes
  | letName => exact (Nested.letSign hnested "x").of_step .ident "x" rfl (by decide)
  | letSign name => exact Nested.letSign hnested name
  | operand => exact (Nested.closable hnested).operand
  | firstItem =>
    exact ((Nested.closable hnested).completable .operator).of_step .int "0" rfl (by decide)
  | operator e => exact (Nested.closable hnested).completable .operator
  | ifOpen =>
    have hcondition : Nested .expression (.condition :: pending) := .push rfl rfl hnested
    exact hcondition.closable.operand.of_step .lparen "(" rfl (by decide)
  | blockOpen owner => exact (Nested.closable hnested).blockOpen howned
  | ifEnd c t => exact (Nested.closable hnested).completable .ifEnd
  | paramsOpen form =>
    exact ((Nested.closable hnested).paramFirst form).of_step .lparen "(" rfl (by decide)
  | paramFirst form => exact (Nested.closable hnested).paramFirst form
  | paramSign form done => exact (Nested.closable hnested).paramSign form done
  | paramName form done =>
    exact ((Nested.closable hnested).paramSign form _).of_step .ident "x" rfl (by decide)

/-- What the parser has taken from the start can be completed to a program. -/
theorem completable_of_read (h : read .initial ws = some st) : Completable st := by
  have hfits : ∀ {st₀}, Fits st₀ → read st₀ ws = some st → Fits st := by
    clear h
    intro st₀ hst₀ h
    induction ws generalizing st₀ with
    | nil =>
      obtain rfl := Option.some.inj h
      exact hst₀
    | cons w ws ih =>
      obtain ⟨st₁, hstep, hrest⟩ := Option.bind_eq_some_iff.1 h
      exact ih (step_fits hst₀ hstep) hrest
  exact (hfits .initial h).completable

/-! ## Tokens taken and refused -/

theorem read_of_steps {tokens : List Token} (h : steps st tokens = .ok st') :
    read st (tokens.map Token.word) = some st' := by
  induction tokens generalizing st with
  | nil => exact congrArg some (Except.ok.inj h)
  | cons t tokens ih =>
    rw [steps_cons] at h
    split at h
    · next st₁ hstep => exact Option.bind_eq_some_iff.2 ⟨st₁, hstep, ih h⟩
    · cases h

/-- The token that is refused, behind those that have been taken. -/
theorem read_of_steps_error {tokens : List Token} {t : Token} (h : steps st tokens = .error t) :
    ∃ before after st', tokens = before ++ t :: after ∧
      read st (before.map Token.word) = some st' ∧ step st' t.kind t.text = none := by
  induction tokens generalizing st with
  | nil => cases h
  | cons t' tokens ih =>
    rw [steps_cons] at h
    split at h
    · next st₁ hstep =>
      obtain ⟨before, after, st', rfl, hread, hrefused⟩ := ih h
      exact ⟨t' :: before, after, st', rfl, Option.bind_eq_some_iff.2 ⟨st₁, hstep, hread⟩, hrefused⟩
    · next hstep =>
      obtain rfl := Except.error.inj h
      exact ⟨[], tokens, st, rfl, rfl, hstep⟩

end Parser

namespace Source
open Monkey.Parser Monkey.Lexer

/-! ## Texts that can be completed -/

/-- The words of a text, up to its end or up to where it cannot be read. -/
def words (source : String) : List Word := (lex source).tokens.map Token.word

/-- The grammar reads the text as a program, however long its numbers are. -/
def Accepted (source : String) : Prop := ∃ p, parseGrammar (lex source) = .ok p

/-- Some text that the grammar reads begins with the words. -/
def Begins (ws : List Word) : Prop := ∃ source, Accepted source ∧ ws <+: words source

/-- The grammar reads no tokens that begin with the words. -/
def Hopeless (ws : List Word) : Prop :=
  ∀ tokens : List Token, ws <+: tokens.map Token.word → ∀ p, parseGrammar ⟨tokens, none⟩ ≠ .ok p

variable {ws : List Word} {st : State}

/-- A word that fills or closes what is open is read in front of a space. -/
theorem words_of_filler {w : Word} {rest : List Char} (hw : w ∈ fillers) (h : Words rest ws) :
    Words (w.2.toList ++ ' ' :: rest) (w :: ws) := by
  have hspace := h.space
  simp only [fillers, List.mem_cons, List.not_mem_nil, or_false] at hw
  rcases hw with rfl | rfl | rfl | rfl | rfl | rfl | rfl | rfl | rfl | rfl
  · exact .word (show "x".toList = ['x'] from rfl) rfl rfl (by decide) breaks_space hspace
  · have hscan : scan '=' (' ' :: rest) = some ⟨.assign, [], ' ' :: rest⟩ := rfl
    exact .token rfl hscan (fun hint => by cases hint) hspace
  · have hzero : Words ('0' :: ([] ++ ' ' :: rest)) ((.int, "0") :: ws) :=
      .number rfl rfl (by decide) breaks_space hspace
    exact hzero
  · exact .sign .semicolon hspace
  · exact .sign .colon hspace
  · exact .sign .lparen hspace
  · exact .sign .rparen hspace
  · exact .sign .rbracket hspace
  · exact .sign .lbrace hspace
  · exact .sign .rbrace hspace

/-- Such words with spaces between them. -/
theorem words_of_fillers (hws : ∀ w ∈ ws, w ∈ fillers) :
    Words (ws.flatMap fun w => w.2.toList ++ [' ']) ws := by
  induction ws with
  | nil => exact .nil
  | cons w ws ih =>
    obtain ⟨hw, hws⟩ := List.forall_mem_cons.1 hws
    have hall := words_of_filler hw (ih hws)
    simpa using hall

/-- What the parser takes of the front of a text begins a text that the grammar reads: the front
of this text, with words behind it that close all that is open. -/
theorem begins_of_front {cs rest : List Char} {tokens : List Token} {q : Position}
    (hfront : Front .start cs tokens q rest)
    (hread : read .initial (tokens.map Token.word) = some st) : Begins (tokens.map Token.word) := by
  obtain ⟨ws, last, p, hfillers, hrest, hfinish⟩ := completable_of_read hread
  obtain ⟨front, -, hcut⟩ := hfront.cut (ws.flatMap fun w => w.2.toList ++ [' '])
  obtain ⟨hstop, hwords, -⟩ := (words_of_fillers hfillers).space q
  have hlex : lex (String.ofList (front ++ ' ' :: ws.flatMap fun w => w.2.toList ++ [' '])) = _ :=
    (congrArg (lexFrom .start) String.toList_ofList).trans hcut.lexFrom
  have hall : words (String.ofList (front ++ ' ' :: ws.flatMap fun w => w.2.toList ++ [' '])) =
      tokens.map Token.word ++ ws := by
    rw [words, hlex, List.map_append, hwords]
  refine ⟨_, ⟨p, parseGrammar_eq_ok.2 ⟨by rw [hlex, hstop], last, steps_of_read ?_, hfinish⟩⟩, ?_⟩
  · show read .initial (words _) = some last
    rw [hall, read_append, hread]
    exact hrest
  · rw [hall]
    exact List.prefix_append _ _

/-- Nothing helps behind a word that the parser refuses. -/
theorem hopeless_of_refused {w : Word} (hread : read .initial ws = some st)
    (hrefused : step st w.1 w.2 = none) : Hopeless (ws ++ [w]) := by
  rintro tokens ⟨more, hwords⟩ p hparse
  obtain ⟨-, last, hsteps, -⟩ := parseGrammar_eq_ok.1 hparse
  have hall : read .initial (tokens.map Token.word) = some last := read_of_steps hsteps
  rw [← hwords, List.append_assoc, read_append, hread] at hall
  simp [hrefused] at hall

/-! ## Where texts go wrong -/

/-- Where and why a text stops being the beginning of a program: at a token that no program has
behind the tokens before it, at its end, or at a character that starts no token. The place of
the error is the one behind the text in front of the token or character. -/
def FailsAt (source : String) (e : ParseError) : Prop :=
  match e with
  | .unexpected t => ∃ before after front rest, (lex source).tokens = before ++ t :: after ∧
      Begins (before.map Token.word) ∧ Hopeless ((before ++ [t]).map Token.word) ∧
      source.toList = front ++ (t.text.toList ++ rest) ∧ e.place = .behind front
  | .unexpectedEnd _ => (lex source).stop = none ∧ Begins (words source)
  | .unreadable c p => (lex source).stop = some (c, p) ∧ Begins (words source) ∧
      ∃ front rest, source.toList = front ++ c :: rest ∧ isLayout c = false ∧
        scan c rest = none ∧ e.place = .behind front

theorem failsAt_unexpected {source : String} {t : Token}
    (h : steps .initial (lex source).tokens = .error t) : FailsAt source (.unexpected t) := by
  obtain ⟨before, after, st, htokens, hread, hrefused⟩ := read_of_steps_error h
  obtain ⟨q, rest, hfront, -⟩ := exists_front .start source.toList
  have htext : (lexFrom .start source.toList).tokens = before ++ t :: after := htokens
  rw [htext] at hfront
  obtain ⟨m, middle, hbefore, hafter⟩ := hfront.split
  obtain ⟨start, hgap, hstarts⟩ := hafter.first
  have hreached := hbefore.append hgap
  rw [List.append_nil] at hreached
  obtain ⟨front, hsource, hplace⟩ := hreached.text
  obtain ⟨more, rfl⟩ := hstarts.text
  have hhopeless : Hopeless ((before ++ [t]).map Token.word) := by
    rw [List.map_append]
    exact hopeless_of_refused hread hrefused
  exact ⟨before, after, front, more, htokens, begins_of_front hbefore hread, hhopeless, hsource,
    hplace.trans (Position.after_start front)⟩

/-- A text whose tokens are all taken begins a text that the grammar reads. -/
theorem begins_of_steps {source : String} (h : steps .initial (lex source).tokens = .ok st) :
    Begins (words source) := by
  obtain ⟨q, rest, hfront, -⟩ := exists_front .start source.toList
  exact begins_of_front hfront (read_of_steps h)

theorem failsAt_unreadable {source : String} {c : Char} {p : Position}
    (hsteps : steps .initial (lex source).tokens = .ok st)
    (hstop : (lex source).stop = some (c, p)) : FailsAt source (.unreadable c p) := by
  obtain ⟨q, rest, hfront, hend⟩ := exists_front .start source.toList
  have hstop' : (lexFrom .start source.toList).stop = some (c, p) := hstop
  rw [hstop'] at hend
  obtain ⟨rfl, hlayout, more, rfl, hscan⟩ := hend
  obtain ⟨front, hsource, hplace⟩ := hfront.text
  exact ⟨hstop, begins_of_steps hsteps, front, more, hsource, hlayout, hscan,
    hplace.trans (Position.after_start front)⟩

/-- A text that is no program is refused where it stops being the beginning of one. At a token:
what stands before it begins a program, with the token nothing does, and the place of the error
is that of the first character of the token. At the end: the whole text begins a program. At a
character: what stands before it begins a program, and no token starts with it. -/
theorem failsAt_of_parse {source : String} {e : ParseError}
    (h : parse source = .error (.malformed e)) : FailsAt source e := by
  have hgrammar : parseGrammar (lex source) = .error e := by
    simp only [parse] at h
    split at h
    · next e' he =>
      cases h
      exact he
    · split at h <;> cases h
  unfold parseGrammar at hgrammar
  split at hgrammar
  · next t hsteps =>
    obtain rfl := Except.error.inj hgrammar
    exact failsAt_unexpected hsteps
  · next st hsteps =>
    split at hgrammar
    · next c p hstop =>
      obtain rfl := Except.error.inj hgrammar
      exact failsAt_unreadable hsteps hstop
    · next hstop =>
      split at hgrammar
      · cases hgrammar
      · obtain rfl := Except.error.inj hgrammar
        exact ⟨hstop, begins_of_steps hsteps⟩

/-- The second line lacks the sign behind the name: the number is refused, at its own place. -/
theorem failsAt_of_parse_second_line :
    let t : Token := ⟨.int, "5", ⟨17, 2, 7⟩, ⟨18, 2, 8⟩⟩
    parse "let x = 1;\nlet y 5;" = .error (.malformed (.unexpected t)) ∧
      FailsAt "let x = 1;\nlet y 5;" (.unexpected t) := by
  intro t
  have hrefused : steps .initial (lex "let x = 1;\nlet y 5;").tokens = .error t := by
    have htokens : (lex "let x = 1;\nlet y 5;").tokens =
        [⟨.kwLet, "let", ⟨0, 1, 1⟩, ⟨3, 1, 4⟩⟩, ⟨.ident, "x", ⟨4, 1, 5⟩, ⟨5, 1, 6⟩⟩,
          ⟨.assign, "=", ⟨6, 1, 7⟩, ⟨7, 1, 8⟩⟩, ⟨.int, "1", ⟨8, 1, 9⟩, ⟨9, 1, 10⟩⟩,
          ⟨.semicolon, ";", ⟨9, 1, 10⟩, ⟨10, 1, 11⟩⟩, ⟨.kwLet, "let", ⟨11, 2, 1⟩, ⟨14, 2, 4⟩⟩,
          ⟨.ident, "y", ⟨15, 2, 5⟩, ⟨16, 2, 6⟩⟩, t,
          ⟨.semicolon, ";", ⟨18, 2, 8⟩, ⟨19, 2, 9⟩⟩] := by decide +kernel
    rw [htokens]
    rfl
  have hparse : parse "let x = 1;\nlet y 5;" = .error (.malformed (.unexpected t)) := by
    simp only [parse, parseGrammar, hrefused]
  exact ⟨hparse, failsAt_of_parse hparse⟩

end Source
end Monkey
