import Mathlib.Data.List.Chain
import Monkey.Console
import Monkey.Node.Equality
import Monkey.Proofs.Partition
import Monkey.Proofs.Spelling

/-!
# Lines without their invisible characters

The prompt takes invisible characters out of a line before it is run. Two of the places
where these can stand in a program have a meaning: within a string, where every
character counts, and between two words or numbers, where a carriage return may be all
that keeps them apart. Everywhere else there is nothing but layout that can go.

So a program is unharmed if its strings have no invisible characters, and no two of its
words and numbers have only carriage returns between them. Then it has the same words
without its invisible characters. Otherwise it weighs less, and is a different program
or none.

## Main definitions

* `Token.RunsInto`, `Token.Apart` — neighbours that would be one token.
* `Unharmed` — taking invisible characters out leaves the tokens as they are.

## Main results

* `Front.spells_cleaned` — the words of a text without its invisible characters.
* `Source.parse_normalize_iff` — it is the same program exactly if it is unharmed.
-/

namespace Monkey

open Monkey.Lexer Monkey.Console

namespace Console

/-- Characters without the invisible ones. -/
def cleaned (cs : List Char) : List Char := cs.filter (!invisible.contains ·)

theorem toList_normalize (text : String) : (normalize text).toList = cleaned text.toList := by
  rw [normalize, String.toList_ofList, cleaned]

variable {c : Char} {cs ds : List Char}

theorem cleaned_cons (hc : c ∉ invisible) : cleaned (c :: cs) = c :: cleaned cs :=
  List.filter_cons_of_pos (by simpa using hc)

theorem cleaned_cons_of_mem (hc : c ∈ invisible) : cleaned (c :: cs) = cleaned cs :=
  List.filter_cons_of_neg (by simpa using hc)

theorem cleaned_append : cleaned (cs ++ ds) = cleaned cs ++ cleaned ds := List.filter_append ..

theorem cleaned_of_visible (h : ∀ c ∈ cs, c ∉ invisible) : cleaned cs = cs :=
  List.filter_eq_self.2 fun c hc => by simpa using h c hc

theorem length_cleaned_lt (h : ∃ c ∈ cs, c ∈ invisible) : (cleaned cs).length < cs.length := by
  obtain ⟨c, hc, hinvisible⟩ := h
  exact List.length_filter_lt_length_iff_exists.2 ⟨c, hc, by simpa using hinvisible⟩

theorem not_invisible_of_isWordPart (h : isWordPart c = true) : c ∉ invisible := by
  have hnone : invisible.all (!isWordPart ·) = true := by decide
  exact fun hc => absurd (List.all_eq_true.1 hnone c hc) (by simp [h])

/-- The only layout that is invisible is the carriage return. -/
theorem mem_invisible_of_isLayout (h : isLayout c = true) : c ∈ invisible ↔ c = '\r' := by
  simp only [isLayout, Bool.or_eq_true, beq_iff_eq] at h
  rcases h with (((rfl | rfl) | rfl) | rfl) | rfl <;> decide

theorem cleaned_of_returns (h : ∀ c ∈ cs, c = '\r') : cleaned cs = [] := by
  refine List.filter_eq_nil_iff.2 fun c hc => ?_
  rw [h c hc]
  decide

/-- Layout that is not carriage returns alone is still there. -/
theorem head_cleaned_of_layout (hlayout : ∀ c ∈ cs, isLayout c = true) (h : ∃ c ∈ cs, c ≠ '\r') :
    ∃ d, (cleaned (cs ++ ds)).head? = some d ∧ isLayout d = true := by
  induction cs with
  | nil => simp at h
  | cons c cs ih =>
    obtain ⟨hc, hmore⟩ := List.forall_mem_cons.1 hlayout
    rw [List.cons_append]
    by_cases hreturn : c = '\r'
    · rw [cleaned_cons_of_mem ((mem_invisible_of_isLayout hc).2 hreturn)]
      exact ih hmore (by simpa [hreturn] using h)
    · rw [cleaned_cons fun hmem => hreturn ((mem_invisible_of_isLayout hc).1 hmem)]
      exact ⟨c, rfl, hc⟩

end Console

/-- With nothing in between, the second of two tokens would be part of the first. -/
def Token.RunsInto (t t' : Token) : Prop :=
  t.kind.isWord = true ∧ (t'.kind.isWord = true ∨ t'.kind = .int) ∨ t.kind = .int ∧ t'.kind = .int

/-- Two neighbours stay apart without carriage returns: they would not run into each other, or have
something else between them. -/
def Token.Apart (source : List Char) (t t' : Token) : Prop :=
  t.RunsInto t' → ∃ c ∈ source.extract t.finish.offset t'.start.offset, c ≠ '\r'

/-- No token of a text has invisible characters, which only strings can have, and no two neighbours
are kept apart by carriage returns alone. -/
structure Unharmed (source : List Char) (ts : List Token) : Prop where
  visible : ∀ t ∈ ts, ∀ c ∈ t.text.toList, c ∉ invisible
  apart : ts.IsChain (Token.Apart source)

instance (t t' : Token) : Decidable (t.RunsInto t') := inferInstanceAs (Decidable (_ ∨ _))

instance (source : List Char) (t t' : Token) : Decidable (t.Apart source t') :=
  decidable_of_iff (t.RunsInto t' →
    (source.extract t.finish.offset t'.start.offset).any (· != '\r') = true)
    (by simp [Token.Apart])

instance (source : List Char) (ts : List Token) : Decidable (Unharmed source ts) :=
  decidable_of_iff ((ts.all fun t => t.text.toList.all (!invisible.contains ·)) = true ∧
    ts.IsChain (Token.Apart source))
    ⟨fun h => ⟨by simpa using h.1, h.2⟩, fun h => ⟨by simpa using h.visible, h.apart⟩⟩

theorem unharmed_cons {source : List Char} {t : Token} {ts : List Token} :
    Unharmed source (t :: ts) ↔ (∀ c ∈ t.text.toList, c ∉ invisible) ∧
      (∀ t' ∈ ts.head?, t.Apart source t') ∧ Unharmed source ts := by
  constructor
  · rintro ⟨hvisible, hapart⟩
    obtain ⟨htext, hvisible⟩ := List.forall_mem_cons.1 hvisible
    obtain ⟨hhead, hapart⟩ := List.isChain_cons.1 hapart
    exact ⟨htext, hhead, hvisible, hapart⟩
  · rintro ⟨htext, hhead, hvisible, hapart⟩
    exact ⟨List.forall_mem_cons.2 ⟨htext, hvisible⟩, List.isChain_cons.2 ⟨hhead, hapart⟩⟩

/-! ## Signs in programs -/

/-- Where two signs would be one without anything in between. -/
def Token.SignsApart (t t' : Token) : Prop :=
  t.kind = .assign ∨ t.kind = .bang → t'.kind ≠ .assign ∧ t'.kind ≠ .eq

namespace Parser

section
variable {st' : State} {k : TokenKind} {text : String} {pending : List Pending}
  (hk : k = .assign ∨ k = .bang)
include hk

theorem expect_of_beginOperand (h : beginOperand k text pending = some st') :
    st'.expect = .operand := by
  rcases hk with rfl | rfl
  · cases h
  · obtain rfl := Option.some.inj h
    rfl

theorem expect_of_stepStatement (h : stepStatement k text pending = some st') :
    st'.expect = .operand := by
  have hbegin : beginOperand k text (.exprStatement :: pending) = some st' := by
    rcases hk with rfl | rfl <;> exact h
  exact expect_of_beginOperand hk hbegin

/-- Where an expression ends, an equals sign or an exclamation mark can only begin a statement. -/
theorem expect_of_stepExpressionEnd {e : Node}
    (h : stepExpressionEnd e k text pending = some st') : st'.expect = .operand := by
  have hnot : k ≠ .rparen ∧ k ≠ .rbracket ∧ k ≠ .colon ∧ k ≠ .semicolon := by
    rcases hk with rfl | rfl <;> decide
  obtain ⟨hparen, hbracket, hcolon, hsemicolon⟩ := hnot
  unfold stepExpressionEnd at h
  split at h
  · simp [hparen] at h
  · simp [hparen] at h
  · simp [hbracket] at h
  · rcases hk with rfl | rfl <;> cases h
  · rcases hk with rfl | rfl <;> cases h
  · simp [hcolon] at h
  · rcases hk with rfl | rfl <;> cases h
  · split at h
    · cases h
    · exact expect_of_stepStatement hk (by rwa [if_neg hsemicolon] at h)
  · cases h

theorem expect_of_stepOperator {e : Node} (h : stepOperator e k text pending = some st') :
    st'.expect = .operand := by
  have hend : stepExpressionEnd (reduce 0 e pending).1 k text (reduce 0 e pending).2 =
      some st' := by
    rcases hk with rfl | rfl <;> exact h
  exact expect_of_stepExpressionEnd hk hend

theorem expect_of_stepFirstItem (h : stepFirstItem k text pending = some st') :
    st'.expect = .operand := by
  have hbegin : beginOperand k text pending = some st' := by
    rcases hk with rfl | rfl <;> exact h
  exact expect_of_beginOperand hk hbegin

/-- Behind an equals sign or an exclamation mark an operand has to follow. -/
theorem expect_of_step {st : State} (h : step st k text = some st') : st'.expect = .operand := by
  have hnot : k ≠ .ident ∧ k ≠ .lparen ∧ k ≠ .lbrace ∧ k ≠ .kwElse := by
    rcases hk with rfl | rfl <;> decide
  obtain ⟨hident, hparen, hbrace, helse⟩ := hnot
  unfold step at h
  split at h
  · exact expect_of_stepStatement hk h
  · simp [hident] at h
  · split at h
    · obtain rfl := Option.some.inj h
      rfl
    · cases h
  · exact expect_of_beginOperand hk h
  · exact expect_of_stepFirstItem hk h
  · exact expect_of_stepOperator hk h
  · simp [hparen] at h
  · simp [hbrace] at h
  · rw [if_neg helse] at h
    exact expect_of_stepOperator hk h
  · simp [hparen] at h
  · rcases hk with rfl | rfl <;> cases h
  · rcases hk with rfl | rfl <;> cases h
  · simp [hident] at h

end

/-- No operand starts with an equals sign. -/
theorem step_operand {st : State} {k : TokenKind} {text : String} (hst : st.expect = .operand)
    (hk : k = .assign ∨ k = .eq) : step st k text = none := by
  rw [step, hst]
  rcases hk with rfl | rfl <;> rfl

/-- No two signs of a program would be one without anything in between. -/
theorem signsApart_of_steps {st st' : State} {ts : List Token} (h : steps st ts = .ok st') :
    ts.IsChain Token.SignsApart := by
  induction ts generalizing st with
  | nil => exact .nil
  | cons t ts ih =>
    rw [steps_cons] at h
    split at h
    · next st₁ hstep =>
      refine List.isChain_cons.2 ⟨fun t' ht' hk => ?_, ih h⟩
      obtain ⟨ts', rfl⟩ := List.head?_eq_some_iff.1 ht'
      have hoperand := expect_of_step hk hstep
      constructor
      all_goals
        intro hk'
        rw [steps_cons, step_operand hoperand (by simp [hk'])] at h
        cases h
    · cases h

end Parser

/-! ## What a text goes on with -/

namespace Lexer
variable {p q : Position} {c : Char} {cs middle passed rest : List Char} {ts : List Token}
  {t : Token}

/-- What a terminal matches begins, by its first character, a token of a certain kind. -/
theorem kind_of_head {T : Terminal} {more : List Char} {s : String} {k : TokenKind}
    (hfits : T.Matches (c :: more)) (hlabels : T.Labels s k) :
    c ∉ invisible ∧ (isWordPart c = true ↔ k.isWord = true ∨ k = .int) ∧
      (isNumeric c = true ↔ k = .int) ∧ (c = '=' ↔ k = .assign ∨ k = .eq) := by
  cases hfits with
  | layout _ _ => cases hlabels
  | word hword _ =>
    have hpart : isWordPart c = true := by rw [isWordPart, hword, Bool.true_or]
    have hkind : k.isWord = true := isWord_of_labels hlabels
    have hnumeric : isNumeric c = false := by
      by_contra hnumeric
      rw [Bool.not_eq_false] at hnumeric
      exact absurd hword (by simp [not_isWordStart_of_isNumeric hnumeric])
    have hequals : c ≠ '=' := by
      rintro rfl
      cases hword
    refine ⟨not_invisible_of_isWordPart hpart, by simp [hpart, hkind], ?_, ?_⟩
    · simp only [hnumeric, Bool.false_eq_true, false_iff]
      rintro rfl
      cases hkind
    · simp only [hequals, false_iff]
      rintro (rfl | rfl) <;> cases hkind
  | number hnumeric _ =>
    have hpart : isWordPart c = true := by rw [isWordPart, hnumeric, Bool.or_true]
    have hequals : c ≠ '=' := by
      rintro rfl
      cases hnumeric
    cases hlabels
    exact ⟨not_invisible_of_isWordPart hpart, by simp [hpart], by simp [hnumeric], by simp [hequals]⟩
  | string _ =>
    cases hlabels
    decide
  | sign hsign =>
    have hsigns : ∀ e ∈ signs, e.1.headD ' ' ∉ invisible ∧
        (isWordPart (e.1.headD ' ') = true ↔ e.2.isWord = true ∨ e.2 = .int) ∧
        (isNumeric (e.1.headD ' ') = true ↔ e.2 = .int) ∧
        (e.1.headD ' ' = '=' ↔ e.2 = .assign ∨ e.2 = .eq) := by decide
    cases hlabels
    exact hsigns _ hsign

/-- A token starts with a character that is not layout and says what kind of token it is. -/
theorem StartsAt.head (h : StartsAt t cs) : ∃ d more, cs = d :: more ∧
    t.text.toList.head? = some d ∧ isLayout d = false ∧ d ∉ invisible ∧
    (isWordPart d = true ↔ t.kind.isWord = true ∨ t.kind = .int) ∧
    (isNumeric d = true ↔ t.kind = .int) ∧ (d = '=' ↔ t.kind = .assign ∨ t.kind = .eq) := by
  obtain ⟨d, more, rest, kind, rfl, hd, hscan, ht⟩ := h
  obtain ⟨T, hfits, hlabels⟩ := exists_terminal_of_scan hscan
  have hkind : t.kind = kind := congrArg Token.kind ht
  obtain ⟨hvisible, hword, hnumeric, hequals⟩ := kind_of_head hfits hlabels
  refine ⟨d, _, rfl, ?_, hd, hvisible, hkind ▸ hword, hkind ▸ hnumeric, hkind ▸ hequals⟩
  rw [ht, String.toList_ofList]
  rfl

/-- Behind a place, either something that is not a carriage return stands in front of the first
token, and then a text without its invisible characters goes on with layout, or it goes on with the
token. -/
theorem Front.head_cleaned (h : Front (Position.behind passed) cs (t :: ts) q rest) :
    ((∃ d ∈ (passed ++ cs).extract passed.length t.start.offset, d ≠ '\r') ∧
        ∃ d, (cleaned cs).head? = some d ∧ isLayout d = true) ∨
      ((∀ d ∈ (passed ++ cs).extract passed.length t.start.offset, d = '\r') ∧
        (cleaned cs).head? = t.text.toList.head?) := by
  obtain ⟨middle, hfront, hstarts⟩ := h.first
  obtain ⟨gap, rfl, hstart, hgap⟩ := hfront.layout_of_nil
  obtain ⟨d, more, rfl, htext, -, hvisible, -⟩ := hstarts.head
  have hextract : (passed ++ (gap ++ d :: more)).extract passed.length t.start.offset = gap := by
    rw [hstart, Position.offset_after, Position.offset_behind]
    simp [List.extract]
  rw [hextract]
  by_cases hreturns : ∀ d ∈ gap, d = '\r'
  · rw [cleaned_append, cleaned_of_returns hreturns, List.nil_append, cleaned_cons hvisible, htext]
    exact .inr ⟨hreturns, rfl⟩
  · push Not at hreturns
    exact .inl ⟨hreturns, head_cleaned_of_layout hgap hreturns⟩

theorem Front.head_cleaned_of_nil (h : Front p cs [] q []) :
    ∀ c ∈ (cleaned cs).head?, isLayout c = true := by
  obtain ⟨gap, rfl, -, hgap⟩ := h.layout_of_nil
  intro c hc
  rw [List.append_nil] at hc
  exact hgap c (List.mem_filter.1 (List.mem_of_mem_head? hc)).1

/-- A token of a kind would take the next character of a text too. -/
def Continues (k : TokenKind) (cs : List Char) : Prop :=
  k.isWord = true ∧ (∃ c ∈ cs.head?, isWordPart c = true) ∨
    k = .int ∧ ∃ c ∈ cs.head?, isNumeric c = true

theorem continues_of_isWord {k : TokenKind} (hk : k.isWord = true) :
    Continues k cs ↔ ∃ c ∈ cs.head?, isWordPart c = true := by
  have hint : k ≠ .int := by
    rintro rfl
    cases hk
  simp [Continues, hk, hint]

theorem continues_int : Continues .int cs ↔ ∃ c ∈ cs.head?, isNumeric c = true := by
  simp [Continues, TokenKind.isWord]

theorem not_continues_of_layout {k : TokenKind} (h : ∀ c ∈ cs.head?, isLayout c = true) :
    ¬ Continues k cs := by
  rintro (⟨-, c, hc, hpart⟩ | ⟨-, c, hc, hnumeric⟩)
  · exact absurd hpart (by simp [not_isWordPart_of_isLayout (h c hc)])
  · exact absurd (h c hc) (by simp [not_isLayout_of_isNumeric hnumeric])

/-- Without its invisible characters a text does not go on with a token in front of it exactly if
this token and the next one are apart. -/
theorem Front.apart_iff (h : Front (Position.behind passed) cs ts q [])
    (ht : t.finish.offset = passed.length) :
    (∀ t' ∈ ts.head?, t.Apart (passed ++ cs) t') ↔ ¬ Continues t.kind (cleaned cs) := by
  cases ts with
  | nil =>
    exact iff_of_true nofun (not_continues_of_layout h.head_cleaned_of_nil)
  | cons t' us =>
    have hnext : (∀ t'' ∈ (t' :: us).head?, t.Apart (passed ++ cs) t'') ↔
        t.Apart (passed ++ cs) t' := by simp
    rw [hnext, Token.Apart, ht]
    rcases h.head_cleaned with ⟨hgap, d, hd, hlayout⟩ | ⟨hgap, hhead⟩
    · have hnot : ¬ Continues t.kind (cleaned cs) :=
        not_continues_of_layout fun c hc => by
          rw [hd] at hc
          exact Option.some.inj hc ▸ hlayout
      exact ⟨fun _ => hnot, fun _ _ => hgap⟩
    · obtain ⟨middle, -, hstarts⟩ := h.first
      obtain ⟨d, more, -, htext, -, -, hpart, hnumeric, -⟩ := hstarts.head
      have hruns : Continues t.kind (cleaned cs) ↔ t.RunsInto t' := by
        rw [Continues, Token.RunsInto, hhead, htext]
        simp [hpart, hnumeric]
      have hnone : ¬ ∃ c ∈ (passed ++ cs).extract passed.length t'.start.offset, c ≠ '\r' := by
        rintro ⟨c, hc, hne⟩
        exact hne (hgap c hc)
      rw [hruns]
      exact ⟨fun hapart hr => hnone (hapart hr), fun hr hr' => absurd hr' hr⟩

/-- What is read behind a sign does not go on with it. -/
theorem Front.not_equals (h : Front (Position.behind passed) cs ts q [])
    (hsigns : ∀ t' ∈ ts.head?, t.SignsApart t') (ht : t.kind = .assign ∨ t.kind = .bang) :
    (cleaned cs).head? ≠ some '=' := by
  intro hequals
  cases ts with
  | nil =>
    cases h.head_cleaned_of_nil '=' hequals
  | cons t' us =>
    obtain ⟨hassign, heq⟩ := hsigns t' rfl ht
    rcases h.head_cleaned with ⟨-, d, hd, hlayout⟩ | ⟨-, hhead⟩
    · obtain rfl : d = '=' := Option.some.inj (hd.symm.trans hequals)
      cases hlayout
    · obtain ⟨middle, -, hstarts⟩ := h.first
      obtain ⟨d, more, -, htext, -, -, -, -, hkind⟩ := hstarts.head
      obtain rfl : d = '=' := Option.some.inj (htext.symm.trans (hhead.symm.trans hequals))
      rcases hkind.1 rfl with h' | h'
      · exact hassign h'
      · exact heq h'

/-! ## What a text spells without its invisible characters -/

/-- What a token and the text behind it spell without their invisible characters: the token as it
was and what the text spells, or something that weighs less, because the token has lost some
characters or taken some. -/
theorem spells_cleaned_token {more : List Char} {kind : TokenKind} {ws : List Word}
    (hc : isLayout c = false) (hscan : scan c (more ++ rest) = some ⟨kind, more, rest⟩)
    (hequals : kind = .assign ∨ kind = .bang → (cleaned rest).head? ≠ some '=')
    (hrest : Spells (cleaned rest) ws) :
    let w : Word := (kind, String.ofList (c :: more))
    let harmed := (∃ d ∈ c :: more, d ∈ invisible) ∨ Continues kind (cleaned rest)
    ∃ ws', Spells (cleaned (c :: (more ++ rest))) ws' ∧
      (¬ harmed ∧ ws' = w :: ws ∨ harmed ∧ Word.weights ws' < Word.weights (w :: ws)) := by
  intro w harmed
  obtain ⟨T, hfits, hlabels⟩ := exists_terminal_of_scan hscan
  dsimp only at hfits hlabels
  rw [← List.cons_append, cleaned_append]
  cases hfits with
  | layout hlayout _ => exact absurd hlayout (by simp [hc])
  | word hword hmore =>
    have hvisible : ∀ d ∈ c :: more, d ∉ invisible := List.forall_mem_cons.2
      ⟨not_invisible_of_isWordPart (by rw [isWordPart, hword, Bool.true_or]),
        fun d hd => not_invisible_of_isWordPart (hmore d hd)⟩
    have hkind : kind = TokenKind.ofWord (String.ofList (c :: more)) := by
      obtain ⟨hkind, htake, -⟩ := Cut.mk.inj
        (Option.some.inj ((scan_of_isWordStart hword _).symm.trans hscan))
      rw [← hkind, htake]
    have hharmed : harmed ↔ ∃ d ∈ (cleaned rest).head?, isWordPart d = true := by
      rw [← continues_of_isWord (isWord_of_labels hlabels)]
      exact or_iff_right (by simpa using hvisible)
    rw [hharmed, cleaned_of_visible hvisible]
    subst hkind
    exact hrest.word hword hmore
  | number hnumeric hmore =>
    have hpart : ∀ d, isNumeric d = true → isWordPart d = true := fun d hd => by
      rw [isWordPart, hd, Bool.or_true]
    have hvisible : ∀ d ∈ c :: more, d ∉ invisible := List.forall_mem_cons.2
      ⟨not_invisible_of_isWordPart (hpart c hnumeric),
        fun d hd => not_invisible_of_isWordPart (hpart d (hmore d hd))⟩
    have hharmed : harmed ↔ ∃ d ∈ (cleaned rest).head?, isNumeric d = true := by
      cases hlabels
      rw [← continues_int]
      exact or_iff_right (by simpa using hvisible)
    rw [hharmed, cleaned_of_visible hvisible]
    cases hlabels
    exact hrest.number hnumeric hmore
  | @string inner hinner =>
    cases hlabels
    have hinner' : '"' ∉ cleaned inner := fun hmem => hinner (List.mem_filter.1 hmem).1
    have htext : cleaned ('"' :: (inner ++ ['"'])) ++ cleaned rest =
        '"' :: (cleaned inner ++ '"' :: cleaned rest) := by
      have hquote : cleaned ['"'] = ['"'] := rfl
      rw [cleaned_cons (by decide), cleaned_append, hquote]
      simp
    have hharmed : harmed ↔ ∃ d ∈ inner, d ∈ invisible := by
      have hquote : '"' ∉ invisible := by decide
      simp [harmed, Continues, TokenKind.isWord, hquote, or_and_right, exists_or]
    rw [hharmed, htext]
    refine ⟨_, hrest.string hinner', ?_⟩
    by_cases hlost : ∃ d ∈ inner, d ∈ invisible
    · refine .inr ⟨hlost, ?_⟩
      rw [Word.weights_cons, Word.weights_cons, Word.weight_string, Word.weight_string]
      exact Nat.add_lt_add_right (length_cleaned_lt hlost) _
    · refine .inl ⟨hlost, ?_⟩
      rw [cleaned_of_visible fun d hd hinvisible => hlost ⟨d, hd, hinvisible⟩]
  | sign hsign =>
    cases hlabels
    have hsigns : ∀ e ∈ signs, e.1.all (!invisible.contains ·) = true ∧ e.2.isWord = false ∧
        e.2 ≠ .int := by decide
    obtain ⟨hall, hword, hint⟩ := hsigns _ hsign
    have hvisible : ∀ d ∈ c :: more, d ∉ invisible := by simpa using hall
    rw [cleaned_of_visible hvisible]
    refine ⟨_, hrest.sign hsign hequals, .inl ⟨?_, rfl⟩⟩
    rintro (⟨d, hd, hinvisible⟩ | ⟨hword', -⟩ | ⟨hint', -⟩)
    · exact hvisible d hd hinvisible
    · exact absurd hword' (by simp [hword])
    · exact hint hint'

/-- What is left of a text without its invisible characters is read to its end. If its tokens are
unharmed it spells the same, and otherwise it weighs less. -/
theorem Front.spells_cleaned (h : Front (Position.behind passed) cs ts q [])
    (hsigns : ts.IsChain Token.SignsApart) :
    ∃ ws, Spells (cleaned cs) ws ∧
      (Unharmed (passed ++ cs) ts ∧ ws = ts.map Token.word ∨
        ¬ Unharmed (passed ++ cs) ts ∧ Word.weights ws < Word.weights (ts.map Token.word)) := by
  generalize hp : Position.behind passed = p at h
  generalize hend : [] = rest at h
  induction h generalizing passed with
  | done =>
    subst hend
    exact ⟨[], .nil, .inl ⟨⟨nofun, .nil⟩, rfl⟩⟩
  | @layout p q c cs rest ts hc hfront ih =>
    subst hp hend
    obtain ⟨ws, hws, hcases⟩ := ih hsigns (Position.behind_snoc passed c) rfl
    rw [List.append_assoc, List.singleton_append] at hcases
    refine ⟨ws, ?_, hcases⟩
    by_cases hinvisible : c ∈ invisible
    · rwa [cleaned_cons_of_mem hinvisible]
    · rw [cleaned_cons hinvisible]
      exact .layout hc hws
  | @token p q c kind more middle rest ts hc hscan hfront ih =>
    subst hp hend
    obtain ⟨hnext, hsigns⟩ := List.isChain_cons.1 hsigns
    rw [← Position.behind_append] at hfront
    obtain ⟨ws, hws, hcases⟩ := ih hsigns (Position.behind_append ..) rfl
    rw [List.append_assoc, List.cons_append] at hcases
    obtain ⟨ws', hws', htoken⟩ := spells_cleaned_token hc hscan (hfront.not_equals hnext) hws
    have hfinish : ((Position.behind passed).after (c :: more)).offset =
        (passed ++ c :: more).length := by
      rw [← Position.behind_append, Position.offset_behind]
    let t : Token := ⟨kind, String.ofList (c :: more), Position.behind passed,
      (Position.behind passed).after (c :: more)⟩
    have hapart : (∀ t' ∈ ts.head?, t.Apart (passed ++ c :: (more ++ middle)) t') ↔
        ¬ Continues kind (cleaned middle) := by
      have hiff := hfront.apart_iff (t := t) hfinish
      rwa [List.append_assoc, List.cons_append] at hiff
    have hvisible : (∀ d ∈ t.text.toList, d ∉ invisible) ↔ ¬ ∃ d ∈ c :: more, d ∈ invisible := by
      simp [t]
    have hle : Word.weights ws ≤ Word.weights (ts.map Token.word) := by
      rcases hcases with ⟨-, rfl⟩ | ⟨-, hless⟩
      · exact Nat.le_refl _
      · exact Nat.le_of_lt hless
    rw [unharmed_cons, hapart, hvisible]
    refine ⟨ws', hws', ?_⟩
    rcases htoken with ⟨hsame, rfl⟩ | ⟨hharmed, hless⟩
    · obtain ⟨hkept, hstops⟩ := not_or.1 hsame
      rcases hcases with ⟨hunharmed, rfl⟩ | ⟨hharmed, hless⟩
      · exact .inl ⟨⟨hkept, hstops, hunharmed⟩, rfl⟩
      · exact .inr ⟨fun h => hharmed h.2.2, Nat.add_lt_add_left hless _⟩
    · refine .inr ⟨fun h => hharmed.elim h.1 h.2.1, Nat.lt_of_lt_of_le hless ?_⟩
      exact Nat.add_le_add_left hle _

end Lexer

namespace Source

/-- Taking the invisible characters out of a program leaves the same program exactly if no string of
it has any and no two of its words and numbers are kept apart by carriage returns alone; and then
running it is running the program as it was. -/
theorem parse_normalize_iff {text : String} {p : Node} (h : parse text = .ok p) :
    (parse (normalize text) = .ok p ↔ Unharmed text.toList (lex text).tokens) ∧
      (Unharmed text.toList (lex text).tokens → ∀ s : Session,
        s.submit (normalize text) = s.submit text ∧ s.run (normalize text) = s.run text) := by
  obtain ⟨hstop, st, hsteps, -⟩ := parseGrammar_eq_ok.1 (parse_eq_ok.1 h).1
  obtain ⟨q, hfront⟩ := exists_front_of_stop hstop
  -- Reading starts behind nothing.
  change Front (Position.behind []) _ _ _ _ at hfront
  obtain ⟨ws, hws, hcases⟩ := hfront.spells_cleaned (Parser.signsApart_of_steps hsteps)
  rw [← toList_normalize] at hws
  obtain ⟨hstop', hwords⟩ := hws.lexes
  have hparse : parse (normalize text) = .ok p ↔ Unharmed text.toList (lex text).tokens := by
    rcases hcases with ⟨hunharmed, rfl⟩ | ⟨hharmed, hless⟩
    · exact iff_of_true (parse_of_same_words hwords hstop' h) hunharmed
    · refine iff_of_false (fun hsame => ?_) hharmed
      have hweight := weights_of_parse hsame
      rw [hwords] at hweight
      rw [weights_of_parse h, hweight] at hless
      exact Nat.lt_irrefl _ hless
  refine ⟨hparse, fun hunharmed s => ?_⟩
  have hsame := (hparse.2 hunharmed).trans h.symm
  constructor
  · rw [Session.submit, Session.submit, Session.withSource, Session.withSource, hsame]
  · rw [Session.run, Session.run, Session.withSource, Session.withSource, hsame]

/-- Carriage returns at the ends of lines, and others that have something beside them that keeps
what is around them apart. -/
theorem parse_normalize_iff_line_ends :
    let text := "let x = 1;\r\nx +\r\"a b\";\r \rx"
    let p : Node := .program [.letStmt "x" (.int 1),
      .exprStmt (.infixOp (.ident "x") "+" (.str "a b")), .exprStmt (.ident "x")]
    parse text = .ok p ∧ Unharmed text.toList (lex text).tokens ∧
      parse (normalize text) = .ok p ∧ ∀ s : Session,
        s.submit (normalize text) = s.submit text ∧ s.run (normalize text) = s.run text := by
  intro text p
  have hparse : parse text = .ok p := parse_of_toOption (by decide +kernel)
  have hunharmed : Unharmed text.toList (lex text).tokens := by decide +kernel
  obtain ⟨hiff, hruns⟩ := parse_normalize_iff hparse
  exact ⟨hparse, hunharmed, hiff.2 hunharmed, hruns hunharmed⟩

/-- A string loses its invisible character, two numbers that only a carriage return keeps apart
become one, and a keyword and the name behind it become a name. -/
theorem normalize_changes_programs :
    (parse "\"a\u200bb\"" = .ok (.program [.exprStmt (.str "a\u200bb")]) ∧
      parse (normalize "\"a\u200bb\"") = .ok (.program [.exprStmt (.str "ab")]) ∧
      Node.program [.exprStmt (.str "a\u200bb")] ≠ .program [.exprStmt (.str "ab")]) ∧
    (parse "1\r2" = .ok (.program [.exprStmt (.int 1), .exprStmt (.int 2)]) ∧
      parse (normalize "1\r2") = .ok (.program [.exprStmt (.int 12)])) ∧
    parse "let\rx = 1" = .ok (.program [.letStmt "x" (.int 1)]) ∧
      (parse (normalize "let\rx = 1")).toOption = none := by
  refine ⟨⟨?_, ?_, by decide +kernel⟩, ⟨?_, ?_⟩, ?_, by decide +kernel⟩
  all_goals exact parse_of_toOption (by decide +kernel)

end Source

end Monkey
