import Mathlib.Data.List.TakeWhile
import Monkey.Console
import Monkey.Editor
import Monkey.Node.Equality
import Monkey.Proofs.ParserSound
import Monkey.Proofs.Terminals

/-!
# Programs at the prompt

While a line is typed, brackets are counted character by character, with strings told
apart by their quotes and nothing known of tokens and grammar; and a line that starts
with a slash is taken for a command. Neither stands in the way of a program. A token
changes the count by what kind it is, every part of a program leaves the count as it
was, and no program starts with a slash.

## Main definitions

* `TokenKind.bracket` — the brackets that are open behind a token.

## Main results

* `Front.foldl_next` — brackets can be counted token by token.
* `Derives.foldl_bracket` — every phrase closes the brackets that it opens.
* `Source.ofLine?_of_parse` — programs are no commands.
* `Console.never_in_the_way` — programs are handed over, and run.
-/

namespace Monkey

open Monkey.Lexer Monkey.Editor

/-! ## Counting brackets token by token -/

/-- How many brackets are open behind a token of a kind. -/
def TokenKind.bracket (depth : Nat) : TokenKind → Nat
  | .lparen | .lbracket | .lbrace => depth + 1
  | .rparen | .rbracket | .rbrace => depth - 1
  | _ => depth

namespace Editor

/-- The characters that the count of brackets depends on. -/
def marks : List Char := ['"', '(', '[', '\x7b', ')', ']', '\x7d']

theorem Brackets.next_of_not_mem {c : Char} (hc : c ∉ marks) (b : Brackets) : b.next c = b := by
  simp only [marks, List.mem_cons, List.not_mem_nil, not_or] at hc
  simp [next, hc]

section
variable (good : Char → Bool) (hgood : marks.all (!good ·) = true)
include hgood

/-- Characters of a class without quotes and brackets are not counted. -/
theorem Brackets.next_of_good {c : Char} (hc : good c = true) (b : Brackets) : b.next c = b :=
  next_of_not_mem (fun hmem => absurd (List.all_eq_true.1 hgood c hmem) (by simp [hc])) b

theorem foldl_next_of_good {cs : List Char} (hcs : ∀ c ∈ cs, good c = true) (b : Brackets) :
    cs.foldl Brackets.next b = b := by
  induction cs with
  | nil => rfl
  | cons c cs ih =>
    obtain ⟨hc, hmore⟩ := List.forall_mem_cons.1 hcs
    rw [List.foldl_cons, Brackets.next_of_good good hgood hc, ih hmore]

end

/-- Within a string nothing is counted. -/
theorem foldl_next_inString {inner : List Char} (hinner : '"' ∉ inner) (depth : Nat) :
    inner.foldl Brackets.next ⟨depth, true⟩ = ⟨depth, true⟩ := by
  induction inner with
  | nil => rfl
  | cons c inner ih =>
    obtain ⟨hc, hmore⟩ := List.ne_and_not_mem_of_not_mem_cons hinner
    have hnext : Brackets.next ⟨depth, true⟩ c = ⟨depth, true⟩ := by
      simp [Brackets.next, hc.symm]
    rw [List.foldl_cons, hnext, ih hmore]

theorem foldl_next_sign {e : List Char × TokenKind} (he : e ∈ signs) (depth : Nat) :
    e.1.foldl Brackets.next ⟨depth, false⟩ = ⟨e.2.bracket depth, false⟩ := by
  revert e
  simp [signs, Brackets.next, TokenKind.bracket]

theorem bracket_of_mem_keywords {e : String × TokenKind} (he : e ∈ TokenKind.keywords)
    (depth : Nat) : e.2.bracket depth = depth := by
  revert e
  simp [TokenKind.keywords, TokenKind.bracket]

/-- A token changes the count of brackets by its kind, whatever characters it is made of. -/
theorem foldl_next_of_matches {T : Terminal} {text : List Char} {s : String} {k : TokenKind}
    (hfits : T.Matches text) (hlabels : T.Labels s k) (depth : Nat) :
    text.foldl Brackets.next ⟨depth, false⟩ = ⟨k.bracket depth, false⟩ := by
  cases hfits with
  | layout _ _ => cases hlabels
  | @word c more hc hmore =>
    have hstart : isWordPart c = true := by rw [isWordPart, hc, Bool.true_or]
    rw [foldl_next_of_good isWordPart (by decide) (List.forall_mem_cons.2 ⟨hstart, hmore⟩)]
    cases hlabels with
    | keyword hk => rw [bracket_of_mem_keywords hk]
    | name _ => rfl
  | number hc hmore =>
    rw [foldl_next_of_good isNumeric (by decide) (List.forall_mem_cons.2 ⟨hc, hmore⟩)]
    cases hlabels
    rfl
  | string hinner =>
    cases hlabels
    have hopen : Brackets.next ⟨depth, false⟩ '"' = ⟨depth, true⟩ := rfl
    rw [List.foldl_cons, hopen, List.foldl_append, foldl_next_inString hinner]
    rfl
  | sign hsign =>
    cases hlabels
    exact foldl_next_sign hsign depth

end Editor

/-- Brackets can be counted token by token. -/
theorem Lexer.Front.foldl_next {p q : Position} {cs rest : List Char} {ts : List Token}
    (h : Front p cs ts q rest) (depth : Nat) :
    cs.foldl Brackets.next ⟨depth, false⟩ =
      rest.foldl Brackets.next ⟨(ts.map Token.kind).foldl TokenKind.bracket depth, false⟩ := by
  induction h generalizing depth with
  | done => rfl
  | @layout p q c cs rest ts hc _ ih =>
    rw [List.foldl_cons, Brackets.next_of_good isLayout (by decide) hc, ih]
  | @token p q c kind more middle rest ts hc hscan _ ih =>
    obtain ⟨T, hfits, hlabels⟩ := exists_terminal_of_scan hscan
    have htoken := foldl_next_of_matches hfits hlabels depth
    rw [← List.cons_append, List.foldl_append, htoken, ih]
    rfl

/-- Every phrase closes the brackets that it opens. -/
theorem Derives.foldl_bracket {strict : Bool} {p : Phrase} {ws : List Word}
    (h : Derives strict p ws) (depth : Nat) :
    (ws.map Prod.fst).foldl TokenKind.bracket depth = depth := by
  have hterminator : ∀ {wt : List Word}, Terminator strict wt →
      ∀ depth, (wt.map Prod.fst).foldl TokenKind.bracket depth = depth := by
    intro wt ht depth
    cases ht <;> rfl
  have hbinary : ∀ {k : TokenKind} {level : Nat}, Infix k level →
      ∀ depth, k.bracket depth = depth := by
    intro k level hk depth
    cases hk <;> rfl
  induction h generalizing depth with
  | letStmt _ ht ih | returnStmt _ ht ih | exprStmt _ ht ih =>
    simp [TokenKind.bracket, ih, hterminator ht]
  | infixOp hk _ _ ihl ihr => simp [hbinary hk, ihl, ihr]
  | prefixOp hk _ ih => rcases hk with rfl | rfl <;> simp [TokenKind.bracket, ih]
  | @literal _ _ _ form _ _ _ _ _ _ ihn ihb =>
    cases form <;> simp [Parser.Form.keyword, TokenKind.bracket, ihn, ihb]
  | block _ ih | paren _ ih | array _ ih | hash _ ih => simp [TokenKind.bracket, ih]
  | call _ _ ihl ihr | index _ _ ihl ihr => simp [TokenKind.bracket, ihl, ihr]
  | ifExpr _ _ ihc iht => simp [TokenKind.bracket, ihc, iht]
  | ifElse _ _ _ ihc iht ihe => simp [TokenKind.bracket, ihc, iht, ihe]
  | _ => simp_all [TokenKind.bracket]

/-- No bracket is open at the end of a program. -/
theorem Source.openDepth_of_parse {source : String} {p : Node} (h : parse source = .ok p) :
    openDepth source.toList = 0 := by
  obtain ⟨ws, ⟨hstop, rfl⟩, hderives⟩ := parse_sound h
  obtain ⟨q, hfront⟩ := exists_front_of_stop hstop
  have hbalanced := hderives.foldl_bracket 0
  rw [List.map_map] at hbalanced
  rw [openDepth, hfront.foldl_next 0]
  exact hbalanced

/-! ## Programs are no commands -/

namespace Text

/-- No visible character of the first 128 is blank. -/
theorem not_isBlank_of_between {c low high : Char} (hlow : low ≤ c) (hhigh : c ≤ high)
    (h : 0x21 ≤ low.toNat ∧ high.toNat ≤ 0x7e) : isBlank c = false := by
  have hlow' : low.toNat ≤ c.toNat := hlow
  have hhigh' : c.toNat ≤ high.toNat := hhigh
  simp only [isBlank, inRanges, blankRanges, List.any_cons, List.any_nil, Bool.or_false,
    Bool.or_eq_false_iff, Bool.and_eq_false_iff, decide_eq_false_iff_not]
  omega

theorem isBlank_of_isLayout {c : Char} (h : isLayout c = true) : isBlank c = true := by
  simp only [isLayout, Bool.or_eq_true, beq_iff_eq] at h
  rcases h with (((rfl | rfl) | rfl) | rfl) | rfl <;> decide

theorem not_isBlank_of_isWordStart {c : Char} (h : isWordStart c = true) : isBlank c = false := by
  simp only [isWordStart, Bool.or_eq_true, Bool.and_eq_true, decide_eq_true_eq, beq_iff_eq] at h
  rcases h with (⟨hlow, hhigh⟩ | ⟨hlow, hhigh⟩) | rfl
  · exact not_isBlank_of_between hlow hhigh (by decide)
  · exact not_isBlank_of_between hlow hhigh (by decide)
  · decide

theorem not_isBlank_of_isNumeric {c : Char} (h : isNumeric c = true) : isBlank c = false := by
  simp only [isNumeric, Bool.and_eq_true, decide_eq_true_eq] at h
  exact not_isBlank_of_between h.1 h.2 (by decide)

/-- What a terminal matches starts with a blank only if it is layout. -/
theorem not_isBlank_of_matches {T : Terminal} {c : Char} {more : List Char}
    (hfits : T.Matches (c :: more)) (hc : isLayout c = false) : isBlank c = false := by
  cases hfits with
  | layout hlayout _ => exact absurd hlayout (by simp [hc])
  | word hword _ => exact not_isBlank_of_isWordStart hword
  | number hnumeric _ => exact not_isBlank_of_isNumeric hnumeric
  | string _ => decide
  | sign hsign =>
    have hsigns : ∀ e ∈ signs, isBlank (e.1.headD 'a') = false := by decide
    exact hsigns _ hsign

/-- A text without blanks at its ends starts with its first character that is not blank. -/
theorem head?_strip {source : String} {gap more : List Char} {c : Char}
    (hsource : source.toList = gap ++ c :: more) (hgap : ∀ d ∈ gap, isBlank d = true)
    (hc : isBlank c = false) : (strip source).toList.head? = some c := by
  have hdrop : source.toList.dropWhile isBlank = c :: more := by
    rw [hsource, List.dropWhile_append_of_pos hgap, List.dropWhile_cons_of_neg (by simp [hc])]
  rw [strip, String.toList_ofList, hdrop, dropBlankEnd, List.reverse_cons, List.dropWhile_append]
  split
  · simp [hc]
  · simp

theorem strip_of_blank {source : String} (h : ∀ c ∈ source.toList, isBlank c = true) :
    strip source = "" := by
  rw [strip, List.dropWhile_eq_nil_iff.2 h]
  rfl

end Text

namespace Source
variable {source : String} {p : Node}

/-- No program starts with a slash. -/
theorem kind_ne_slash_of_parse (h : parse source = .ok p) {t : Token} {ts : List Token}
    (ht : (lex source).tokens = t :: ts) : t.kind ≠ .slash := by
  intro hslash
  obtain ⟨-, st, hsteps, -⟩ := parseGrammar_eq_ok.1 (parse_eq_ok.1 h).1
  rw [ht, Parser.steps_cons, hslash] at hsteps
  cases hsteps

/-- Programs are no commands. -/
theorem ofLine?_of_parse (h : parse source = .ok p) : Command.ofLine? source = none := by
  obtain ⟨q, hfront⟩ := exists_front_of_stop (parseGrammar_eq_ok.1 (parse_eq_ok.1 h).1).1
  have hslash : ¬ (Text.strip source).startsWith "/" = true := by
    rw [String.startsWith_string_iff]
    intro hstarts
    cases htokens : (lex source).tokens with
    | nil =>
      rw [htokens] at hfront
      obtain ⟨gap, hsource, -, hgap⟩ := hfront.layout_of_nil
      rw [List.append_nil] at hsource
      rw [Text.strip_of_blank fun d hd => Text.isBlank_of_isLayout (hgap d (hsource ▸ hd))] at hstarts
      exact absurd hstarts (by decide)
    | cons t ts =>
      rw [htokens] at hfront
      obtain ⟨middle, hgap, c, more, tail, kind, rfl, hc, hscan, ht⟩ := hfront.first
      obtain ⟨gap, hsource, -, hgap⟩ := hgap.layout_of_nil
      obtain ⟨T, hfits, hlabels⟩ := exists_terminal_of_scan hscan
      have hhead := Text.head?_strip hsource (fun d hd => Text.isBlank_of_isLayout (hgap d hd))
        (Text.not_isBlank_of_matches hfits hc)
      obtain ⟨behind, hbehind⟩ := hstarts
      rw [← hbehind] at hhead
      obtain rfl : '/' = c := Option.some.inj hhead
      obtain ⟨rfl, -⟩ := Cut.mk.inj (Option.some.inj hscan)
      exact kind_ne_slash_of_parse h htokens (congrArg Token.kind ht)
  rw [Command.ofLine?, if_neg hslash]

end Source

namespace Console

/-- What is taken out of a line is not counted. -/
theorem openDepth_normalize (text : String) :
    openDepth (normalize text).toList = openDepth text.toList := by
  have hskip : (fun (b : Brackets) c => if !invisible.contains c then b.next c else b) =
      Brackets.next := by
    funext b c
    split
    · rfl
    · next hc =>
      exact (Brackets.next_of_good invisible.contains (by decide) (by simpa using hc) b).symm
  rw [openDepth, normalize, String.toList_ofList, List.foldl_filter, hskip, openDepth]

/-- The prompt never gets in the way of a program: no bracket is open at its end, so that Enter
hands it over wherever the cursor is, and it is taken for no command, so that nothing is written
and changed but by running it. Taking invisible characters out never changes which brackets are
open. -/
theorem never_in_the_way (text : String) :
    (∀ p, Source.parse text = .ok p →
      openDepth text.toList = 0 ∧
      (∀ cursor, enter ⟨text.toList, cursor⟩ = (⟨text.toList, cursor⟩, [.submit])) ∧
      ∀ c : Console, c.handleCommand text = (false, ⟨"", "", none, c⟩)) ∧
    openDepth (normalize text).toList = openDepth text.toList := by
  refine ⟨fun p hparse => ?_, openDepth_normalize text⟩
  have hdepth := Source.openDepth_of_parse hparse
  refine ⟨hdepth, fun cursor => ?_, fun c => ?_⟩
  · rw [enter, if_neg (by rw [hdepth]; decide)]
  · rw [handleCommand, Source.ofLine?_of_parse hparse, idle]

/-- A function over two lines, with brackets and a line end in a string. -/
theorem never_in_the_way_two_lines :
    let text := "let f = fn(x) \x7b\n  [x, \"(\n[\"][0] \x7d; f(\x7b1: 2\x7d)"
    openDepth text.toList = 0 ∧
      (∀ cursor, enter ⟨text.toList, cursor⟩ = (⟨text.toList, cursor⟩, [.submit])) ∧
      ∀ c : Console, c.handleCommand text = (false, ⟨"", "", none, c⟩) := by
  intro text
  have hparse : Source.parse text = .ok (.program [
      .letStmt "f" (.fnLit ["x"] [.exprStmt (.index (.array [.ident "x", .str "(\n["]) (.int 0))]),
      .exprStmt (.call (.ident "f") [.hash [(.int 1, .int 2)]])]) :=
    Source.parse_of_toOption (by decide +kernel)
  exact (never_in_the_way text).1 _ hparse

end Console

end Monkey
