import Monkey.Proofs.Cutting

/-!
# Terminals

What the terminals of the grammar match, said of whole texts. The reader of tokens looks
at one character and then decides how far to go; here it is shown to have taken the
longest text at its place that any terminal matches, and to stop only where there is
none.

## Main definitions

* `Terminal`, `Terminal.Matches` — the terminals, and the texts that they match.
* `Terminal.Labels` — the kind of token that a matched text makes.
* `Longest` — the longest match at the start of a text.

## Main results

* `longest_of_scan` — the token that is read is the longest match.
* `not_matches_of_scan` — where none is read nothing matches.
-/

namespace Monkey.Lexer

/-- The terminals of the grammar. -/
inductive Terminal where
  /-- The text between tokens. -/
  | layout
  /-- Words, which are names or keywords. -/
  | word
  | number
  | string
  /-- A sign, by the kind of token that it makes. -/
  | sign (kind : TokenKind)

/-- The signs, each of which is one text. -/
def signs : List (List Char × TokenKind) :=
  [(['=', '='], .eq), (['!', '='], .notEq), (['<'], .lt), (['>'], .gt), (['+'], .plus),
   (['-'], .minus), (['*'], .star), (['/'], .slash), (['!'], .bang), (['='], .assign),
   ([';'], .semicolon), ([','], .comma), ([':'], .colon), (['('], .lparen), ([')'], .rparen),
   (['['], .lbracket), ([']'], .rbracket), (['\x7b'], .lbrace), (['\x7d'], .rbrace)]

/-- The texts that a terminal matches. -/
inductive Terminal.Matches : Terminal → List Char → Prop where
  | layout {c : Char} {more : List Char} : isLayout c = true →
    (∀ d ∈ more, isLayout d = true) → Matches .layout (c :: more)
  | word {c : Char} {more : List Char} : isWordStart c = true →
    (∀ d ∈ more, isWordPart d = true) → Matches .word (c :: more)
  | number {c : Char} {more : List Char} : isNumeric c = true →
    (∀ d ∈ more, isNumeric d = true) → Matches .number (c :: more)
  | string {inner : List Char} : '"' ∉ inner → Matches .string ('"' :: (inner ++ ['"']))
  | sign {text : List Char} {kind : TokenKind} : (text, kind) ∈ signs → Matches (.sign kind) text

/-- The kind of token that a text makes when a terminal matches it. A word is a keyword only if
the whole word is one, and layout makes no token. -/
inductive Terminal.Labels : Terminal → String → TokenKind → Prop where
  | keyword {text : String} {kind : TokenKind} : (text, kind) ∈ TokenKind.keywords →
    Labels .word text kind
  | name {text : String} : text ∉ TokenKind.keywords.map Prod.fst → Labels .word text .ident
  | number {text : String} : Labels .number text .int
  | string {text : String} : Labels .string text .string
  | sign {text : String} {kind : TokenKind} : Labels (.sign kind) text kind

/-- A terminal matches a text at the start of another one, and no terminal matches a longer one
there. -/
structure Longest (T : Terminal) (text cs : List Char) : Prop where
  front : text <+: cs
  fits : T.Matches text
  longest : ∀ T' text', Terminal.Matches T' text' → text' <+: cs → text'.length ≤ text.length

/-! ## Words, numbers, strings and signs -/

theorem labels_ofWord (w : String) : Terminal.Labels .word w (TokenKind.ofWord w) := by
  unfold TokenKind.ofWord
  cases hfind : TokenKind.keywords.find? (·.1 == w) with
  | none =>
    refine .name fun hw => ?_
    obtain ⟨e, he, rfl⟩ := List.mem_map.1 hw
    simpa using List.find?_eq_none.1 hfind e he
  | some e =>
    obtain rfl : e.1 = w := by simpa using List.find?_some hfind
    exact .keyword (List.mem_of_find?_eq_some hfind)

theorem mem_signs_of_sign? {c : Char} {k : TokenKind} (h : sign? c = some k) :
    ([c], k) ∈ signs := by
  unfold sign? at h
  split at h <;> cases h <;> decide

/-- A sign is one character that is a sign, or it is one of the two longer ones. -/
theorem eq_or_of_mem_signs {text : List Char} {k : TokenKind} (h : (text, k) ∈ signs) :
    (∃ c, text = [c] ∧ sign? c = some k) ∨ (text, k) = (['=', '='], .eq) ∨
      (text, k) = (['!', '='], .notEq) := by
  have hsigns : ∀ e ∈ signs, (e.1 = [e.1.headD ' '] ∧ sign? (e.1.headD ' ') = some e.2) ∨
      e = (['=', '='], .eq) ∨ e = (['!', '='], .notEq) := by decide
  exact (hsigns _ h).imp_left fun hone => ⟨_, hone⟩

/-- No sign starts like a word, a number, a string or layout. -/
theorem head_of_mem_signs {c : Char} {more : List Char} {k : TokenKind}
    (h : (c :: more, k) ∈ signs) : isLayout c = false ∧ isWordPart c = false ∧ c ≠ '"' := by
  have hsigns : ∀ e ∈ signs, isLayout (e.1.headD ' ') = false ∧
      isWordPart (e.1.headD ' ') = false ∧ e.1.headD ' ' ≠ '"' := by decide
  exact hsigns _ h

theorem prefix_takeWhile {α : Type} {p : α → Bool} {front cs : List α} (h : front <+: cs)
    (hall : ∀ c ∈ front, p c = true) : front <+: cs.takeWhile p := by
  obtain ⟨rest, rfl⟩ := h
  rw [List.takeWhile_append_of_pos hall]
  exact List.prefix_append ..

/-! ## Reading the longest match -/

variable {T : Terminal} {text cs : List Char} {c : Char} {cut : Cut}

/-- Where a terminal matches a text that is not layout, one that is not shorter is read. -/
theorem Terminal.Matches.scan (h : T.Matches text) (hfront : text <+: c :: cs)
    (hc : isLayout c = false) :
    ∃ cut, Lexer.scan c cs = some cut ∧ text.length ≤ (c :: cut.more).length := by
  unfold Lexer.scan
  cases h with
  | layout hlayout =>
    obtain ⟨rfl, -⟩ := List.cons_prefix_cons.1 hfront
    exact absurd hlayout (by simp [hc])
  | word hword hmore =>
    obtain ⟨rfl, hrest⟩ := List.cons_prefix_cons.1 hfront
    rw [if_pos hword]
    exact ⟨_, rfl, Nat.succ_le_succ (prefix_takeWhile hrest hmore).length_le⟩
  | number hnumeric hmore =>
    obtain ⟨rfl, hrest⟩ := List.cons_prefix_cons.1 hfront
    rw [if_neg (by simp [not_isWordStart_of_isNumeric hnumeric]), if_pos hnumeric]
    exact ⟨_, rfl, Nat.succ_le_succ (prefix_takeWhile hrest hmore).length_le⟩
  | @string inner hinner =>
    obtain ⟨rfl, hrest⟩ := List.cons_prefix_cons.1 hfront
    obtain ⟨rest, rfl⟩ := hrest
    rw [List.append_assoc]
    exact ⟨_, scan_string hinner rest, Nat.le_refl _⟩
  | sign hsign =>
    rcases eq_or_of_mem_signs hsign with ⟨d, rfl, hd⟩ | heq | heq
    · obtain ⟨rfl, -⟩ := List.cons_prefix_cons.1 hfront
      obtain ⟨-, hpart, hquote⟩ := head_of_mem_signs hsign
      obtain ⟨hword, hnumeric⟩ := Bool.or_eq_false_iff.1 hpart
      rw [if_neg (by simp [hword]), if_neg (by simp [hnumeric]), if_neg hquote]
      split
      · exact ⟨_, rfl, by simp⟩
      · exact ⟨_, rfl, by simp⟩
      · rw [hd]
        exact ⟨_, rfl, by simp⟩
    all_goals
      obtain ⟨rfl, -⟩ := Prod.mk.inj heq
      obtain ⟨rfl, hrest⟩ := List.cons_prefix_cons.1 hfront
      obtain ⟨rest, rfl⟩ := hrest
      exact ⟨_, rfl, Nat.le_refl _⟩

/-- What is read is a match, and makes a token of the kind that the match calls for. -/
theorem exists_terminal_of_scan (h : scan c cs = some cut) :
    ∃ T, Terminal.Matches T (c :: cut.more) ∧
      T.Labels (String.ofList (c :: cut.more)) cut.kind := by
  unfold scan at h
  split at h
  · next hword =>
    obtain rfl := Option.some.inj h
    exact ⟨.word, .word hword (List.all_eq_true.1 List.all_takeWhile), labels_ofWord _⟩
  split at h
  · next hnumeric =>
    obtain rfl := Option.some.inj h
    exact ⟨.number, .number hnumeric (List.all_eq_true.1 List.all_takeWhile), .number⟩
  split at h
  · next hquote =>
    subst hquote
    split at h
    · next q rest hdrop =>
      obtain rfl := Option.some.inj h
      have hq : (q != '"') = false := head?_dropWhile cs q (by rw [hdrop]; rfl)
      obtain rfl : q = '"' := by simpa using hq
      refine ⟨.string, .string fun hmem => ?_, .string⟩
      simpa using List.all_eq_true.1 List.all_takeWhile _ hmem
    · cases h
  split at h
  · obtain rfl := Option.some.inj h
    have hsign : (['=', '='], .eq) ∈ signs := by decide
    exact ⟨.sign .eq, .sign hsign, .sign⟩
  · obtain rfl := Option.some.inj h
    have hsign : (['!', '='], .notEq) ∈ signs := by decide
    exact ⟨.sign .notEq, .sign hsign, .sign⟩
  · obtain ⟨k, hk, rfl⟩ := Option.map_eq_some_iff.1 h
    exact ⟨.sign k, .sign (mem_signs_of_sign? hk), .sign⟩

/-- A token is read as the longest match at its place. -/
theorem longest_of_scan (hc : isLayout c = false) (h : scan c cs = some cut) :
    ∃ T, Longest T (c :: cut.more) (c :: cs) ∧
      T.Labels (String.ofList (c :: cut.more)) cut.kind := by
  obtain ⟨T, hfits, hlabels⟩ := exists_terminal_of_scan h
  refine ⟨T, ⟨⟨cut.rest, ?_⟩, hfits, fun T' text' hfits' hfront => ?_⟩, hlabels⟩
  · rw [List.cons_append, scan_append h]
  · obtain ⟨cut', hcut', hle⟩ := hfits'.scan hfront hc
    obtain rfl := Option.some.inj (h.symm.trans hcut')
    exact hle

/-- Where no token is read no terminal matches. -/
theorem not_matches_of_scan (hc : isLayout c = false) (h : scan c cs = none)
    (hfits : T.Matches text) : ¬ text <+: c :: cs := by
  intro hfront
  obtain ⟨cut, hcut, -⟩ := hfits.scan hfront hc
  rw [h] at hcut
  cases hcut

end Monkey.Lexer
