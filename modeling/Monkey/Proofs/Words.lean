import Monkey.Proofs.Grammar

/-!
# Texts of words

Where a text is read from does not matter for the words in it, and what has been
read does not matter for what follows, as long as no word or number runs on into
it. So a text can be put together from the texts of words: `Words` says what the
words of a text are, and has one lemma for each kind of word in front of a text
whose words are known.

## Main definitions

* `Lexer.Words` — the words of a text.
* `Lexer.Breaks` — texts that no word or number in front of them runs on into.
* `Lexer.IsSign` — characters that are tokens.

## Main results

* `Words.name`, `Words.number`, `Words.quoted`, `Words.sign`, `Words.layout` — a text
  behind a word, a number, a string, a sign, and layout.
* `Numeral.ofDigits_repr`, `Numeral.length_repr_le` — numerals read back, and how long they are.
-/

namespace Monkey

namespace Lexer

theorem lexFrom_layout {p : Position} {c : Char} {cs : List Char} (hc : isLayout c = true) :
    lexFrom p (c :: cs) = lexFrom (p.next c) cs := by
  rw [lexFrom, if_pos hc]

theorem lexFrom_token {p : Position} {c : Char} {cs more middle : List Char} {kind : TokenKind}
    (hc : isLayout c = false) (hscan : scan c cs = some ⟨kind, more, middle⟩) :
    lexFrom p (c :: cs) =
      ⟨⟨kind, String.ofList (c :: more), p, p.after (c :: more)⟩ ::
        (lexFrom (p.after (c :: more)) middle).tokens,
        (lexFrom (p.after (c :: more)) middle).stop⟩ := by
  rw [lexFrom, if_neg (by simp [hc])]
  split
  · next hnone => simp [hscan] at hnone
  · next cut' hcut =>
    obtain rfl := Option.some.inj (hscan.symm.trans hcut)
    rfl

theorem lexFrom_unreadable {p : Position} {c : Char} {cs : List Char} (hc : isLayout c = false)
    (hscan : scan c cs = none) : lexFrom p (c :: cs) = ⟨[], some (c, p)⟩ := by
  rw [lexFrom, if_neg (by simp [hc])]
  split
  · rfl
  · next cut hcut => simp [hscan] at hcut

/-- From every position on, the characters are read to their end, as these words. None of them is
a number that is too long. -/
def Words (cs : List Char) (ws : List Word) : Prop :=
  ∀ p, (lexFrom p cs).stop = none ∧ (lexFrom p cs).tokens.map Token.word = ws ∧
    (lexFrom p cs).tokens.any Source.isTooLong = false

/-- No word or number in front of the characters runs on into them. -/
def Breaks (cs : List Char) : Prop := ∀ c ∈ cs.head?, isWordPart c = false

theorem breaks_nil : Breaks [] := by simp [Breaks]

theorem breaks_cons {c : Char} {cs : List Char} (h : isWordPart c = false) : Breaks (c :: cs) := by
  simpa [Breaks] using h

/-- The first part of a text is taken off where the rest of the text does not go on with it. -/
theorem takeWhile_append_of_head {p : Char → Bool} {cs rest : List Char} (hcs : cs.all p = true)
    (hrest : ∀ c ∈ rest.head?, p c = false) :
    (cs ++ rest).takeWhile p = cs ∧ (cs ++ rest).dropWhile p = rest := by
  have hall : ∀ c ∈ cs, p c = true := List.all_eq_true.1 hcs
  rw [List.takeWhile_append_of_pos hall, List.dropWhile_append_of_pos hall]
  cases rest with
  | nil => simp
  | cons c rest => simp [hrest c (by simp)]

/-- A text up to a quote is taken off in front of the quote. -/
theorem takeWhile_quote {inner : List Char} (hinner : '"' ∉ inner) (rest : List Char) :
    (inner ++ '"' :: rest).takeWhile (· != '"') = inner ∧
      (inner ++ '"' :: rest).dropWhile (· != '"') = '"' :: rest := by
  have hall : inner.all (· != '"') = true := by
    rw [List.all_eq_true]
    intro c hc
    rw [bne_iff_ne]
    rintro rfl
    exact hinner hc
  exact takeWhile_append_of_head hall (by simp)

theorem scan_string {inner : List Char} (hinner : '"' ∉ inner) (rest : List Char) :
    scan '"' (inner ++ '"' :: rest) = some ⟨.string, inner ++ ['"'], rest⟩ := by
  obtain ⟨htake, hdrop⟩ := takeWhile_quote hinner rest
  unfold scan
  rw [if_neg (by decide), if_neg (by decide), if_pos rfl, hdrop]
  simp only [htake]

theorem ofWord_ne_int (w : String) : TokenKind.ofWord w ≠ .int := by
  have hkinds : ∀ e ∈ TokenKind.keywords, e.2 ≠ .int := by decide
  intro h
  cases hfind : TokenKind.keywords.find? (·.1 == w) with
  | none => simp [TokenKind.ofWord, hfind] at h
  | some e =>
    refine hkinds e (List.mem_of_find?_eq_some hfind) ?_
    simpa [TokenKind.ofWord, hfind] using h

theorem not_isLayout_of_isWordStart {c : Char} (h : isWordStart c = true) : isLayout c = false := by
  cases hl : isLayout c with
  | false => rfl
  | true =>
    simp only [isLayout, Bool.or_eq_true, beq_iff_eq] at hl
    rcases hl with (((rfl | rfl) | rfl) | rfl) | rfl <;> exact absurd h (by decide)

theorem not_isLayout_of_isNumeric {c : Char} (h : isNumeric c = true) : isLayout c = false := by
  cases hl : isLayout c with
  | false => rfl
  | true =>
    simp only [isLayout, Bool.or_eq_true, beq_iff_eq] at hl
    rcases hl with (((rfl | rfl) | rfl) | rfl) | rfl <;> exact absurd h (by decide)

theorem not_isWordStart_of_isNumeric {c : Char} (h : isNumeric c = true) :
    isWordStart c = false := by
  simp only [isNumeric, Bool.and_eq_true, decide_eq_true_eq, Char.le_def, UInt32.le_iff_toNat_le]
    at h
  have hle : c.val.toNat ≤ 57 := h.2
  cases hw : isWordStart c with
  | false => rfl
  | true =>
    simp only [isWordStart, Bool.or_eq_true, Bool.and_eq_true, decide_eq_true_eq, Char.le_def,
      UInt32.le_iff_toNat_le, beq_iff_eq] at hw
    rcases hw with (⟨hlow, -⟩ | ⟨hlow, -⟩) | rfl
    · have hlow' : 97 ≤ c.val.toNat := hlow
      omega
    · have hlow' : 65 ≤ c.val.toNat := hlow
      omega
    · exact absurd hle (by decide)

/-- The character is a token, whatever follows. -/
structure IsSign (c : Char) (k : TokenKind) : Prop where
  not_layout : isLayout c = false
  not_wordPart : isWordPart c = false
  scan : ∀ cs, scan c cs = some ⟨k, [], cs⟩

namespace IsSign

theorem lparen : IsSign '(' .lparen := ⟨rfl, rfl, fun _ => rfl⟩
theorem rparen : IsSign ')' .rparen := ⟨rfl, rfl, fun _ => rfl⟩
theorem lbracket : IsSign '[' .lbracket := ⟨rfl, rfl, fun _ => rfl⟩
theorem rbracket : IsSign ']' .rbracket := ⟨rfl, rfl, fun _ => rfl⟩
theorem lbrace : IsSign '\x7b' .lbrace := ⟨rfl, rfl, fun _ => rfl⟩
theorem rbrace : IsSign '\x7d' .rbrace := ⟨rfl, rfl, fun _ => rfl⟩
theorem comma : IsSign ',' .comma := ⟨rfl, rfl, fun _ => rfl⟩
theorem colon : IsSign ':' .colon := ⟨rfl, rfl, fun _ => rfl⟩
theorem semicolon : IsSign ';' .semicolon := ⟨rfl, rfl, fun _ => rfl⟩

theorem breaks {c : Char} {k : TokenKind} {cs : List Char} (h : IsSign c k) : Breaks (c :: cs) :=
  breaks_cons h.not_wordPart

end IsSign

theorem breaks_space {cs : List Char} : Breaks (' ' :: cs) := breaks_cons rfl

namespace Words
variable {cs rest : List Char} {ws : List Word} {c : Char}

theorem nil : Words [] [] := by
  intro p
  rw [lexFrom]
  simp

/-- Layout is skipped. -/
theorem layout (hc : isLayout c = true) (h : Words cs ws) : Words (c :: cs) ws := by
  intro p
  rw [lexFrom_layout hc]
  exact h _

/-- A token is cut off the text, and what is behind it is read on its own. -/
theorem token {cut : Cut} (hc : isLayout c = false) (hscan : scan c cs = some cut)
    (hlength : cut.kind = .int → (c :: cut.more).length ≤ Numeral.maxDigits)
    (h : Words cut.rest ws) :
    Words (c :: cs) ((cut.kind, String.ofList (c :: cut.more)) :: ws) := by
  intro p
  obtain ⟨hstop, hwords, hlong⟩ := h (p.after (c :: cut.more))
  have hshort : Source.isTooLong
      ⟨cut.kind, String.ofList (c :: cut.more), p, p.after (c :: cut.more)⟩ = false := by
    rw [Source.isTooLong, Bool.and_eq_false_imp]
    intro hint
    have hle := hlength (of_decide_eq_true hint)
    rw [String.length_ofList]
    exact decide_eq_false (by omega)
  rw [lexFrom_token hc hscan]
  refine ⟨hstop, ?_, ?_⟩
  · rw [List.map_cons, hwords, Token.word]
  · rw [List.any_cons, hshort, hlong]
    rfl

/-- A character that is a token. -/
theorem sign {k : TokenKind} (hc : IsSign c k) (h : Words cs ws) :
    Words (c :: cs) ((k, String.ofList [c]) :: ws) :=
  token hc.not_layout (hc.scan cs) (fun _ => Nat.le_of_ble_eq_true rfl) h

theorem space (h : Words cs ws) : Words (' ' :: cs) ws := layout rfl h

/-- A word that starts like a name. -/
theorem name {more : List Char} (hc : isWordStart c = true) (hmore : more.all isWordPart = true)
    (hrest : Breaks rest) (h : Words rest ws) :
    Words (c :: (more ++ rest))
      ((TokenKind.ofWord (String.ofList (c :: more)), String.ofList (c :: more)) :: ws) := by
  obtain ⟨htake, hdrop⟩ := takeWhile_append_of_head hmore hrest
  have hscan : scan c (more ++ rest) =
      some ⟨TokenKind.ofWord (String.ofList (c :: more)), more, rest⟩ := by
    unfold scan
    rw [if_pos hc, hdrop]
    simp only [htake]
  refine token (not_isLayout_of_isWordStart hc) hscan (fun hint => ?_) h
  exact absurd hint (ofWord_ne_int _)

/-- A word that starts like a name, by its whole text. -/
theorem word {w : String} {k : TokenKind} {more : List Char} (hw : w.toList = c :: more)
    (hc : isWordStart c = true) (hmore : more.all isWordPart = true)
    (hk : TokenKind.ofWord w = k) (hrest : Breaks rest) (h : Words rest ws) :
    Words (w.toList ++ rest) ((k, w) :: ws) := by
  obtain rfl : String.ofList (c :: more) = w := by rw [← hw, String.ofList_toList]
  rw [hw, ← hk]
  exact name hc hmore hrest h

/-- A number. -/
theorem number {more : List Char} (hc : isNumeric c = true) (hmore : more.all isNumeric = true)
    (hlength : (c :: more).length ≤ Numeral.maxDigits) (hrest : Breaks rest) (h : Words rest ws) :
    Words (c :: (more ++ rest)) ((.int, String.ofList (c :: more)) :: ws) := by
  have hnumeric : ∀ d ∈ rest.head?, isNumeric d = false := by
    intro d hd
    have hpart := hrest d hd
    rw [isWordPart, Bool.or_eq_false_iff] at hpart
    exact hpart.2
  obtain ⟨htake, hdrop⟩ := takeWhile_append_of_head hmore hnumeric
  have hword : isWordStart c = false := not_isWordStart_of_isNumeric hc
  have hscan : scan c (more ++ rest) = some ⟨.int, more, rest⟩ := by
    unfold scan
    rw [if_neg (by simp [hword]), if_pos hc, htake, hdrop]
  exact token (not_isLayout_of_isNumeric hc) hscan (fun _ => hlength) h

/-- A string in its quotes, whatever follows. -/
theorem quoted {inner : List Char} (hinner : '"' ∉ inner) (h : Words rest ws) :
    Words ('"' :: (inner ++ '"' :: rest))
      ((.string, String.ofList ('"' :: (inner ++ ['"']))) :: ws) :=
  token (by decide) (scan_string hinner rest) (fun hint => by cases hint) h

end Words
end Lexer

/-! ## Numerals -/

namespace Numeral
open Lexer

theorem isNumeric_of_isDigit {c : Char} (h : c.isDigit = true) : isNumeric c = true := by
  simp only [Char.isDigit, isNumeric, Bool.and_eq_true, decide_eq_true_eq, Char.le_def] at h ⊢
  exact h

/-- The numeral of a natural number: a digit, and more digits. -/
theorem digits_repr (n : Nat) : ∃ c more, n.repr.toList = c :: more ∧
    isNumeric c = true ∧ more.all isNumeric = true := by
  have hnumeric : ∀ c ∈ Nat.toDigits 10 n, isNumeric c = true := fun c hc =>
    isNumeric_of_isDigit (Nat.isDigit_of_mem_toDigits (by decide) (by decide) hc)
  have hrepr : n.repr.toList = Nat.toDigits 10 n := String.toList_ofList
  rw [hrepr]
  cases hdigits : Nat.toDigits 10 n with
  | nil => exact absurd hdigits Nat.toDigits_ne_nil
  | cons c more =>
    rw [hdigits] at hnumeric
    refine ⟨c, more, rfl, hnumeric c List.mem_cons_self, ?_⟩
    exact List.all_eq_true.2 fun d hd => hnumeric d (List.mem_cons_of_mem _ hd)

theorem ofDigits_repr (n : Nat) : ofDigits n.repr.toList = n := by
  have hrepr : n.repr.toList = Nat.toDigits 10 n := String.toList_ofList
  rw [hrepr]
  exact Nat.ofDigitChars_ten_toDigits

theorem length_repr_le_of_lt {n k : Nat} (hk : 0 < k) (h : n < Nat.pow 10 k) :
    n.repr.toList.length ≤ k := by
  have hrepr : n.repr.toList = Nat.toDigits 10 n := String.toList_ofList
  rw [hrepr]
  exact (Nat.length_toDigits_le_iff (by decide) hk).2 h

theorem length_repr_le {n : Nat} (h : n < bound) : n.repr.toList.length ≤ maxDigits := by
  unfold bound at h
  exact length_repr_le_of_lt (by decide) h

end Numeral
end Monkey
