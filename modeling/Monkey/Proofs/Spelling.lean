import Monkey.Proofs.Terminals
import Monkey.Proofs.ViablePrefix
import Monkey.Proofs.Weight

/-!
# What characters spell

The words of a text do not depend on where the text stands. `Spells` is the reading of
characters as words without places: what it says is proved by induction on it, and a text
is the program that its words make.

A word that runs on into a text takes as much of it as it can. What is left spells less.

## Main definitions

* `Lexer.Spells` — some characters are read to their end as some words.

## Main results

* `Spells.lexFrom` — the reading of a text, with places and without.
* `Source.parse_of_same_words` — texts of the same words are the same program.
* `Spells.dropWhile_wordPart`, `Spells.dropWhile_numeric` — what a word or number leaves of a text.
-/

namespace Monkey

namespace Lexer

/-- The characters are read to their end as these words. -/
inductive Spells : List Char → List Word → Prop where
  | nil : Spells [] []
  | layout {c : Char} {cs : List Char} {ws : List Word} :
    isLayout c = true → Spells cs ws → Spells (c :: cs) ws
  | token {c : Char} {kind : TokenKind} {more rest : List Char} {ws : List Word} :
    isLayout c = false → scan c (more ++ rest) = some ⟨kind, more, rest⟩ → Spells rest ws →
    Spells (c :: (more ++ rest)) ((kind, String.ofList (c :: more)) :: ws)

variable {cs rest : List Char} {ws : List Word} {c : Char}

theorem Spells.lexFrom (h : Spells cs ws) (p : Position) :
    (lexFrom p cs).stop = none ∧ (lexFrom p cs).tokens.map Token.word = ws := by
  induction h generalizing p with
  | nil => simp [Monkey.lexFrom]
  | layout hc _ ih =>
    rw [lexFrom_layout hc]
    exact ih _
  | @token c kind more rest ws hc hscan _ ih =>
    obtain ⟨hstop, hwords⟩ := ih (p.after (c :: more))
    rw [lexFrom_token hc hscan]
    exact ⟨hstop, by rw [List.map_cons, hwords, Token.word]⟩

theorem Spells.lexes {source : String} (h : Spells source.toList ws) : Source.Lexes source ws :=
  h.lexFrom .start

end Lexer

/-- Texts of the same words are the same program. -/
theorem Source.parse_of_same_words {source source' : String} {p : Node}
    (hwords : (lex source').tokens.map Token.word = (lex source).tokens.map Token.word)
    (hstop : (lex source').stop = none) (h : parse source = .ok p) : parse source' = .ok p := by
  obtain ⟨hgrammar, hlong⟩ := parse_eq_ok.1 h
  obtain ⟨-, st, hsteps, hfinish⟩ := parseGrammar_eq_ok.1 hgrammar
  refine parse_eq_ok.2 ⟨parseGrammar_eq_ok.2 ⟨hstop, st, ?_, hfinish⟩, ?_⟩
  · exact Parser.steps_of_read (hwords ▸ Parser.read_of_steps hsteps)
  · let long (w : Word) : Bool := w.1 = .int && Numeral.maxDigits < w.2.length
    have hany : ∀ ts : List Token, ts.any isTooLong = (ts.map Token.word).any long := fun ts => by
      rw [List.any_map]
      rfl
    rw [hany, hwords, ← hany, hlong]

namespace Lexer
variable {cs : List Char} {ws : List Word} {c : Char}

/-! ## What is left of a text -/

theorem not_isWordPart_of_isLayout (h : isLayout c = true) : isWordPart c = false := by
  simp only [isLayout, Bool.or_eq_true, beq_iff_eq] at h
  rcases h with (((rfl | rfl) | rfl) | rfl) | rfl <;> decide

theorem isWord_of_labels {text : String} {k : TokenKind} (h : Terminal.Labels .word text k) :
    k.isWord = true := by
  have hkeywords : ∀ e ∈ TokenKind.keywords, e.2.isWord = true := by decide
  cases h with
  | keyword hk => exact hkeywords _ hk
  | name _ => rfl

theorem weight_ofWord (w text : String) : Word.weight (TokenKind.ofWord w, text) = 1 := by
  have hword := isWord_of_labels (labels_ofWord w)
  have hstring : TokenKind.ofWord w ≠ .string := by
    intro hkind
    rw [hkind] at hword
    cases hword
  rw [Word.weight, if_neg hstring, if_pos (.inl hword)]

theorem scan_of_isWordStart (hc : isWordStart c = true) (cs : List Char) :
    scan c cs = some ⟨TokenKind.ofWord (String.ofList (c :: cs.takeWhile isWordPart)),
      cs.takeWhile isWordPart, cs.dropWhile isWordPart⟩ := by
  unfold scan
  rw [if_pos hc]

theorem scan_of_isNumeric (hc : isNumeric c = true) (cs : List Char) :
    scan c cs = some ⟨.int, cs.takeWhile isNumeric, cs.dropWhile isNumeric⟩ := by
  unfold scan
  rw [if_neg (by simp [not_isWordStart_of_isNumeric hc]), if_pos hc]

/-- A sign of one character is read as such where no longer one stands. -/
theorem scan_of_sign? {k : TokenKind} (hsign : ([c], k) ∈ signs) (hc : sign? c = some k)
    (hnot : k = .assign ∨ k = .bang → cs.head? ≠ some '=') : scan c cs = some ⟨k, [], cs⟩ := by
  obtain ⟨-, hpart, hquote⟩ := head_of_mem_signs hsign
  obtain ⟨hword, hnumeric⟩ := Bool.or_eq_false_iff.1 hpart
  unfold scan
  rw [if_neg (by simp [hword]), if_neg (by simp [hnumeric]), if_neg hquote]
  split
  · obtain rfl := Option.some.inj hc
    exact absurd rfl (hnot (.inl rfl))
  · obtain rfl := Option.some.inj hc
    exact absurd rfl (hnot (.inr rfl))
  · rw [hc, Option.map_some]

namespace Spells

/-- What a number leaves of a text that it runs on into spells less. -/
theorem dropWhile_numeric (h : Spells cs ws) (hcs : ∃ c ∈ cs.head?, isNumeric c = true) :
    ∃ ws', Spells (cs.dropWhile isNumeric) ws' ∧ Word.weights ws' < Word.weights ws := by
  obtain ⟨c, hc, hnumeric⟩ := hcs
  cases h with
  | nil => cases hc
  | layout hlayout _ =>
    obtain rfl := Option.some.inj hc
    exact absurd hlayout (by simp [not_isLayout_of_isNumeric hnumeric])
  | token _ hscan hrest =>
    obtain rfl := Option.some.inj hc
    obtain ⟨rfl, -, hdrop⟩ := Cut.mk.inj
      (Option.some.inj ((scan_of_isNumeric hnumeric _).symm.trans hscan))
    exact ⟨_, by rwa [List.dropWhile_cons_of_pos hnumeric, hdrop], by simp⟩

/-- What a word leaves of a text does not spell more, and spells less if the word runs on into the
text. -/
theorem dropWhile_wordPart (h : Spells cs ws) :
    ∃ ws', Spells (cs.dropWhile isWordPart) ws' ∧ Word.weights ws' ≤ Word.weights ws ∧
      ((∃ c ∈ cs.head?, isWordPart c = true) → Word.weights ws' < Word.weights ws) := by
  induction h with
  | nil => exact ⟨[], .nil, Nat.le_refl _, by simp⟩
  | @layout c cs ws hc hrest _ =>
    have hpart : isWordPart c = false := not_isWordPart_of_isLayout hc
    rw [List.dropWhile_cons_of_neg (by simp [hpart])]
    exact ⟨ws, .layout hc hrest, Nat.le_refl _, by simp [hpart]⟩
  | @token c kind more rest ws hc hscan hrest ih =>
    cases hpart : isWordPart c with
    | false =>
      rw [List.dropWhile_cons_of_neg (by simp [hpart])]
      exact ⟨_, .token hc hscan hrest, Nat.le_refl _, by simp [hpart]⟩
    | true =>
      rw [List.dropWhile_cons_of_pos hpart]
      rcases Bool.or_eq_true_iff.1 hpart with hword | hnumeric
      · obtain ⟨rfl, -, hdrop⟩ := Cut.mk.inj
          (Option.some.inj ((scan_of_isWordStart hword _).symm.trans hscan))
        have hless : Word.weights ws < Word.weights
            ((TokenKind.ofWord (String.ofList (c :: (more ++ rest).takeWhile isWordPart)),
              String.ofList (c :: more)) :: ws) := by
          rw [Word.weights_cons, weight_ofWord]
          omega
        exact ⟨ws, by rwa [hdrop], Nat.le_of_lt hless, fun _ => hless⟩
      · -- A word may stand right behind the number, and is taken with it.
        obtain ⟨rfl, htake, -⟩ := Cut.mk.inj
          (Option.some.inj ((scan_of_isNumeric hnumeric _).symm.trans hscan))
        have hmore : ∀ d ∈ more, isWordPart d = true := fun d hd =>
          Bool.or_eq_true_iff.2 (.inr (List.all_eq_true.1 List.all_takeWhile d (htake ▸ hd)))
        obtain ⟨ws', hws', hle, -⟩ := ih
        rw [List.dropWhile_append_of_pos hmore]
        have hless : Word.weights ws' < Word.weights
            ((TokenKind.int, String.ofList (c :: more)) :: ws) :=
          Nat.lt_of_le_of_lt hle (by simp)
        exact ⟨ws', hws', Nat.le_of_lt hless, fun _ => hless⟩

/-! ## Words, numbers, strings and signs in front of a text -/

theorem of_scan {cut : Cut} (hc : isLayout c = false) (hscan : scan c cs = some cut)
    (h : Spells cut.rest ws) : Spells (c :: cs) ((cut.kind, String.ofList (c :: cut.more)) :: ws) := by
  obtain rfl := scan_append hscan
  exact .token hc hscan h

/-- A token that goes on for as long as its characters do stands on its own in front of a text, or it
runs on into the text and then the whole weighs less. -/
theorem run (good : Char → Bool) (kind : List Char → TokenKind) {more : List Char}
    (hc : isLayout c = false)
    (hscan : ∀ cs, scan c cs =
      some ⟨kind (c :: cs.takeWhile good), cs.takeWhile good, cs.dropWhile good⟩)
    (hweight : ∀ cs text, Word.weight (kind cs, text) = 1) (hmore : ∀ d ∈ more, good d = true)
    (h : Spells cs ws)
    (hless : (∃ d ∈ cs.head?, good d = true) →
      ∃ ws', Spells (cs.dropWhile good) ws' ∧ Word.weights ws' < Word.weights ws) :
    let w : Word := (kind (c :: more), String.ofList (c :: more))
    ∃ ws', Spells (c :: (more ++ cs)) ws' ∧
      ((¬ ∃ d ∈ cs.head?, good d = true) ∧ ws' = w :: ws ∨
        (∃ d ∈ cs.head?, good d = true) ∧ Word.weights ws' < Word.weights (w :: ws)) := by
  by_cases hgoes : ∃ d ∈ cs.head?, good d = true
  · obtain ⟨ws', hws', hless⟩ := hless hgoes
    have hrest : Spells ((more ++ cs).dropWhile good) ws' := by
      rwa [List.dropWhile_append_of_pos hmore]
    refine ⟨_, .of_scan hc (hscan _) hrest, .inr ⟨hgoes, ?_⟩⟩
    rw [Word.weights_cons, Word.weights_cons, hweight, hweight]
    exact Nat.add_lt_add_left hless 1
  · obtain ⟨htake, hdrop⟩ := takeWhile_append_of_head (List.all_eq_true.2 hmore)
      fun d hd => Bool.eq_false_iff.2 fun hgood => hgoes ⟨d, hd, hgood⟩
    have hcut := hscan (more ++ cs)
    rw [htake, hdrop] at hcut
    exact ⟨_, .of_scan hc hcut h, .inl ⟨hgoes, rfl⟩⟩

/-- A word stands on its own, or runs on into the text. -/
theorem word {more : List Char} (hc : isWordStart c = true)
    (hmore : ∀ d ∈ more, isWordPart d = true) (h : Spells cs ws) :
    let w : Word := (TokenKind.ofWord (String.ofList (c :: more)), String.ofList (c :: more))
    ∃ ws', Spells (c :: (more ++ cs)) ws' ∧
      ((¬ ∃ d ∈ cs.head?, isWordPart d = true) ∧ ws' = w :: ws ∨
        (∃ d ∈ cs.head?, isWordPart d = true) ∧ Word.weights ws' < Word.weights (w :: ws)) := by
  obtain ⟨ws', hws', -, hless⟩ := h.dropWhile_wordPart
  exact run isWordPart (TokenKind.ofWord ∘ String.ofList) (not_isLayout_of_isWordStart hc)
    (scan_of_isWordStart hc) (fun _ _ => weight_ofWord ..) hmore h fun hcs => ⟨ws', hws', hless hcs⟩

/-- A number stands on its own, or runs on into the text. -/
theorem number {more : List Char} (hc : isNumeric c = true)
    (hmore : ∀ d ∈ more, isNumeric d = true) (h : Spells cs ws) :
    let w : Word := (.int, String.ofList (c :: more))
    ∃ ws', Spells (c :: (more ++ cs)) ws' ∧
      ((¬ ∃ d ∈ cs.head?, isNumeric d = true) ∧ ws' = w :: ws ∨
        (∃ d ∈ cs.head?, isNumeric d = true) ∧ Word.weights ws' < Word.weights (w :: ws)) :=
  run isNumeric (fun _ => .int) (not_isLayout_of_isNumeric hc) (scan_of_isNumeric hc)
    (fun _ _ => rfl) hmore h h.dropWhile_numeric

/-- A string stands on its own. -/
theorem string {inner : List Char} (hinner : '"' ∉ inner) (h : Spells cs ws) :
    Spells ('"' :: (inner ++ '"' :: cs))
      ((.string, String.ofList ('"' :: (inner ++ ['"']))) :: ws) :=
  of_scan (by decide) (scan_string hinner cs) h

/-- A sign stands on its own, if it is not the first half of another one. -/
theorem sign {text : List Char} {k : TokenKind} (hsign : (text, k) ∈ signs)
    (hnot : k = .assign ∨ k = .bang → cs.head? ≠ some '=') (h : Spells cs ws) :
    Spells (text ++ cs) ((k, String.ofList text) :: ws) := by
  rcases eq_or_of_mem_signs hsign with ⟨c, rfl, hc⟩ | heq | heq
  · obtain ⟨hlayout, -⟩ := head_of_mem_signs hsign
    exact of_scan hlayout (scan_of_sign? hsign hc hnot) h
  · obtain ⟨rfl, rfl⟩ := Prod.mk.inj heq
    have hcut : scan '=' ('=' :: cs) = some ⟨.eq, ['='], cs⟩ := rfl
    exact of_scan (by decide) hcut h
  · obtain ⟨rfl, rfl⟩ := Prod.mk.inj heq
    have hcut : scan '!' ('=' :: cs) = some ⟨.notEq, ['='], cs⟩ := rfl
    exact of_scan (by decide) hcut h

end Spells

end Lexer
end Monkey
