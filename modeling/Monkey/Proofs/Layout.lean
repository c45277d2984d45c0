import Monkey.Proofs.Partition
import Monkey.Proofs.Spelling

/-!
# Layout

Layout separates tokens and does nothing else. The texts of the tokens of a text can be written
down again with other layout between them, in front of them and behind them; as long as no
two of them touch, the same tokens are read. A token is what a terminal of the grammar
matches, and no terminal but that of strings goes on over layout, which a string has
only between its quotes.

## Main definitions

* `Lexer.Spaced` — some texts, with layout around and between them.

## Main results

* `Lexer.Spaced.spells` — the texts of tokens are read as these tokens.
* `Source.parse_spaced_iff` — a text is the same program in any layout.
-/

namespace Monkey

namespace Lexer
variable {cs : List Char} {ws : List Word}

/-- Some texts in order, with any layout in front of the first and behind the last, and with at
least one character of layout between any two that follow each other. -/
inductive Spaced : List String → List Char → Prop where
  | nil {gap : List Char} : (∀ c ∈ gap, isLayout c = true) → Spaced [] gap
  | cons {text : String} {texts : List String} {front gap cs : List Char} :
    (∀ c ∈ front, isLayout c = true) → (∀ c ∈ gap, isLayout c = true) →
    (texts ≠ [] → gap ≠ []) → Spaced texts cs →
    Spaced (text :: texts) (front ++ text.toList ++ gap ++ cs)

/-- A word carries the kind that its whole text calls for. -/
theorem Terminal.Labels.eq_ofWord {text : String} {k : TokenKind} (h : Terminal.Labels .word text k) :
    k = TokenKind.ofWord text := by
  cases h with
  | keyword hk =>
    have hkeywords : ∀ e ∈ TokenKind.keywords, e.2 = TokenKind.ofWord e.1 := by decide
    exact hkeywords _ hk
  | name hnot =>
    have hfind : TokenKind.keywords.find? (·.1 == text) = none :=
      List.find?_eq_none.2 fun e he hword => hnot (List.mem_map.2 ⟨e, he, eq_of_beq hword⟩)
    rw [TokenKind.ofWord, hfind]
    rfl

namespace Spells

/-- Layout in front of a text spells nothing. -/
theorem gap {front : List Char} (hfront : ∀ c ∈ front, isLayout c = true) (h : Spells cs ws) :
    Spells (front ++ cs) ws := by
  induction front with
  | nil => exact h
  | cons c front ih =>
    obtain ⟨hc, hmore⟩ := List.forall_mem_cons.1 hfront
    exact .layout hc (ih hmore)

/-- What a terminal matches is a token of its own in front of layout, and at the end. -/
theorem apart {T : Terminal} {text : String} {k : TokenKind} (hfits : T.Matches text.toList)
    (hlabels : T.Labels text k) (hcs : ∀ c ∈ cs.head?, isLayout c = true) (h : Spells cs ws) :
    Spells (text.toList ++ cs) ((k, text) :: ws) := by
  have hgoes : ¬ ∃ d ∈ cs.head?, isWordPart d = true := by
    rintro ⟨d, hd, hpart⟩
    rw [not_isWordPart_of_isLayout (hcs d hd)] at hpart
    cases hpart
  obtain ⟨chars, rfl⟩ : ∃ chars, text = String.ofList chars := ⟨_, String.ofList_toList.symm⟩
  rw [String.toList_ofList] at hfits ⊢
  cases hfits with
  | layout => cases hlabels
  | word hc hmore =>
    obtain rfl := hlabels.eq_ofWord
    obtain ⟨ws', hws', ⟨-, rfl⟩ | ⟨hruns, -⟩⟩ := word hc hmore h
    · exact hws'
    · exact absurd hruns hgoes
  | number hc hmore =>
    cases hlabels
    obtain ⟨ws', hws', ⟨-, rfl⟩ | ⟨⟨d, hd, hnumeric⟩, -⟩⟩ := number hc hmore h
    · exact hws'
    · exact absurd ⟨d, hd, Bool.or_eq_true_iff.2 (.inr hnumeric)⟩ hgoes
  | string hinner =>
    cases hlabels
    simpa using string hinner h
  | sign hsign =>
    cases hlabels
    refine sign hsign (fun _ hequals => ?_) h
    exact absurd (hcs '=' hequals) (by decide)

end Spells

/-- The texts of tokens are read as these tokens, whatever layout separates them. -/
theorem Spaced.spells (hws : ∀ w ∈ ws, ∃ T, Terminal.Matches T w.2.toList ∧ T.Labels w.2 w.1)
    (h : Spaced (ws.map Prod.snd) cs) : Spells cs ws := by
  induction ws generalizing cs with
  | nil =>
    cases h with
    | nil hgap =>
      have hspells := Spells.gap hgap Spells.nil
      rwa [List.append_nil] at hspells
  | cons w ws ih =>
    obtain ⟨⟨T, hfits, hlabels⟩, hmore⟩ := List.forall_mem_cons.1 hws
    cases h with
    | @cons _ _ front gap cs hfront hgap hapart hrest =>
      have hspells : Spells (gap ++ cs) ws := .gap hgap (ih hmore hrest)
      -- Behind the last text there is layout in the gap or nothing but layout at all.
      have hhead : ∀ c ∈ (gap ++ cs).head?, isLayout c = true := by
        intro c hc
        cases gap with
        | cons d gap => exact hgap c (by simp_all)
        | nil =>
          have hlast : ws.map Prod.snd = [] := Classical.byContradiction fun hne => hapart hne rfl
          rw [hlast] at hrest
          cases hrest with
          | nil hlayout => exact hlayout c (List.mem_of_mem_head? hc)
      rw [List.append_assoc, List.append_assoc]
      exact .gap hfront (.apart hfits hlabels hhead hspells)

end Lexer

open Lexer

/-- A text is the same program in any layout. If the texts of the tokens of a text are written down
again, with layout between any two of them and with any layout around them, then what is written
has the same tokens, but for their places, and is the same program or none either. -/
theorem Source.parse_spaced_iff {source source' : String} (hstop : (lex source).stop = none)
    (h : Spaced ((lex source).tokens.map Token.text) source'.toList) :
    (lex source').stop = none ∧
      (lex source').tokens.map Token.word = (lex source).tokens.map Token.word ∧
      ∀ p, parse source' = .ok p ↔ parse source = .ok p := by
  obtain ⟨q, hfront⟩ := exists_front_of_stop hstop
  -- Reading starts behind nothing.
  change Front (Position.behind []) _ _ _ _ at hfront
  have hwords : ∀ w ∈ (lex source).tokens.map Token.word,
      ∃ T, Terminal.Matches T w.2.toList ∧ T.Labels w.2 w.1 := by
    intro w hw
    obtain ⟨t, ht, rfl⟩ := List.mem_map.1 hw
    obtain ⟨T, hlongest, hlabels⟩ := (hfront.stands t ht).longest
    exact ⟨T, hlongest.fits, hlabels⟩
  have htexts : ((lex source).tokens.map Token.word).map Prod.snd =
      (lex source).tokens.map Token.text := by
    rw [List.map_map]
    rfl
  obtain ⟨hstop', hsame⟩ := (Spaced.spells hwords (htexts ▸ h)).lexes
  exact ⟨hstop', hsame, fun p => ⟨parse_of_same_words hsame.symm hstop,
    parse_of_same_words hsame hstop'⟩⟩

/-- Two signs that touch are set apart, and a sign of two characters stays together. -/
theorem Source.parse_spaced_iff_signs :
    let source := "a==!b"
    let source' := "\ta\n== !\r\nb "
    (lex source).stop = none ∧ Spaced ((lex source).tokens.map Token.text) source'.toList ∧
      (lex source').stop = none ∧
      (lex source').tokens.map Token.word = (lex source).tokens.map Token.word ∧
      ∀ p, parse source' = .ok p ↔ parse source = .ok p := by
  intro source source'
  have hstop : (lex source).stop = none := by decide +kernel
  have htexts : (lex source).tokens.map Token.text = ["a", "==", "!", "b"] := by decide +kernel
  have hspaced : Spaced ["a", "==", "!", "b"] source'.toList := by
    have hlast : Spaced ["b"] ['b', ' '] :=
      @Spaced.cons "b" [] [] [' '] [] (by simp) (by simp [isLayout]) (by simp) (.nil (by simp))
    have hthird : Spaced ["!", "b"] ['!', '\r', '\n', 'b', ' '] :=
      @Spaced.cons "!" _ [] ['\r', '\n'] _ (by simp) (by simp [isLayout]) (by simp) hlast
    have hsecond : Spaced ["==", "!", "b"] ['=', '=', ' ', '!', '\r', '\n', 'b', ' '] :=
      @Spaced.cons "==" _ [] [' '] _ (by simp) (by simp [isLayout]) (by simp) hthird
    have hchars : source'.toList =
        ['\t'] ++ "a".toList ++ ['\n'] ++ ['=', '=', ' ', '!', '\r', '\n', 'b', ' '] := by decide
    rw [hchars]
    exact .cons (by simp [isLayout]) (by simp [isLayout]) (by simp) hsecond
  have hspaced' := htexts.symm ▸ hspaced
  exact ⟨hstop, hspaced', parse_spaced_iff hstop hspaced'⟩

end Monkey
