import Mathlib.Data.List.Induction
import Monkey.Proofs.Words

/-!
# Texts cut between tokens

How far a text is read depends on what follows only at the place where it is cut: a
text that is cut in front of a token has the tokens in front of the cut, whatever
stands behind it after a space. `Front` is the reading of the front of a text, with
the rest of the text still there, so that no token is taken shorter than it is.

The position that a token carries is found character by character; `Position.behind`
says directly which it is.

## Main definitions

* `Position.behind` — the place behind some text, by the line feeds in it.
* `Lexer.Front` — some tokens at the front of a text.

## Main results

* `Front.text`, `Front.lexFrom` — the text in front of the place reached, and the reading of the
  whole text.
* `exists_front`, `Front.split` — a text is read up to its end or up to a character that starts
  no token, and every reading can be stopped behind any of its tokens.
* `Front.cut` — what has been read is read in front of a space too.
-/

namespace Monkey

/-! ## Places -/

namespace Position

/-- The place behind some text: its line is one more than there are line feeds in the text, its
column one more than there are characters behind the last of them. -/
def behind (cs : List Char) : Position :=
  ⟨cs.length, cs.count '\n' + 1, (cs.reverse.takeWhile (· != '\n')).length + 1⟩

theorem behind_snoc (cs : List Char) (c : Char) : behind (cs ++ [c]) = (behind cs).next c := by
  by_cases hc : c = '\n' <;> simp [behind, next, hc]

theorem after_start (cs : List Char) : start.after cs = behind cs := by
  induction cs using List.reverseRecOn with
  | nil => rfl
  | append_singleton cs c ih => rw [after_append, ih, after_cons, after_nil, behind_snoc]

end Position

namespace Lexer

/-! ## The front of a text -/

/-- From a position on, the front of a text is read as some tokens, up to the place of the rest.
Layout behind the last token may be skipped or not. -/
inductive Front : Position → List Char → List Token → Position → List Char → Prop where
  | done {p : Position} {cs : List Char} : Front p cs [] p cs
  | layout {p q : Position} {c : Char} {cs rest : List Char} {ts : List Token} :
    isLayout c = true → Front (p.next c) cs ts q rest → Front p (c :: cs) ts q rest
  | token {p q : Position} {c : Char} {kind : TokenKind} {more middle rest : List Char}
    {ts : List Token} :
    isLayout c = false → scan c (more ++ middle) = some ⟨kind, more, middle⟩ →
    Front (p.after (c :: more)) middle ts q rest →
    Front p (c :: (more ++ middle))
      (⟨kind, String.ofList (c :: more), p, p.after (c :: more)⟩ :: ts) q rest

/-- A token that starts at the place of a text. -/
def StartsAt (t : Token) (cs : List Char) : Prop :=
  ∃ c more rest kind, cs = c :: (more ++ rest) ∧ isLayout c = false ∧
    scan c (more ++ rest) = some ⟨kind, more, rest⟩ ∧
    t = ⟨kind, String.ofList (c :: more), t.start, t.start.after (c :: more)⟩

theorem StartsAt.text {t : Token} {cs : List Char} (h : StartsAt t cs) :
    t.text.toList <+: cs := by
  obtain ⟨c, more, rest, kind, rfl, -, -, ht⟩ := h
  rw [ht, String.toList_ofList]
  exact ⟨rest, rfl⟩

variable {p q : Position} {cs rest : List Char} {ts us : List Token}

namespace Front

/-- The rest of a text stands behind what has been read, and so does its place. -/
theorem text (h : Front p cs ts q rest) : ∃ front, cs = front ++ rest ∧ q = p.after front := by
  induction h with
  | done => exact ⟨[], rfl, rfl⟩
  | @layout p q c cs rest ts hc _ ih =>
    obtain ⟨front, rfl, rfl⟩ := ih
    exact ⟨c :: front, rfl, rfl⟩
  | @token p q c kind more middle rest ts hc hscan _ ih =>
    obtain ⟨front, rfl, rfl⟩ := ih
    refine ⟨c :: (more ++ front), by simp, ?_⟩
    rw [← List.cons_append, Position.after_append]

/-- What is passed without a token is layout. -/
theorem layout_of_nil (h : Front p cs [] q rest) :
    ∃ gap, cs = gap ++ rest ∧ q = p.after gap ∧ ∀ c ∈ gap, isLayout c = true := by
  generalize hts : ([] : List Token) = ts at h
  induction h with
  | done => exact ⟨[], rfl, rfl, nofun⟩
  | @layout p q c cs rest ts hc _ ih =>
    obtain ⟨gap, rfl, rfl, hgap⟩ := ih hts
    exact ⟨c :: gap, rfl, rfl, List.forall_mem_cons.2 ⟨hc, hgap⟩⟩
  | token => cases hts

/-- The tokens of a text are those of its front and those of its rest. -/
theorem lexFrom (h : Front p cs ts q rest) :
    lexFrom p cs = ⟨ts ++ (lexFrom q rest).tokens, (lexFrom q rest).stop⟩ := by
  induction h with
  | done => rfl
  | layout hc _ ih => rw [lexFrom_layout hc, ih]
  | token hc hscan _ ih => rw [lexFrom_token hc hscan, ih, List.cons_append]

/-- Reading can be stopped behind any token. -/
theorem split (h : Front p cs (ts ++ us) q rest) :
    ∃ m middle, Front p cs ts m middle ∧ Front m middle us q rest := by
  generalize hall : ts ++ us = all at h
  induction h generalizing ts with
  | @done p cs =>
    obtain ⟨rfl, rfl⟩ := List.append_eq_nil_iff.1 hall
    exact ⟨p, cs, .done, .done⟩
  | layout hc _ ih =>
    obtain ⟨m, middle, hfront, hmore⟩ := ih hall
    exact ⟨m, middle, .layout hc hfront, hmore⟩
  | @token p q c kind more middle rest ts' hc hscan hrest ih =>
    cases ts with
    | nil =>
      obtain rfl : us = _ := hall
      exact ⟨p, c :: (more ++ middle), .done, .token hc hscan hrest⟩
    | cons t ts =>
      obtain ⟨rfl, htail⟩ := List.cons.inj hall
      obtain ⟨m, middle, hfront, hmore⟩ := ih htail
      exact ⟨m, middle, .token hc hscan hfront, hmore⟩

/-- In front of a token there is nothing but layout. -/
theorem first {t : Token} (h : Front p cs (t :: us) q rest) :
    ∃ middle, Front p cs [] t.start middle ∧ StartsAt t middle := by
  generalize hall : t :: us = all at h
  induction h with
  | done => cases hall
  | layout hc _ ih =>
    obtain ⟨middle, hfront, hstarts⟩ := ih hall
    exact ⟨middle, .layout hc hfront, hstarts⟩
  | @token p q c kind more middle rest ts hc hscan _ ih =>
    obtain ⟨rfl, -⟩ := List.cons.inj hall
    exact ⟨c :: (more ++ middle), .done, c, more, middle, kind, rfl, hc, hscan, rfl⟩

/-- One reading goes on where another one stops. -/
theorem append {m : Position} {middle : List Char} (h : Front p cs ts m middle)
    (hmore : Front m middle us q rest) : Front p cs (ts ++ us) q rest := by
  induction h with
  | done => exact hmore
  | layout hc _ ih => exact .layout hc (ih hmore)
  | token hc hscan _ ih => exact .token hc hscan (ih hmore)

end Front

/-- A text is read up to its end, or up to a character that starts no token. -/
theorem exists_front (p : Position) (cs : List Char) :
    ∃ q rest, Front p cs (lexFrom p cs).tokens q rest ∧
      match (lexFrom p cs).stop with
      | none => rest = []
      | some (c, place) => place = q ∧ isLayout c = false ∧
          ∃ more, rest = c :: more ∧ scan c more = none := by
  induction p, cs using lexFrom.induct with
  | case1 p =>
    rw [lexFrom]
    exact ⟨p, [], .done, rfl⟩
  | case2 p c cs hc ih =>
    obtain ⟨q, rest, hfront, hend⟩ := ih
    rw [lexFrom_layout hc]
    exact ⟨q, rest, .layout hc hfront, hend⟩
  | case3 p c cs hc hscan =>
    have hc' : isLayout c = false := by simpa using hc
    rw [lexFrom_unreadable hc' hscan]
    exact ⟨p, c :: cs, .done, rfl, hc', cs, rfl, hscan⟩
  | case4 p c cs hc cut hscan finish ih =>
    have hc' : isLayout c = false := by simpa using hc
    obtain ⟨q, rest, hfront, hend⟩ := ih
    rw [lexFrom_token hc' hscan]
    obtain rfl := scan_append hscan
    exact ⟨q, rest, .token hc' hscan hfront, hend⟩

/-- A text in which every character can be read is read to its end. -/
theorem exists_front_of_stop {source : String} (h : (lex source).stop = none) :
    ∃ q, Front .start source.toList (lex source).tokens q [] := by
  obtain ⟨q, rest, hfront, hend⟩ := exists_front .start source.toList
  have hlex : lexFrom .start source.toList = lex source := rfl
  rw [hlex, h] at hend
  obtain rfl : rest = [] := hend
  exact ⟨q, hfront⟩

/-! ## Cutting -/

/-- A text that goes on like another one at its start, or with a space. -/
def FollowsLike (cs ds : List Char) : Prop := ∀ c ∈ ds.head?, c = ' ' ∨ cs.head? = some c

theorem FollowsLike.not_of_not {cs ds : List Char} {good : Char → Bool} (h : FollowsLike cs ds)
    (hspace : good ' ' = false) (hcs : ∀ c ∈ cs.head?, good c = false) :
    ∀ c ∈ ds.head?, good c = false := by
  intro c hc
  rcases h c hc with rfl | hhead
  · exact hspace
  · exact hcs c hhead

theorem head?_dropWhile {good : Char → Bool} (cs : List Char) :
    ∀ c ∈ (cs.dropWhile good).head?, good c = false := by
  intro c hc
  have hnot := List.head?_dropWhile_not good cs
  rw [hc] at hnot
  simpa using hnot

/-- The first part of a text is taken off again where what follows goes on like the text. -/
theorem takeWhile_of_followsLike (good : Char → Bool) (hspace : good ' ' = false)
    (h : FollowsLike (cs.dropWhile good) rest) :
    (cs.takeWhile good ++ rest).takeWhile good = cs.takeWhile good ∧
      (cs.takeWhile good ++ rest).dropWhile good = rest :=
  takeWhile_append_of_head (List.all_takeWhile (p := good) (l := cs))
    (h.not_of_not hspace (head?_dropWhile cs))

/-- A token is cut off in the same way where the text behind it starts in the same way. -/
theorem scan_of_followsLike {c : Char} {cut : Cut} (h : scan c cs = some cut)
    (hrest : FollowsLike cut.rest rest) :
    scan c (cut.more ++ rest) = some { cut with rest := rest } := by
  unfold scan at h ⊢
  by_cases hword : isWordStart c = true
  · rw [if_pos hword] at h ⊢
    obtain rfl := Option.some.inj h
    obtain ⟨htake, hdrop⟩ := takeWhile_of_followsLike isWordPart rfl hrest
    simp only [htake, hdrop]
  rw [if_neg hword] at h ⊢
  by_cases hnumeric : isNumeric c = true
  · rw [if_pos hnumeric] at h ⊢
    obtain rfl := Option.some.inj h
    obtain ⟨htake, hdrop⟩ := takeWhile_of_followsLike isNumeric rfl hrest
    simp only [htake, hdrop]
  rw [if_neg hnumeric] at h ⊢
  by_cases hquote : c = '"'
  · rw [if_pos hquote] at h ⊢
    split at h
    · next d ds hquoted =>
      obtain rfl := Option.some.inj h
      have hd : ∀ e ∈ (d :: rest).head?, (e != '"') = false := by
        intro e he
        exact head?_dropWhile cs e (by rw [hquoted]; exact he)
      obtain ⟨htake, hdrop⟩ := takeWhile_append_of_head
        (List.all_takeWhile (p := (· != '"')) (l := cs)) hd
      simp only [List.append_assoc, List.singleton_append, htake, hdrop]
    · cases h
  rw [if_neg hquote] at h ⊢
  split at h
  · obtain rfl := Option.some.inj h
    rfl
  · obtain rfl := Option.some.inj h
    rfl
  · next c' cs' hassign hbang =>
    obtain ⟨k, hk, rfl⟩ := Option.map_eq_some_iff.1 h
    -- The sign is not the start of a longer one: neither a space nor the old text goes on so.
    have hlonger : ∀ ds, rest = '=' :: ds → ∃ es, cs = '=' :: es := by
      rintro ds rfl
      rcases hrest '=' rfl with hspace | hsame
      · cases hspace
      · exact List.head?_eq_some_iff.1 hsame
    rw [List.nil_append]
    split
    · obtain ⟨es, hes⟩ := hlonger _ rfl
      exact absurd hes (hassign es rfl)
    · obtain ⟨es, hes⟩ := hlonger _ rfl
      exact absurd hes (hbang es rfl)
    · rw [hk]
      rfl

/-- What has been read at the front of a text is read in front of a space too. -/
theorem Front.cut (h : Front p cs ts q rest) (tail : List Char) :
    ∃ front, cs = front ++ rest ∧ Front p (front ++ ' ' :: tail) ts q (' ' :: tail) := by
  induction h with
  | done => exact ⟨[], rfl, .done⟩
  | @layout p q c cs rest ts hc _ ih =>
    obtain ⟨front, rfl, hread⟩ := ih
    exact ⟨c :: front, rfl, .layout hc hread⟩
  | @token p q c kind more middle rest ts hc hscan _ ih =>
    obtain ⟨front, rfl, hread⟩ := ih
    have hfollows : FollowsLike (front ++ rest) (front ++ ' ' :: tail) := by
      cases front with
      | nil => exact fun d hd => .inl (by simpa using hd.symm)
      | cons e front => exact fun d hd => .inr hd
    refine ⟨c :: (more ++ front), by simp, ?_⟩
    rw [List.cons_append, List.append_assoc]
    exact .token hc (scan_of_followsLike hscan hfollows) hread

end Lexer
end Monkey
