import Monkey.Proofs.Terminals

/-!
# The parts of a text

Reading a text divides it up: every character in front of the place where reading ended
is in exactly one token or is layout. A token carries where it starts and where it ends,
and it is the longest text at its place that a terminal matches. Where reading stopped
before the end, nothing matches.

## Main definitions

* `Token.Stands` — a token is where it says in a text, and is the longest match there.
* `Lexing.Partitions` — some tokens, and the place where reading ended, divide up a text.

## Main results

* `Front.stands`, `Front.inOrder`, `Front.gaps` — what is read at the front of a text.
* `lex_partitions` — the tokens of a text divide it up.
-/

namespace Monkey

open Monkey.Lexer

namespace Position

theorem behind_append (cs ds : List Char) : behind (cs ++ ds) = (behind cs).after ds := by
  rw [← after_start, after_append, after_start]

@[simp] theorem offset_behind (cs : List Char) : (behind cs).offset = cs.length := rfl

end Position

/-- A token stands in a text: its own text is that from its start to its end, lines and columns are
counted by the line feeds in front, and from its start no terminal matches a longer text. -/
structure Token.Stands (t : Token) (source : List Char) : Prop where
  nonempty : t.start.offset < t.finish.offset
  within : t.finish.offset ≤ source.length
  text : t.text.toList = source.extract t.start.offset t.finish.offset
  start : t.start = Position.behind (source.take t.start.offset)
  finish : t.finish = Position.behind (source.take t.finish.offset)
  longest : ∃ T, Longest T t.text.toList (source.drop t.start.offset) ∧ T.Labels t.text t.kind

/-- The offset at which reading ended. -/
def Lexing.reach (lexing : Lexing) (source : List Char) : Nat :=
  (lexing.stop.map (·.2.offset)).getD source.length

/-- The tokens of a reading stand in a text one behind the other, with nothing but layout in front
of them, between them and behind them, up to the end of the text or to a character where nothing
matches. -/
structure Lexing.Partitions (lexing : Lexing) (source : List Char) : Prop where
  tokens : ∀ t ∈ lexing.tokens, t.Stands source
  order : lexing.tokens.Pairwise fun t t' => t.finish.offset ≤ t'.start.offset
  reached : ∀ t ∈ lexing.tokens, t.finish.offset ≤ lexing.reach source
  gaps : ∀ i c, source[i]? = some c → i < lexing.reach source →
    (∀ t ∈ lexing.tokens, i < t.start.offset ∨ t.finish.offset ≤ i) →
    c ∈ [' ', '\t', '\x0c', '\r', '\n']
  stop : ∀ c p, lexing.stop = some (c, p) → p = Position.behind (source.take p.offset) ∧
    source[p.offset]? = some c ∧
    ∀ T text, Terminal.Matches T text → ¬ text <+: source.drop p.offset

namespace Lexer
variable {p q : Position} {cs rest passed : List Char} {ts : List Token}

/-! ## Tokens at their places -/

/-- A token that is read behind some text stands there. -/
theorem stands_of_scan {c : Char} {kind : TokenKind} {more : List Char} (hc : isLayout c = false)
    (hscan : scan c (more ++ rest) = some ⟨kind, more, rest⟩) :
    Token.Stands ⟨kind, String.ofList (c :: more), Position.behind passed,
      Position.behind (passed ++ c :: more)⟩ (passed ++ (c :: more ++ rest)) where
  nonempty := by simp
  within := by simp
  text := by simp [List.extract]
  start := by simp
  finish := by
    have htake : (passed ++ (c :: more ++ rest)).take (passed ++ c :: more).length =
        passed ++ c :: more := by
      rw [← List.append_assoc, List.take_left]
    rw [Position.offset_behind, htake]
  longest := by
    obtain ⟨T, hlongest, hlabels⟩ := longest_of_scan hc hscan
    exact ⟨T, by simpa using hlongest, hlabels⟩

/-- All tokens of a reading stand in the text that is read. -/
theorem Front.stands (h : Front (Position.behind passed) cs ts q rest) :
    ∀ t ∈ ts, t.Stands (passed ++ cs) := by
  generalize hp : Position.behind passed = p at h
  induction h generalizing passed with
  | done => simp
  | @layout p q c cs rest ts hc _ ih =>
    subst hp
    have hmore := ih (Position.behind_snoc passed c)
    rwa [List.append_assoc, List.singleton_append] at hmore
  | @token p q c kind more middle rest ts hc hscan _ ih =>
    subst hp
    have hmore := ih (Position.behind_append passed (c :: more))
    rw [List.append_assoc] at hmore
    refine List.forall_mem_cons.2 ⟨?_, hmore⟩
    rw [← Position.behind_append]
    exact stands_of_scan hc hscan

theorem offset_le_after (p : Position) (cs : List Char) : p.offset ≤ (p.after cs).offset := by
  rw [Position.offset_after]
  exact Nat.le_add_right ..

/-- Tokens are read from left to right. -/
theorem Front.inOrder (h : Front p cs ts q rest) : p.offset ≤ q.offset ∧
    (∀ t ∈ ts, p.offset ≤ t.start.offset ∧ t.finish.offset ≤ q.offset) ∧
    ts.Pairwise fun t t' => t.finish.offset ≤ t'.start.offset := by
  induction h with
  | done => simp
  | @layout p q c cs rest ts hc _ ih =>
    obtain ⟨hle, hbounds, horder⟩ := ih
    have hnext : p.offset ≤ (p.next c).offset := offset_le_after p [c]
    refine ⟨Nat.le_trans hnext hle, fun t ht => ?_, horder⟩
    exact ⟨Nat.le_trans hnext (hbounds t ht).1, (hbounds t ht).2⟩
  | @token p q c kind more middle rest ts hc hscan _ ih =>
    obtain ⟨hle, hbounds, horder⟩ := ih
    have hafter := offset_le_after p (c :: more)
    refine ⟨Nat.le_trans hafter hle, List.forall_mem_cons.2 ⟨⟨Nat.le_refl _, hle⟩, fun t ht => ?_⟩,
      List.pairwise_cons.2 ⟨fun t ht => (hbounds t ht).1, horder⟩⟩
    exact ⟨Nat.le_trans hafter (hbounds t ht).1, (hbounds t ht).2⟩

/-! ## Gaps -/

/-- What has been passed and is in no token is layout. -/
theorem Front.gaps (h : Front (Position.behind passed) cs ts q rest) {i : Nat} {d : Char}
    (hd : (passed ++ cs)[i]? = some d) (hfrom : passed.length ≤ i) (hto : i < q.offset)
    (hout : ∀ t ∈ ts, i < t.start.offset ∨ t.finish.offset ≤ i) : isLayout d = true := by
  generalize hp : Position.behind passed = p at h
  induction h generalizing passed with
  | done =>
    subst hp
    exact absurd hfrom (Nat.not_le.2 hto)
  | @layout p q c cs rest ts hc _ ih =>
    subst hp
    by_cases hi : i = passed.length
    · obtain rfl : c = d := by simpa [hi] using hd
      exact hc
    · have hd' : ((passed ++ [c]) ++ cs)[i]? = some d := by rwa [List.append_assoc]
      refine ih hd' ?_ hto hout (Position.behind_snoc passed c)
      rw [List.length_append, List.length_singleton]
      omega
  | @token p q c kind more middle rest ts hc hscan _ ih =>
    subst hp
    obtain ⟨hhead, htail⟩ := List.forall_mem_cons.1 hout
    have hbehind : passed.length + (c :: more).length ≤ i := by
      rw [Position.offset_after, Position.offset_behind] at hhead
      omega
    have hd' : ((passed ++ c :: more) ++ middle)[i]? = some d := by rwa [List.append_assoc]
    exact ih hd' (by rwa [List.length_append]) hto htail (Position.behind_append ..)

end Lexer

theorem mem_of_isLayout {c : Char} (h : isLayout c = true) :
    c ∈ [' ', '\t', '\x0c', '\r', '\n'] := by
  simpa [isLayout, or_assoc] using h

/-- The tokens of a text divide it up. -/
theorem lex_partitions (source : String) : (lex source).Partitions source.toList := by
  obtain ⟨q, rest, hfront, hend⟩ := exists_front .start source.toList
  obtain ⟨front, hsource, rfl⟩ := hfront.text
  rw [Position.after_start] at hfront hend
  have hlex : lexFrom .start source.toList = lex source := rfl
  rw [hlex] at hfront hend
  -- Reading starts behind nothing.
  change Front (Position.behind []) _ _ _ _ at hfront
  have hreach : (lex source).reach source.toList = front.length := by
    unfold Lexing.reach
    cases hstop : (lex source).stop with
    | none =>
      rw [hstop] at hend
      simp [hsource, hend]
    | some stop =>
      rw [hstop] at hend
      simp [hend.1]
  obtain ⟨-, hbounds, horder⟩ := hfront.inOrder
  refine ⟨?_, horder, ?_, ?_, ?_⟩
  · exact hfront.stands
  · rw [hreach]
    exact fun t ht => (hbounds t ht).2
  · intro i c hc hi hout
    rw [hreach] at hi
    exact mem_of_isLayout (hfront.gaps hc (Nat.zero_le _) hi hout)
  · intro c p hstop
    rw [hstop] at hend
    obtain ⟨rfl, hc, more, rfl, hscan⟩ := hend
    rw [Position.offset_behind, hsource]
    refine ⟨by simp, by simp, fun T text hfits => ?_⟩
    simpa using not_matches_of_scan hc hscan hfits

end Monkey
