import Monkey.Proofs.Legible
import Monkey.Proofs.ParserComplete
import Monkey.Proofs.Words

/-!
# Rendering is undone by parsing

The written form of a legible program is a text that parses to the program again.

What the written form of a tree does is said for texts and for words: which words
are read from it, whatever follows (`Spells`), and what reading these words does to
the parser (`Parser.Completes`). Each construct has one lemma that puts both
together from its parts. A statement without a semicolon is complete only when the
word behind it has been seen, so lists of statements also say what they begin with
(`Begins`).

## Main definitions

* `Spells`, `Closes` — texts and their words, in front of other texts.
* `Node.ReadAs` — expressions that are read, perhaps as other ones.
* `Node.Rereads`, `Node.Enclosed` — expressions that are read back.
* `Node.StatementRereads`, `Node.BodyRereads` — statements and blocks that are.

## Main results

* `Node.Tidy.spelled` — every part of a legible program is read back.
* `Source.parse_render` — rendering is undone by parsing.
-/

namespace Monkey

open Monkey.Parser Monkey.Lexer

/-! ## Texts and words -/

/-- Whatever follows the text, unless it goes on with the last word of it, the words of the text
are followed by the words of what follows. -/
def Spells (text : List Char) (ws : List Word) : Prop :=
  ∀ rest ws', Breaks rest → Words rest ws' → Words (text ++ rest) (ws ++ ws')

/-- Nothing at all goes on with the last word of the text. -/
def Closes (text : List Char) (ws : List Word) : Prop :=
  ∀ rest ws', Words rest ws' → Words (text ++ rest) (ws ++ ws')

theorem Closes.spells {text : List Char} {ws : List Word} (h : Closes text ws) : Spells text ws :=
  fun rest ws' _ => h rest ws'

/-- A text between two signs. -/
theorem Spells.between {o c : Char} {k k' : TokenKind} {text : List Char} {ws : List Word}
    (h : Spells text ws) (ho : IsSign o k) (hc : IsSign c k') :
    Closes (o :: (text ++ [c])) ((k, String.ofList [o]) :: (ws ++ [(k', String.ofList [c])])) := by
  intro rest ws' hwords
  have hinner := h _ _ hc.breaks (.sign hc hwords)
  simpa using Words.sign ho hinner

/-- A text with one behind it that nothing runs on into. -/
theorem Spells.append {c : Char} {text more : List Char} {ws ws' : List Word} (h : Spells text ws)
    (hc : isWordPart c = false) (h' : Spells (c :: more) ws') :
    Spells (text ++ c :: more) (ws ++ ws') := by
  intro rest ws'' hrest hwords
  have hmore := h' rest ws'' hrest hwords
  simpa using h _ _ (breaks_cons hc) hmore

/-- A text with commas, put together from the texts between them. `M` says what one of them is
read as, and `L` what all of them are read as. -/
theorem spells_commas {α : Type} {f : α → String} {M : α → List Word → Prop}
    {L : List α → List Word → Prop} (hone : ∀ {a w}, M a w → L [a] w)
    (hmore : ∀ {a w as ws}, M a w → L as ws → L (a :: as) (w ++ (.comma, ",") :: ws))
    {as : List α} (h : ∀ a ∈ as, ∃ w, Spells (f a).toList w ∧ M a w) (hne : as ≠ []) :
    ∃ ws, Spells (", ".intercalate (as.map f)).toList ws ∧ L as ws := by
  induction as with
  | nil => exact absurd rfl hne
  | cons a as ih =>
    obtain ⟨w, hspells, hmakes⟩ := h a List.mem_cons_self
    cases as with
    | nil => exact ⟨w, by simpa using hspells, hone hmakes⟩
    | cons b as =>
      obtain ⟨ws, hspells', hlists⟩ := ih (fun c hc => h c (List.mem_cons_of_mem _ hc)) nofun
      have hcomma : Spells (',' :: ' ' :: (", ".intercalate ((b :: as).map f)).toList)
          ((.comma, ",") :: ws) := fun rest ws' hrest hwords =>
        .sign .comma (.space (hspells' rest ws' hrest hwords))
      refine ⟨w ++ (.comma, ",") :: ws, ?_, hmore hmakes hlists⟩
      simpa [String.intercalate_cons_cons] using hspells.append rfl hcomma

/-! ## Operators -/

/-- An operator in front of its operand, which does not begin with another half of a sign. -/
theorem words_prefix {op : String} (hop : op ∈ ["!", "-"]) :
    ∃ k, (k = .bang ∨ k = .minus) ∧ ∀ c cs ws, c ≠ '=' → Words (c :: cs) ws →
      Words (op.toList ++ c :: cs) ((k, op) :: ws) := by
  simp only [List.mem_cons, List.not_mem_nil, or_false] at hop
  rcases hop with rfl | rfl
  · refine ⟨.bang, .inl rfl, fun c cs ws hc h => ?_⟩
    have hscan : scan '!' (c :: cs) = some ⟨.bang, [], c :: cs⟩ := by
      unfold scan
      rw [if_neg (by decide), if_neg (by decide), if_neg (by decide)]
      split
      · next hbang _ => exact absurd hbang (by decide)
      · next heq => exact absurd (List.cons.inj heq).1 hc
      · rfl
    exact .token rfl hscan nofun h
  · exact ⟨.minus, .inr rfl, fun c cs ws _ h => .sign ⟨rfl, rfl, fun _ => rfl⟩ h⟩

/-- An operator between its operands, with the space behind it. -/
theorem words_infix {op : String} (hop : op ∈ ["==", "!=", "<", ">", "+", "-", "*", "/"]) :
    ∃ k level, Infix k level ∧ ∀ cs ws, Words cs ws →
      Words (op.toList ++ ' ' :: cs) ((k, op) :: ws) := by
  have htwo : ∀ {c k} {cs : List Char} {ws}, isLayout c = false →
      scan c ('=' :: cs) = some ⟨k, ['='], cs⟩ → k ≠ .int → Words cs ws →
      Words (c :: '=' :: cs) ((k, String.ofList [c, '=']) :: ws) :=
    fun hc hscan hk h => .token hc hscan (absurd · hk) h
  simp only [List.mem_cons, List.not_mem_nil, or_false] at hop
  rcases hop with rfl | rfl | rfl | rfl | rfl | rfl | rfl | rfl
  · exact ⟨.eq, 1, .eq, fun cs ws h => htwo rfl rfl nofun (.space h)⟩
  · exact ⟨.notEq, 1, .notEq, fun cs ws h => htwo rfl rfl nofun (.space h)⟩
  · exact ⟨.lt, 2, .lt, fun cs ws h => .sign ⟨rfl, rfl, fun _ => rfl⟩ (.space h)⟩
  · exact ⟨.gt, 2, .gt, fun cs ws h => .sign ⟨rfl, rfl, fun _ => rfl⟩ (.space h)⟩
  · exact ⟨.plus, 3, .plus, fun cs ws h => .sign ⟨rfl, rfl, fun _ => rfl⟩ (.space h)⟩
  · exact ⟨.minus, 3, .minus, fun cs ws h => .sign ⟨rfl, rfl, fun _ => rfl⟩ (.space h)⟩
  · exact ⟨.star, 4, .star, fun cs ws h => .sign ⟨rfl, rfl, fun _ => rfl⟩ (.space h)⟩
  · exact ⟨.slash, 4, .slash, fun cs ws h => .sign ⟨rfl, rfl, fun _ => rfl⟩ (.space h)⟩

/-! ## Statements and the words behind them -/

/-- A word that ends an expression statement in front of it: none that the statement could go on
with. -/
def endsStatement (k : TokenKind) : Bool :=
  k != .lparen && k != .lbracket && k != .semicolon && k != .kwElse && (level? k).isNone

/-- How a text and its words begin: with a character that makes no other sign of the one in front
of it, and with a word that ends a statement in front of it, unless it is a bracket. -/
def Begins (text : List Char) (ws : List Word) : Prop :=
  ∃ c more k t rest, text = c :: more ∧ ws = (k, t) :: rest ∧ c ≠ '=' ∧
    (c ≠ '(' → c ≠ '[' → endsStatement k = true)

theorem Begins.append {text : List Char} {ws : List Word} (h : Begins text ws)
    (more : List Char) (ws' : List Word) : Begins (text ++ more) (ws ++ ws') := by
  obtain ⟨c, cs, k, t, rest, rfl, rfl, hsign, hends⟩ := h
  exact ⟨c, cs ++ more, k, t, rest ++ ws', rfl, rfl, hsign, hends⟩

theorem Begins.ne_nil {text : List Char} {ws : List Word} (h : Begins text ws) : ws ≠ [] := by
  obtain ⟨_, _, _, _, _, _, rfl, _⟩ := h
  exact nofun

namespace Parser

theorem stepOperator_endsStatement {e : Node} {k : TokenKind} {text : String}
    {pending : List Pending} (hk : endsStatement k = true) :
    stepOperator e k text pending =
      stepExpressionEnd (reduce 0 e pending).1 k text (reduce 0 e pending).2 := by
  cases k <;> first | rfl | exact absurd hk (by decide)

/-- A word that ends a statement is read behind an expression as it is read behind the statement
that the expression is. -/
theorem read_exprStatement {e : Node} {we ws : List Word} {k : TokenKind} {text : String}
    (he : Completes (.expr 6 e) we) (hne : we ≠ []) (hk : endsStatement k = true)
    (owner : Owner) (done : List Node) (pending : List Pending) :
    read ⟨.statement, .statements owner done :: pending⟩ (we ++ (k, text) :: ws) =
      read ⟨.statement, .statements owner (.exprStmt e :: done) :: pending⟩ ((k, text) :: ws) := by
  have hhole : holeLevel (.exprStatement :: .statements owner done :: pending) ≤ 6 :=
    Nat.le_of_ble_eq_true rfl
  obtain ⟨st, hread, hready⟩ := he.ready hhole
  have helse : k ≠ .kwElse := by
    rintro rfl
    exact absurd hk (by decide)
  have hsemicolon : k ≠ .semicolon := by
    rintro rfl
    exact absurd hk (by decide)
  have hstep : step st k text =
      stepStatement k text (.statements owner (.exprStmt e :: done) :: pending) := by
    rw [hready.step helse, stepOperator_endsStatement hk, reduce_of_not_isOperator rfl]
    exact if_neg hsemicolon
  rw [read_append, read_statement hread hne, Option.bind_some, read_cons, hstep]
  rfl

theorem finish_exprStatement {e : Node} {we : List Word} (he : Completes (.expr 1 e) we)
    (hne : we ≠ []) (done : List Node) :
    ∃ st, read ⟨.statement, [.statements .program done]⟩ we = some st ∧
      finish st = some (.program (done.reverse ++ [.exprStmt e])) := by
  have hhole : holeLevel [.exprStatement, .statements .program done] ≤ 1 :=
    Nat.le_of_ble_eq_true rfl
  obtain ⟨st, operand, inner, hread, hready, hreduce, -⟩ := he _ hhole
  have hfinish : finishExpression operand inner =
      some (.program (done.reverse ++ [.exprStmt e])) := by
    rw [finishExpression, hreduce 0 (Nat.zero_le 1), reduce_of_not_isOperator rfl]
    simp [statement?]
  refine ⟨st, read_statement hread hne, ?_⟩
  cases hready with
  | operator => exact hfinish
  | ifEnd => exact hfinish

end Parser

/-! ## Expressions -/

namespace Node

/-- The written form of a tree is read as an expression of a level, which may be another tree. -/
structure ReadAs (level : Nat) (n e : Node) (ws : List Word) : Prop where
  spells : Spells n.render.toList ws
  completes : Completes (.expr level e) ws

namespace ReadAs

theorem lower {level level' : Nat} {n e : Node} {ws : List Word} (h : n.ReadAs level e ws)
    (hle : level' ≤ level) : n.ReadAs level' e ws :=
  ⟨h.spells, h.completes.lower hle⟩

variable {f : Node → Node}

/-- Any number of expressions, with commas between them. -/
theorem list {ns : List Node} (h : ∀ n ∈ ns, ∃ ws, n.ReadAs 1 (f n) ws) :
    ∃ ws, Spells (", ".intercalate (renderList ns)).toList ws ∧
      Completes (.list (ns.map f)) ws := by
  rw [renderList_eq_map]
  cases ns with
  | nil => exact ⟨[], fun _ _ _ hwords => hwords, .noList⟩
  | cons n ns =>
    obtain ⟨ws, hspells, hargs⟩ := spells_commas (f := render)
      (M := fun n wn => Completes (.expr 1 (f n)) wn)
      (L := fun ns ws => Completes (.args (ns.map f)) ws)
      .arg .args (fun a ha => (h a ha).imp fun w hw => ⟨hw.spells, hw.completes⟩)
      (List.cons_ne_nil n ns)
    exact ⟨ws, hspells, .list hargs⟩

theorem array {ns : List Node} (h : ∀ n ∈ ns, ∃ ws, n.ReadAs 1 (f n) ws) :
    ∃ ws, (Node.array ns).ReadAs 6 (.array (ns.map f)) ws ∧
      Begins (Node.array ns).render.toList ws := by
  obtain ⟨ws, hspells, hlist⟩ := list h
  have hrender : (Node.array ns).render.toList =
      '[' :: ((", ".intercalate (renderList ns)).toList ++ [']']) := by
    simp [render]
  refine ⟨(.lbracket, "[") :: (ws ++ [(.rbracket, "]")]), ⟨?_, hlist.array.tighter⟩, ?_⟩
  · rw [hrender]
    exact (hspells.between .lbracket .rbracket).spells
  · exact ⟨'[', _, .lbracket, _, _, hrender, rfl, by decide, fun _ h => absurd rfl h⟩

/-- A key with its value, as it stands between two commas. -/
theorem pair {k v k' v' : Node} {wk wv : List Word} (hk : k.ReadAs 1 k' wk)
    (hv : v.ReadAs 1 v' wv) :
    Spells (k.render ++ ": " ++ v.render).toList (wk ++ (.colon, ":") :: wv) := by
  have hcolon : Spells (':' :: ' ' :: v.render.toList) ((.colon, ":") :: wv) :=
    fun rest ws' hrest hwords => .sign .colon (.space (hv.spells rest ws' hrest hwords))
  simpa using hk.spells.append rfl hcolon

/-- Any number of keys with their values, with commas between them. -/
theorem entries {ps : List (Node × Node)}
    (h : ∀ n ∈ (Node.hash ps).operands, ∃ ws, n.ReadAs 1 (f n) ws) :
    ∃ ws, Spells (", ".intercalate (renderPairs ps)).toList ws ∧
      Completes (.entries (ps.map fun p => (f p.1, f p.2))) ws := by
  rw [renderPairs_eq_map]
  cases ps with
  | nil => exact ⟨[], fun _ _ _ hwords => hwords, .noEntries⟩
  | cons p ps =>
    have hpair : ∀ q ∈ p :: ps, ∃ w, Spells (q.1.render ++ ": " ++ q.2.render).toList w ∧
        ∃ wk wv, w = wk ++ (.colon, ":") :: wv ∧
          Completes (.expr 1 (f q.1)) wk ∧ Completes (.expr 1 (f q.2)) wv := by
      intro q hq
      obtain ⟨wk, hk⟩ := h q.1 (mem_operands_hash hq).1
      obtain ⟨wv, hv⟩ := h q.2 (mem_operands_hash hq).2
      exact ⟨_, pair hk hv, wk, wv, rfl, hk.completes, hv.completes⟩
    have hpairs := spells_commas
      (L := fun ps ws => Completes (.pairs (ps.map fun p => (f p.1, f p.2))) ws) ?_ ?_ hpair
      (List.cons_ne_nil p ps)
    · obtain ⟨ws, hspells, hpairs⟩ := hpairs
      exact ⟨ws, hspells, .entries hpairs⟩
    · rintro ⟨k, v⟩ w ⟨wk, wv, rfl, hk, hv⟩
      exact hk.pair hv
    · rintro ⟨k, v⟩ w ps ws ⟨wk, wv, rfl, hk, hv⟩ hps
      simpa using hk.pairs hv hps

theorem hash {ps : List (Node × Node)}
    (h : ∀ n ∈ (Node.hash ps).operands, ∃ ws, n.ReadAs 1 (f n) ws) :
    ∃ ws, (Node.hash ps).ReadAs 6 (.hash (ps.map fun p => (f p.1, f p.2))) ws ∧
      Begins (Node.hash ps).render.toList ws := by
  obtain ⟨ws, hspells, hentries⟩ := entries h
  have hrender : (Node.hash ps).render.toList =
      '\x7b' :: ((", ".intercalate (renderPairs ps)).toList ++ ['\x7d']) := by
    simp [render]
  refine ⟨(.lbrace, "\x7b") :: (ws ++ [(.rbrace, "\x7d")]), ⟨?_, hentries.hash.tighter⟩, ?_⟩
  · rw [hrender]
    exact (hspells.between .lbrace .rbrace).spells
  · exact ⟨'\x7b', _, .lbrace, _, _, hrender, rfl, by decide, fun _ _ => rfl⟩

end ReadAs

/-- An expression is read back as one operand. -/
structure Rereads (e : Node) (ws : List Word) : Prop where
  spells : Spells e.render.toList ws
  completes : Completes (.expr 6 e) ws
  begins : Begins e.render.toList ws

/-- An expression is written in brackets, and what is between them is read back as it. -/
def Enclosed (e : Node) (ws : List Word) : Prop :=
  ∃ text, e.render.toList = '(' :: (text ++ [')']) ∧ Spells text ws ∧ Completes (.expr 1 e) ws

namespace Rereads
variable {e : Node} {ws : List Word}

theorem whole (h : e.Rereads ws) : Completes (.expr 1 e) ws :=
  h.completes.lower (by decide)

theorem readAs (h : e.Rereads ws) : e.ReadAs 1 e ws :=
  ⟨h.spells, h.whole⟩

theorem of_enclosed (h : e.Enclosed ws) :
    e.Rereads ((.lparen, "(") :: (ws ++ [(.rparen, ")")])) := by
  obtain ⟨text, htext, hspells, hcompletes⟩ := h
  refine ⟨?_, hcompletes.paren.tighter, ?_⟩
  · rw [htext]
    exact (hspells.between .lparen .rparen).spells
  · exact ⟨'(', _, .lparen, "(", _, htext, rfl, by decide, fun h => absurd rfl h⟩

/-- An expression that is written as one word. -/
theorem word {w : String} {k : TokenKind} {c : Char} {more : List Char} (hw : w.toList = c :: more)
    (hc : isWordStart c = true) (hmore : more.all isWordPart = true)
    (hk : TokenKind.ofWord w = k) (hends : endsStatement k = true) (hrender : e.render = w)
    (hbegin : ∀ pending, beginOperand k w pending = some ⟨.operator e, pending⟩) :
    e.Rereads [(k, w)] := by
  refine ⟨?_, .word hbegin, ?_⟩
  · intro rest ws' hrest hwords
    rw [hrender]
    exact .word hw hc hmore hk hrest hwords
  · refine ⟨c, more, k, w, [], by rw [hrender, hw], rfl, ?_, fun _ _ => hends⟩
    rintro rfl
    exact absurd hc (by decide)

theorem ident {name : String} (h : isName name = true) :
    (Node.ident name).Rereads [(.ident, name)] := by
  obtain ⟨c, more, hname, hc, hmore, hkind⟩ := isName_iff.1 h
  exact word hname hc hmore hkind rfl rfl fun _ => rfl

theorem bool (b : Bool) : ∃ ws, (Node.bool b).Rereads ws := by
  cases b with
  | false => exact ⟨_, word (w := "false") rfl rfl rfl rfl rfl rfl fun _ => rfl⟩
  | true => exact ⟨_, word (w := "true") rfl rfl rfl rfl rfl rfl fun _ => rfl⟩

theorem int {n : Int} (hpos : 0 ≤ n) (hwritable : Numeral.Writable n) :
    ∃ ws, (Node.int n).Rereads ws := by
  obtain ⟨n, rfl⟩ := Int.eq_ofNat_of_zero_le hpos
  obtain ⟨c, more, hdigits, hc, hmore⟩ := Numeral.digits_repr n
  have hlength : (c :: more).length ≤ Numeral.maxDigits := by
    rw [← hdigits]
    exact Numeral.length_repr_le hwritable
  have hrender : (Node.int n).render.toList = c :: more := hdigits
  refine ⟨[(.int, String.ofList (c :: more))], ?_, .word fun pending => ?_, ?_⟩
  · intro rest ws' hrest hwords
    rw [hrender]
    exact .number hc hmore hlength hrest hwords
  · rw [beginOperand, String.toList_ofList, ← hdigits, Numeral.ofDigits_repr]
  · refine ⟨c, more, .int, _, [], hrender, rfl, ?_, fun _ _ => rfl⟩
    rintro rfl
    exact absurd hc (by decide)

theorem str {s : String} (h : '"' ∉ s.toList) : ∃ ws, (Node.str s).Rereads ws := by
  have hrender : (Node.str s).render.toList = '"' :: (s.toList ++ ['"']) := by
    simp [render]
  refine ⟨[(.string, String.ofList ('"' :: (s.toList ++ ['"'])))], ?_, .word fun pending => ?_, ?_⟩
  · intro rest ws' _ hwords
    rw [hrender]
    simpa using Words.quoted h hwords
  · simp [beginOperand]
  · exact ⟨'"', _, .string, _, [], hrender, rfl, by decide, fun _ _ => rfl⟩

theorem array {es : List Node} (h : ∀ e ∈ es, ∃ ws, e.Rereads ws) :
    ∃ ws, (Node.array es).Rereads ws := by
  obtain ⟨ws, hread, hbegins⟩ := ReadAs.array (f := id) fun e he => (h e he).imp fun _ => readAs
  rw [List.map_id] at hread
  exact ⟨ws, hread.spells, hread.completes, hbegins⟩

theorem call {f : Node} {es : List Node} (hf : ∃ ws, f.Rereads ws)
    (h : ∀ e ∈ es, ∃ ws, e.Rereads ws) : ∃ ws, (Node.call f es).Rereads ws := by
  obtain ⟨wf, hf⟩ := hf
  obtain ⟨ws, hspells, hlist⟩ := ReadAs.list (f := id) fun e he => (h e he).imp fun _ => readAs
  rw [List.map_id] at hlist
  have hrender : (Node.call f es).render.toList =
      f.render.toList ++ '(' :: ((", ".intercalate (renderList es)).toList ++ [')']) := by
    simp [render]
  refine ⟨wf ++ (.lparen, "(") :: (ws ++ [(.rparen, ")")]), ?_, hf.completes.call hlist, ?_⟩
  · rw [hrender]
    exact hf.spells.append rfl (hspells.between .lparen .rparen).spells
  · rw [hrender]
    exact hf.begins.append _ _

theorem hash {ps : List (Node × Node)} (h : ∀ e ∈ (Node.hash ps).operands, ∃ ws, e.Rereads ws) :
    ∃ ws, (Node.hash ps).Rereads ws := by
  obtain ⟨ws, hread, hbegins⟩ := ReadAs.hash (f := id) fun e he => (h e he).imp fun _ => readAs
  have hself : (ps.map fun p => (id p.1, id p.2)) = ps := List.map_id ps
  rw [hself] at hread
  exact ⟨ws, hread.spells, hread.completes, hbegins⟩

end Rereads

namespace Enclosed

theorem index {l i : Node} (hl : ∃ ws, l.Rereads ws) (hi : ∃ ws, i.Rereads ws) :
    ∃ ws, (Node.index l i).Enclosed ws := by
  obtain ⟨wl, hl⟩ := hl
  obtain ⟨wi, hi⟩ := hi
  refine ⟨wl ++ (.lbracket, "[") :: (wi ++ [(.rbracket, "]")]),
    l.render.toList ++ '[' :: (i.render.toList ++ [']']), by simp [render], ?_, ?_⟩
  · exact hl.spells.append rfl (hi.spells.between .lbracket .rbracket).spells
  · exact (hl.completes.index hi.whole).lower (by decide)

theorem prefixOp {op : String} {r : Node} (hop : op ∈ ["!", "-"]) (hr : ∃ ws, r.Rereads ws) :
    ∃ ws, (Node.prefixOp op r).Enclosed ws := by
  obtain ⟨wr, hr⟩ := hr
  obtain ⟨k, hk, hsign⟩ := words_prefix hop
  refine ⟨(k, op) :: wr, op.toList ++ r.render.toList, by simp [render], ?_, ?_⟩
  · intro rest ws' hrest hwords
    have hright := hr.spells rest ws' hrest hwords
    obtain ⟨c, cs, _, _, _, htext, _, hc, _⟩ := hr.begins
    rw [htext] at hright ⊢
    simpa using hsign _ _ _ hc hright
  · exact (hr.completes.tighter.prefixOp hk).lower (by decide)

theorem infixOp {op : String} {l r : Node}
    (hop : op ∈ ["==", "!=", "<", ">", "+", "-", "*", "/"]) (hl : ∃ ws, l.Rereads ws)
    (hr : ∃ ws, r.Rereads ws) : ∃ ws, (Node.infixOp l op r).Enclosed ws := by
  obtain ⟨wl, hl⟩ := hl
  obtain ⟨wr, hr⟩ := hr
  obtain ⟨k, level, hk, hsign⟩ := words_infix hop
  have hbounds := hk.bounds
  refine ⟨wl ++ (k, op) :: wr, l.render.toList ++ ' ' :: (op.toList ++ ' ' :: r.render.toList),
    by simp [render], ?_, ?_⟩
  · refine hl.spells.append rfl fun rest ws' hrest hwords => .space ?_
    simpa using hsign _ _ (hr.spells rest ws' hrest hwords)
  · have hlevel : Completes (.expr level (.infixOp l op r)) (wl ++ (k, op) :: wr) :=
      .infixOp hk (hl.completes.lower (by omega)) (hr.completes.lower (by omega))
    exact hlevel.lower hbounds.1

end Enclosed

/-! ## Constructs with bodies -/

/-- A list of statements is read back as a block. -/
structure BodyRereads (ss : List Node) (ws : List Word) : Prop where
  spells : Spells (renderBlock ss).toList ws
  completes : Completes (.block ss) ws

namespace Rereads

/-- The words of an `if` up to the end of its first block. -/
theorem spells_if {text : List Char} {t : List Node} {wc wt : List Word} (hc : Spells text wc)
    (ht : BodyRereads t wt) :
    Spells ("if".toList ++ ' ' :: '(' :: (text ++ ')' :: ' ' :: (renderBlock t).toList))
      ((.kwIf, "if") :: (.lparen, "(") :: (wc ++ (.rparen, ")") :: wt)) := by
  intro rest ws' hrest hwords
  have hblock := ht.spells rest ws' hrest hwords
  have hcondition := hc _ _ IsSign.rparen.breaks (.sign .rparen (.space hblock))
  have hif := Words.word (w := "if") (k := .kwIf) rfl rfl rfl rfl breaks_space
    (.space (.sign .lparen hcondition))
  simpa using hif

theorem ifExpr {c : Node} {t : List Node} (hc : ∃ ws, c.Enclosed ws)
    (ht : ∃ ws, BodyRereads t ws) : ∃ ws, (Node.ifExpr c t none).Rereads ws := by
  obtain ⟨wc, text, htext, hspells, hcompletes⟩ := hc
  obtain ⟨wt, ht⟩ := ht
  have hrender : (Node.ifExpr c t none).render.toList =
      "if".toList ++ ' ' :: '(' :: (text ++ ')' :: ' ' :: (renderBlock t).toList) := by
    simp [render, renderElse, htext]
  refine ⟨(.kwIf, "if") :: (.lparen, "(") :: (wc ++ (.rparen, ")") :: wt), ?_,
    (hcompletes.ifExpr ht.completes).tighter, ?_⟩
  · rw [hrender]
    exact spells_if hspells ht
  · exact ⟨'i', _, .kwIf, "if", _, hrender, rfl, by decide, fun _ _ => rfl⟩

theorem ifElse {c : Node} {t e : List Node} (hc : ∃ ws, c.Enclosed ws)
    (ht : ∃ ws, BodyRereads t ws) (he : ∃ ws, BodyRereads e ws) :
    ∃ ws, (Node.ifExpr c t (some e)).Rereads ws := by
  obtain ⟨wc, text, htext, hspells, hcompletes⟩ := hc
  obtain ⟨wt, ht⟩ := ht
  obtain ⟨we, he⟩ := he
  have hrender : (Node.ifExpr c t (some e)).render.toList =
      "if".toList ++ ' ' :: '(' :: (text ++ ')' :: ' ' :: (renderBlock t).toList) ++
        ' ' :: ("else".toList ++ ' ' :: (renderBlock e).toList) := by
    simp [render, renderElse, htext]
  have helse : Spells (' ' :: ("else".toList ++ ' ' :: (renderBlock e).toList))
      ((.kwElse, "else") :: we) := by
    intro rest ws' hrest hwords
    have hblock := he.spells rest ws' hrest hwords
    have helse := Words.word (w := "else") (k := .kwElse) rfl rfl rfl rfl breaks_space
      (.space hblock)
    simpa using Words.space helse
  refine ⟨(.kwIf, "if") :: (.lparen, "(") ::
    (wc ++ (.rparen, ")") :: (wt ++ (.kwElse, "else") :: we)), ?_,
    (hcompletes.ifElse ht.completes he.completes).tighter, ?_⟩
  · rw [hrender]
    simpa using (spells_if hspells ht).append rfl helse
  · exact ⟨'i', _, .kwIf, "if", _, hrender, rfl, by decide, fun _ _ => rfl⟩

/-- Any number of names, with commas between them. -/
theorem names {names : List String} (h : ∀ name ∈ names, isName name = true) :
    ∃ ws, Spells (", ".intercalate names).toList ws ∧ Completes (.names names) ws := by
  cases names with
  | nil => exact ⟨[], fun _ _ _ hwords => hwords, .noNames⟩
  | cons name names =>
    have hname : ∀ n ∈ name :: names, ∃ w, Spells (id n).toList w ∧ w = [(.ident, n)] :=
      fun n hn => ⟨_, (ident (h n hn)).spells, rfl⟩
    obtain ⟨ws, hspells, hparams⟩ := spells_commas
      (L := fun names ws => Completes (.params names) ws)
      (by rintro n _ rfl; exact .param) (by rintro n _ ns ws rfl hns; exact hns.params) hname
      (List.cons_ne_nil name names)
    exact ⟨ws, by simpa using hspells, .names hparams⟩

theorem literal (form : Form) {names : List String} {body : List Node}
    (hn : ∀ name ∈ names, isName name = true) (hb : ∃ ws, BodyRereads body ws) :
    ∃ ws, (form.literal names body).Rereads ws := by
  obtain ⟨wn, hspells, hnames⟩ := Rereads.names hn
  obtain ⟨wb, hb⟩ := hb
  obtain ⟨word, c, more, hword, hc, hmore, hkind, hrender⟩ : ∃ word c more,
      word.toList = c :: more ∧ isWordStart c = true ∧ more.all isWordPart = true ∧
      TokenKind.ofWord word = form.keyword ∧
      (form.literal names body).render = renderHead word names ++ renderBlock body := by
    cases form with
    | fn => exact ⟨"fn", 'f', ['n'], rfl, rfl, rfl, rfl, by simp [Form.literal, render]⟩
    | macroLit =>
      exact ⟨"macro", 'm', ['a', 'c', 'r', 'o'], rfl, rfl, rfl, rfl, by
        simp [Form.literal, render]⟩
  have htext : (form.literal names body).render.toList = word.toList ++ '(' ::
      ((", ".intercalate names).toList ++ ')' :: ' ' :: (renderBlock body).toList) := by
    simp [hrender, renderHead]
  refine ⟨(form.keyword, word) :: (.lparen, "(") :: (wn ++ (.rparen, ")") :: wb), ?_,
    (hnames.literal hb.completes).tighter, ?_⟩
  · intro rest ws' hrest hwords
    have hblock := hb.spells rest ws' hrest hwords
    have hparams := hspells _ _ IsSign.rparen.breaks (.sign .rparen (.space hblock))
    have hliteral := Words.word hword hc hmore hkind IsSign.lparen.breaks (.sign .lparen hparams)
    rw [htext]
    simpa using hliteral
  · refine ⟨c, _, form.keyword, word, _, by rw [htext, hword]; rfl, rfl, ?_, fun _ _ => ?_⟩
    · rintro rfl
      exact absurd hc (by decide)
    · cases form <;> rfl

end Rereads

/-! ## Statements -/

/-- A statement is read back: one with a semicolon whatever follows, and one that consists of an
expression like this expression. -/
inductive StatementRereads : Node → List Word → Prop where
  | expression {e : Node} {ws : List Word} (h : e.Rereads ws) : StatementRereads (exprStmt e) ws
  | ended {s : Node} {ws : List Word} (closes : Closes s.render.toList ws)
    (completes : Completes (.statement s) ws) (begins : Begins s.render.toList ws) :
    StatementRereads s ws

namespace StatementRereads
variable {s : Node} {ws : List Word}

theorem spells (h : StatementRereads s ws) : Spells s.render.toList ws := by
  cases h with
  | expression h => exact h.spells
  | ended closes _ _ => exact closes.spells

theorem begins (h : StatementRereads s ws) : Begins s.render.toList ws := by
  cases h with
  | expression h => exact h.begins
  | ended _ _ begins => exact begins

theorem letStmt {name : String} {e : Node} (hname : isName name = true) (he : ∃ ws, e.Rereads ws) :
    ∃ ws, StatementRereads (Node.letStmt name e) ws := by
  obtain ⟨we, he⟩ := he
  obtain ⟨c, more, hchars, hc, hmore, hkind⟩ := isName_iff.1 hname
  have hrender : (Node.letStmt name e).render.toList = "let".toList ++ ' ' ::
      (name.toList ++ ' ' :: '=' :: ' ' :: (e.render.toList ++ [';'])) := by
    simp [render]
  refine ⟨(.kwLet, "let") :: (.ident, name) :: (.assign, "=") :: (we ++ [(.semicolon, ";")]),
    .ended ?_ he.whole.letStmt ?_⟩
  · intro rest ws' hwords
    have hvalue := he.spells _ _ IsSign.semicolon.breaks (.sign .semicolon hwords)
    have hscan : scan '=' (' ' :: (e.render.toList ++ ';' :: rest)) = some ⟨.assign, [], _⟩ := rfl
    have hassign := Words.token rfl hscan nofun (.space hvalue)
    have hbinding := Words.word hchars hc hmore hkind breaks_space (.space hassign)
    have hlet := Words.word (w := "let") (k := .kwLet) rfl rfl rfl rfl breaks_space
      (.space hbinding)
    rw [hrender]
    simpa using hlet
  · exact ⟨'l', _, .kwLet, "let", _, hrender, rfl, by decide, fun _ _ => rfl⟩

theorem returnStmt {e : Node} (he : ∃ ws, e.Rereads ws) :
    ∃ ws, StatementRereads (Node.returnStmt e) ws := by
  obtain ⟨we, he⟩ := he
  have hrender : (Node.returnStmt e).render.toList =
      "return".toList ++ ' ' :: (e.render.toList ++ [';']) := by
    simp [render]
  refine ⟨(.kwReturn, "return") :: (we ++ [(.semicolon, ";")]), .ended ?_ he.whole.returnStmt ?_⟩
  · intro rest ws' hwords
    have hvalue := he.spells _ _ IsSign.semicolon.breaks (.sign .semicolon hwords)
    have hreturn := Words.word (w := "return") (k := .kwReturn) rfl rfl rfl rfl breaks_space
      (.space hvalue)
    rw [hrender]
    simpa using hreturn
  · exact ⟨'r', _, .kwReturn, "return", _, hrender, rfl, by decide, fun _ _ => rfl⟩

end StatementRereads

/-! ## Blocks -/

/-- The statements of a block, each with a space behind it. -/
def spaced (ss : List Node) : List Char := ss.flatMap fun s => s.render.toList ++ [' ']

theorem toList_renderBlock (ss : List Node) :
    (renderBlock ss).toList = '\x7b' :: ' ' :: (spaced ss ++ ['\x7d']) := by
  have hjoin : ∀ s ss, (" ".intercalate (render s :: renderList ss)).toList ++ [' '] =
      spaced (s :: ss) := by
    intro s ss
    induction ss generalizing s with
    | nil => simp [spaced, renderList]
    | cons s' ss ih =>
      have htail := ih s'
      simp only [spaced, renderList, List.flatMap_cons] at htail ⊢
      rw [← htail]
      simp [String.intercalate_cons_cons]
  cases ss with
  | nil => simp [renderBlock, spaced]
  | cons s ss =>
    rw [← hjoin s ss]
    simp [renderBlock]

/-- The statements of a block are read back one by one, up to the brace behind them. The first
word of them, or the brace, ends a statement in front unless they begin with a bracket. -/
theorem statements_reread {ss : List Node} (h : ∀ s ∈ ss, ∃ ws, StatementRereads s ws)
    (hseparate : Separate ss) :
    ∃ ws, Closes (spaced ss) ws ∧
      (∀ text, (∀ s ∈ ss.head?, ¬ s.OpensBracket) → ∃ k t rest,
        ws ++ [(.rbrace, text)] = (k, t) :: rest ∧ endsStatement k = true) ∧
      ∀ owner done pending text,
        read ⟨.statement, .statements owner done :: pending⟩ (ws ++ [(.rbrace, text)]) =
          closeBlock owner (ss.reverse ++ done) pending := by
  induction ss with
  | nil =>
    refine ⟨[], fun _ _ hwords => hwords, fun text _ => ⟨_, _, _, rfl, rfl⟩, ?_⟩
    intro owner done pending text
    show (closeBlock owner done pending).bind some = _
    simp
  | cons s ss ih =>
    obtain ⟨w, hs⟩ := h s List.mem_cons_self
    obtain ⟨ws, hcloses, hends, hread⟩ :=
      ih (fun s' hs' => h s' (List.mem_cons_of_mem _ hs')) (List.isChain_cons.1 hseparate).2
    refine ⟨w ++ ws, ?_, ?_, ?_⟩
    · intro rest ws' hwords
      have hstatement := hs.spells _ _ breaks_space (.space (hcloses rest ws' hwords))
      simpa [spaced] using hstatement
    · intro text hopens
      obtain ⟨c, more, k, t, rest, htext, rfl, _, hkind⟩ := hs.begins
      refine ⟨k, t, rest ++ ws ++ [(.rbrace, text)], by simp, hkind ?_ ?_⟩
      · rintro rfl
        exact hopens s rfl (.inl (by rw [htext]; rfl))
      · rintro rfl
        exact hopens s rfl (.inr (by rw [htext]; rfl))
    · intro owner done pending text
      have hlater := hread owner (s :: done) pending text
      rw [List.append_assoc, List.reverse_cons, List.append_assoc, List.singleton_append, ← hlater]
      cases hs with
      | ended _ completes _ => rw [read_append, completes, Option.bind_some]
      | @expression e _ he =>
        -- the parser leaves the statement only with the word behind it
        have hnext : ∀ s ∈ ss.head?, ¬ s.OpensBracket :=
          fun s hs => (List.isChain_cons.1 hseparate).1 s hs rfl
        obtain ⟨k, t, rest, hwords, hk⟩ := hends text hnext
        rw [hwords]
        exact read_exprStatement he.completes he.begins.ne_nil hk owner done pending

theorem body_rereads {ss : List Node} (h : ∀ s ∈ ss, ∃ ws, StatementRereads s ws)
    (hseparate : Separate ss) : ∃ ws, BodyRereads ss ws := by
  obtain ⟨ws, hcloses, _, hread⟩ := statements_reread h hseparate
  refine ⟨(.lbrace, "\x7b") :: (ws ++ [(.rbrace, "\x7d")]), ?_, ?_⟩
  · intro rest ws' _ hwords
    have hinner := Words.sign .lbrace (.space (hcloses _ _ (.sign .rbrace hwords)))
    rw [toList_renderBlock]
    simpa using hinner
  · intro owner pending
    show read ⟨.statement, .statements owner [] :: pending⟩ (ws ++ [(.rbrace, "\x7d")]) = _
    rw [hread, List.append_nil]

/-! ## Programs -/

/-- The statements of a program are read back, if all of them but the last one end in
semicolons. -/
theorem program_rereads {ss : List Node} (h : ∀ s ∈ ss, ∃ ws, StatementRereads s ws)
    (hlast : ∀ s ∈ ss.dropLast, s.isExprStmt = false) :
    ∃ ws, Words (program ss).render.toList ws ∧ ∀ done, ∃ st,
      read ⟨.statement, [.statements .program done]⟩ ws = some st ∧
        finish st = some (.program (done.reverse ++ ss)) := by
  induction ss with
  | nil => exact ⟨[], .nil, fun done => ⟨_, rfl, by simp [finish]⟩⟩
  | cons s ss ih =>
    obtain ⟨w, hs⟩ := h s List.mem_cons_self
    have hrender : (program (s :: ss)).render.toList =
        s.render.toList ++ (program ss).render.toList := by
      simp [render, renderList, String.join_cons]
    cases hs with
    | ended closes completes _ =>
      have hlast' : ∀ s ∈ ss.dropLast, s.isExprStmt = false := by
        intro s' hs'
        cases ss with
        | nil => simp at hs'
        | cons _ _ => exact hlast s' (List.mem_cons_of_mem _ hs')
      obtain ⟨ws, hwords, hread⟩ := ih (fun s' hs' => h s' (List.mem_cons_of_mem _ hs')) hlast'
      refine ⟨w ++ ws, ?_, fun done => ?_⟩
      · rw [hrender]
        exact closes _ _ hwords
      · obtain ⟨st, hst, hfinish⟩ := hread (s :: done)
        refine ⟨st, ?_, by simpa using hfinish⟩
        rw [read_append, completes, Option.bind_some, hst]
    | @expression e _ he =>
      obtain rfl : ss = [] := by
        cases ss with
        | nil => rfl
        | cons _ _ =>
          have hfirst := hlast (exprStmt e) List.mem_cons_self
          simp [isExprStmt] at hfirst
      refine ⟨w, ?_, fun done => ?_⟩
      · rw [hrender]
        simpa [render, renderList] using he.spells [] [] breaks_nil .nil
      · exact finish_exprStatement he.whole he.begins.ne_nil done

/-! ## The round trip -/

/-- What the written form of a tree does, for every kind of tree that has a place in others. -/
def Spelled : Node → Prop
  | program _ => True
  | block ss => ∃ ws, BodyRereads ss ws
  | letStmt name e => ∃ ws, StatementRereads (letStmt name e) ws
  | returnStmt e => ∃ ws, StatementRereads (returnStmt e) ws
  | exprStmt e => ∃ ws, StatementRereads (exprStmt e) ws
  | index l i => ∃ ws, (index l i).Enclosed ws
  | prefixOp op r => ∃ ws, (prefixOp op r).Enclosed ws
  | infixOp l op r => ∃ ws, (infixOp l op r).Enclosed ws
  | e => ∃ ws, e.Rereads ws

namespace Spelled
variable {n : Node}

theorem enclosed (h : n.Spelled) (hn : n.isEnclosed = true) : ∃ ws, n.Enclosed ws := by
  cases n <;> first | exact h | simp [isEnclosed] at hn

theorem expression (h : n.Spelled) (hn : n.isExpression = true) : ∃ ws, n.Rereads ws := by
  cases hkind : n.isEnclosed with
  | true =>
    obtain ⟨ws, henclosed⟩ := h.enclosed hkind
    exact ⟨_, .of_enclosed henclosed⟩
  | false =>
    cases n <;> first | exact h | simp [isEnclosed, isExpression, isStatement, isProgram] at hkind hn

theorem statement (h : n.Spelled) (hn : n.isStatement = true) (hblock : n.isBlock = false) :
    ∃ ws, StatementRereads n ws := by
  cases n <;> first | exact h | simp [isStatement, isBlock] at hn hblock

end Spelled

/-- Every part of a tidy tree is read back from its written form. -/
theorem Tidy.spelled {n : Node} (h : n.Tidy) : n.Spelled := by
  induction n using child_induction with
  | h n ih =>
    have operand : ∀ e ∈ n.operands, ∃ ws, e.Rereads ws := by
      intro e he
      have hchild := mem_children.2 (.inl he)
      exact (ih e hchild (h.child hchild)).expression (h.operand he)
    have body : ∀ ss ∈ n.bodies, ∃ ws, BodyRereads ss ws := by
      intro ss hss
      have hchild := mem_children.2 (.inr (.inr ⟨ss, hss, rfl⟩))
      exact ih (block ss) hchild (h.child hchild)
    have hhere := h.here
    cases n with
    | program ss => trivial
    | block ss =>
      refine body_rereads (fun s hs => ?_) hhere.2
      have hchild : s ∈ (block ss).children := mem_children.2 (.inr (.inl hs))
      exact (ih s hchild (h.child hchild)).statement (h.statement hs) (hhere.1 s hs)
    | letStmt name e => exact StatementRereads.letStmt hhere (operand e (by simp))
    | returnStmt e => exact StatementRereads.returnStmt (operand e (by simp))
    | exprStmt e => exact (operand e (by simp)).imp fun _ he => .expression he
    | ident name => exact ⟨_, .ident hhere⟩
    | int n => exact Rereads.int hhere.1 hhere.2
    | str s => exact Rereads.str hhere
    | bool b => exact Rereads.bool b
    | array es => exact Rereads.array operand
    | hash ps => exact Rereads.hash operand
    | index l i => exact Enclosed.index (operand l (by simp)) (operand i (by simp))
    | prefixOp op r => exact Enclosed.prefixOp hhere (operand r (by simp))
    | infixOp l op r => exact Enclosed.infixOp hhere (operand l (by simp)) (operand r (by simp))
    | ifExpr c t e =>
      have hchild : c ∈ (ifExpr c t e).children := mem_children.2 (.inl List.mem_cons_self)
      have hcondition := (ih c hchild (h.child hchild)).enclosed hhere
      cases e with
      | none => exact Rereads.ifExpr hcondition (body t (by simp))
      | some e => exact Rereads.ifElse hcondition (body t (by simp)) (body e (by simp))
    | fnLit names b => exact Rereads.literal .fn hhere (body b (by simp))
    | call f es =>
      exact Rereads.call (operand f (by simp)) fun e he => operand e (List.mem_cons_of_mem _ he)
    | macroLit names b => exact Rereads.literal .macroLit hhere (body b (by simp))

end Node

namespace Source

theorem parse_of_words {source : String} {p : Node} {ws : List Word} {st : State}
    (hwords : Words source.toList ws) (hread : read .initial ws = some st)
    (hfinish : finish st = some p) : parse source = .ok p := by
  obtain ⟨hstop, rfl, hshort⟩ := hwords .start
  have hgrammar : parseGrammar (lex source) = .ok p :=
    parseGrammar_eq_ok.2 ⟨hstop, st, steps_of_read hread, hfinish⟩
  exact parse_eq_ok.2 ⟨hgrammar, hshort⟩

theorem parse_of_tidy {ss : List Node} (htidy : (Node.program ss).Tidy) :
    parse (Node.program ss).render = .ok (.program ss) := by
  have hhere := htidy.here
  have hstatements : ∀ s ∈ ss, ∃ ws, Node.StatementRereads s ws := by
    intro s hs
    have hchild : s ∈ (Node.program ss).children := Node.mem_children.2 (.inr (.inl hs))
    exact (htidy.child hchild).spelled.statement (htidy.statement hs) (hhere.1 s hs)
  obtain ⟨ws, hwords, hreads⟩ := Node.program_rereads hstatements hhere.2
  obtain ⟨st, hread, hfinish⟩ := hreads []
  exact parse_of_words hwords hread hfinish

/-- Rendering is undone by parsing, for well-sorted programs whose names, numbers, strings and
operators are such as the grammar has, whose conditions bring their own brackets, and whose
statements do not run into each other. Such programs can be written. -/
theorem parse_render {ss : List Node} (hsorted : (Node.program ss).WellSorted)
    (hlegible : ∀ t ∈ (Node.program ss).subtrees, t.Legible) :
    (Node.program ss).writable = true ∧
      parse (Node.program ss).render = .ok (.program ss) :=
  ⟨Node.writable_of_legible hlegible, parse_of_tidy ⟨hsorted, hlegible⟩⟩

/-- A program with branches, a hash, and a call of a call. -/
theorem parse_render_calls :
    let body : List Node := [
      .exprStmt (.ifExpr (.infixOp (.ident "x") "<" (.int 10)) [.exprStmt (.ident "x")]
        (some [.returnStmt (.prefixOp "-" (.prefixOp "!" (.ident "y_1")))])),
      .exprStmt (.hash [(.str "not a key: \x7d", .array [.int 1, .bool true]),
        (.macroLit [] [], .index (.fnLit [] []) (.str ""))])]
    let ss : List Node := [
      .letStmt "f" (.fnLit ["x", "y_1"] body),
      .returnStmt (.ident "lets"),
      .exprStmt (.call (.call (.ident "f") [.int 2]) [.index (.str "a b") (.int 0), .array []])]
    (Node.program ss).WellSorted ∧ (∀ t ∈ (Node.program ss).subtrees, t.Legible) ∧
      (Node.program ss).writable = true ∧ parse (Node.program ss).render = .ok (.program ss) := by
  intro body ss
  have hsorted : (Node.program ss).WellSorted := by decide +kernel
  have hlegible : ∀ t ∈ (Node.program ss).subtrees, t.Legible := by decide +kernel
  exact ⟨hsorted, hlegible, parse_render hsorted hlegible⟩

end Source

end Monkey
