import Monkey.Proofs.Dialogue
import Monkey.Proofs.Pointwise
import Monkey.Proofs.Splicing
import Monkey.Proofs.Upkeep
import Monkey.Value.Inspect

/-!
# Values that look alike

Two runs of the same program in different surroundings do not come to the same
values: functions remember scopes in different places, and identities are handed
out in a different order. They come to values that look alike. A `Matching` says
which scopes and which identities correspond, and `Value.Like` takes that from
the parts of values to values.

No program can tell values apart that look alike, as long as the identities of
values on one side agree exactly if those of their partners do, so operators make
values that look alike of such values.

## Main definitions

* `Partners`, `Matching` — what corresponds to what in two runs.
* `Matching.Heads`, `Value.Like` — values that look alike, at the top and throughout.

## Main results

* `Value.Like.inspect_eq`, `Value.Like.toNode_eq` — such values have the same text
  and are the same syntax.
* `Value.Like.applyInfix_eq`, `Value.Like.applyIndex` — operators do not tell them
  apart.
-/

namespace Monkey

namespace Value

/-- The identity of a value, if it has one of its own. -/
def identity? : Value → Option Identity
  | array i _ | hash i _ | function i _ _ _ | macroFn i _ _ _ | quote i _ | returned i _
  | error i _ => some i
  | _ => none

/-- New values, made with the identity that is handed out for them. -/
def Labelled (f : Identity → Value) : Prop := ∀ i, (f i).identity? = some i

end Value

/-- The answers to the questions of a quotation: `unquote` is answered by what a value is as syntax,
a value in which the quoted trees are good, and any other tree by itself. -/
inductive Node.Unquotes (good : Node → Prop) : Node → Node → Prop where
  | splice {arg n : Node} {v : Value} : v.Every (Value.Quotes good) → v.toNode = .ok n →
    Unquotes good (.call (.ident "unquote") [arg]) n
  | stays {n : Node} : (∀ arg, n ≠ .call (.ident "unquote") [arg]) → Unquotes good n n

/-- Which values are partners in two runs, as far as identities are concerned. -/
structure Partners where
  marks : Value → Value → Prop
  plain : ∀ v, v.identity? = none → marks v v
  agrees : ∀ v v' w w', marks v v' → marks w w' →
    (v.identity? = w.identity? ↔ v'.identity? = w'.identity?)

/-- In runs that hand out identities alike, partners have the same identity. -/
def Partners.sameIdentity : Partners where
  marks v v' := v.identity? = v'.identity?
  plain _ _ := rfl
  agrees v v' w w' hv hw := by rw [hv, hw]

/-- What corresponds to what in two runs. -/
structure Matching extends Partners where
  /-- The tree is evaluated alike in the scope of the one run and in that of the other. -/
  admits : Scope → Scope → Node → Prop
  /-- So is the body of a function with these parameters, if the function remembers the scopes. -/
  closes : Scope → Scope → List String → Node → Prop
  /-- The trees that are quoted. -/
  quoted : Node → Prop
  parts : ∀ sc sc' n, admits sc sc' n → ∀ m ∈ n.parts, admits sc sc' m
  functions : ∀ sc sc' ps b, admits sc sc' (.fnLit ps b) ∨ admits sc sc' (.macroLit ps b) →
    closes sc sc' ps (.block b)
  quotations : ∀ sc sc' arg, admits sc sc' (.call (.ident "quote") [arg]) →
    (Dialogue.asking (fun n => ∀ e, n = .call (.ident "unquote") [e] → admits sc sc' e)
      (Node.Unquotes quoted)).holds (arg.rebuildM Dialogue.question).run
        (Judgement.Either (fun _ => True) quoted)

namespace Matching

/-- What corresponds in `M` does in `M'`. -/
structure Within (M M' : Matching) : Prop where
  admits : ∀ sc sc' n, M.admits sc sc' n → M'.admits sc sc' n
  closes : ∀ sc sc' ps body, M.closes sc sc' ps body → M'.closes sc sc' ps body
  quoted : ∀ n, M.quoted n ↔ M'.quoted n
  marks : ∀ v v', M.marks v v' → M'.marks v v'

instance : LE Matching := ⟨Within⟩

variable {M M' M'' : Matching}

theorem le_refl (M : Matching) : M ≤ M :=
  ⟨fun _ _ _ => id, fun _ _ _ _ => id, fun _ => Iff.rfl, fun _ _ => id⟩

theorem le_trans (h : M ≤ M') (h' : M' ≤ M'') : M ≤ M'' where
  admits sc sc' n := h'.admits sc sc' n ∘ h.admits sc sc' n
  closes sc sc' ps body := h'.closes sc sc' ps body ∘ h.closes sc sc' ps body
  quoted n := (h.quoted n).trans (h'.quoted n)
  marks v v' := h'.marks v v' ∘ h.marks v v'

/-- The values are the same at the top, but for identities and for scopes that correspond. -/
inductive Heads (M : Matching) : Value → Value → Prop where
  | null : Heads M .null .null
  | int {n} : Heads M (.int n) (.int n)
  | str {s} : Heads M (.str s) (.str s)
  | bool {b} : Heads M (.bool b) (.bool b)
  | builtin {b} : Heads M (.builtin b) (.builtin b)
  | array {i j items items'} : Heads M (.array i items) (.array j items')
  | hash {i j entries entries'} : entries.map Prod.fst = entries'.map Prod.fst →
    Heads M (.hash i entries) (.hash j entries')
  | function {i j ps body sc sc'} : M.closes sc sc' ps body →
    Heads M (.function i ps body sc) (.function j ps body sc')
  | macroFn {i j ps body sc sc'} : M.closes sc sc' ps body →
    Heads M (.macroFn i ps body sc) (.macroFn j ps body sc')
  | quote {i j n} : M.quoted n → Heads M (.quote i n) (.quote j n)
  | returned {i j v v'} : Heads M (.returned i v) (.returned j v')
  | error {i j fault} : Heads M (.error i fault) (.error j fault)

theorem Heads.mono {v v' : Value} (h : M.Heads v v') (hle : M ≤ M') : M'.Heads v v' := by
  cases h with
  | null => exact .null
  | int => exact .int
  | str => exact .str
  | bool => exact .bool
  | builtin => exact .builtin
  | array => exact .array
  | hash hkeys => exact .hash hkeys
  | function hcloses => exact .function (hle.closes _ _ _ _ hcloses)
  | macroFn hcloses => exact .macroFn (hle.closes _ _ _ _ hcloses)
  | quote hn => exact .quote ((hle.quoted _).1 hn)
  | returned => exact .returned
  | error => exact .error

end Matching

namespace Value
variable {M M' : Matching}

/-- The values look alike: they do at the top, and so do the values inside them. -/
inductive Like (M : Matching) : Value → Value → Prop where
  | intro {v v' : Value} (heads : M.Heads v v') (marks : M.marks v v')
      (length : v.components.length = v'.components.length)
      (inside : ∀ c c', (c, c') ∈ v.components.zip v'.components → Like M c c') : Like M v v'

/-- The values would look alike if they were partners. -/
structure Seems (M : Matching) (v v' : Value) : Prop where
  heads : M.Heads v v'
  parts : Pointwise (Like M) v.components v'.components

theorem like_iff {v v' : Value} : v.Like M v' ↔ v.Seems M v' ∧ M.marks v v' := by
  constructor
  · rintro ⟨heads, marks, length, inside⟩
    exact ⟨⟨heads, Pointwise.iff_zip.2 ⟨length, inside⟩⟩, marks⟩
  · rintro ⟨⟨heads, parts⟩, marks⟩
    obtain ⟨length, inside⟩ := Pointwise.iff_zip.1 parts
    exact .intro heads marks length inside

namespace Like
variable {v v' w w' : Value}

theorem heads (h : v.Like M v') : M.Heads v v' := (like_iff.1 h).1.heads
theorem parts (h : v.Like M v') : Pointwise (Like M) v.components v'.components :=
  (like_iff.1 h).1.parts
theorem marks (h : v.Like M v') : M.marks v v' := (like_iff.1 h).2

/-- What goes from the values inside two values to the values holds of all that look alike. -/
theorem induct {motive : Value → Value → Prop} (h : v.Like M v')
    (step : ∀ v v', v.Like M v' → Pointwise motive v.components v'.components → motive v v') :
    motive v v' := by
  induction h with
  | intro heads marks length inside ih =>
    exact step _ _ (.intro heads marks length inside) (Pointwise.iff_zip.2 ⟨length, ih⟩)

theorem mono (h : v.Like M v') (hle : M ≤ M') : v.Like M' v' := by
  refine h.induct fun v v' h parts => ?_
  exact like_iff.2 ⟨⟨h.heads.mono hle, parts⟩, hle.marks _ _ h.marks⟩

theorem of_isAtom (h : v.isAtom = true) : v.Like M v := by
  have hplain : v.identity? = none := by cases v <;> first | rfl | cases h
  have hcomponents : v.components = [] := by cases v <;> first | rfl | cases h
  have hheads : M.Heads v v := by cases v <;> first | cases h; done | constructor
  refine like_iff.2 ⟨⟨hheads, ?_⟩, M.plain v hplain⟩
  rw [hcomponents]
  exact .nil

/-- A value looks like itself if everything inside it corresponds to itself. -/
theorem of_every (h : v.Every fun u => M.Heads u u ∧ M.marks u u) : v.Like M v := by
  induction h with
  | intro here _ ih => exact like_iff.2 ⟨⟨here.1, .refl ih⟩, here.2⟩

end Like

theorem Seems.mono {v v' : Value} (h : v.Seems M v') (hle : M ≤ M') : v.Seems M' v' :=
  ⟨h.heads.mono hle, h.parts.mono fun _ _ h => h.mono hle⟩

end Value

/-- New values that the two runs may make: they would look alike if they were partners, and one that is
being returned is made by a `return` that is evaluated. -/
structure Matching.Makes (M : Matching) (f g : Identity → Value) : Prop where
  labelled : Value.Labelled f
  labelled' : Value.Labelled g
  seems : ∀ i j, (f i).Seems M (g j)
  markers : ∀ i v, f i = .returned i v → ∃ sc sc' e, M.admits sc sc' (.returnStmt e)

theorem Matching.Makes.mono {M M' : Matching} {f g : Identity → Value} (h : M.Makes f g)
    (hle : M ≤ M') : M'.Makes f g where
  labelled := h.labelled
  labelled' := h.labelled'
  seems i j := (h.seems i j).mono hle
  markers i v hv := by
    obtain ⟨sc, sc', e, he⟩ := h.markers i v hv
    exact ⟨sc, sc', e, hle.admits _ _ _ he⟩

namespace Value
variable {M M' : Matching}

/-! ## What programs see of values -/

namespace Like
variable {v v' w w' : Value}

theorem kind_eq (h : v.Like M v') : v.kind = v'.kind := by
  cases h.heads <;> rfl

theorem isError_eq (h : v.Like M v') : v.isError = v'.isError := by
  cases h.heads <;> rfl

theorem stopsBlock_eq (h : v.Like M v') : v.stopsBlock = v'.stopsBlock := by
  cases h.heads <;> rfl

theorem isTruthy_eq (h : v.Like M v') : v.isTruthy = v'.isTruthy := by
  cases h.heads <;> rfl

theorem key?_eq (h : v.Like M v') : v.key? = v'.key? := by
  cases h.heads <;> rfl

theorem hash_iff {i j : Identity} {entries entries' : Table Key Value} :
    (hash i entries).Seems M (hash j entries') ↔ Table.Alike (Like M) entries entries' := by
  constructor
  · rintro ⟨heads, parts⟩
    cases heads with
    | hash hkeys => exact Table.alike_of_keys hkeys parts
  · exact fun h => ⟨.hash h.keys_eq, h.values⟩

theorem unwrapped (h : v.Like M v') : v.unwrapped.Like M v'.unwrapped := by
  have hparts := h.parts
  cases h.heads with
  | returned =>
    cases hparts with
    | cons hv _ => exact hv
  | _ => exact h

section Text
omit M
variable {items items' : List Value} {entries entries' : Table Key Value}

theorem inspectList_eq (h : Pointwise (fun c c' : Value => c.inspect = c'.inspect) items items') :
    inspectList items = inspectList items' := by
  induction h with
  | nil => rfl
  | cons hc _ ih => rw [inspectList, inspectList, hc, ih]

theorem inspectEntries_eq
    (h : Table.Alike (fun c c' : Value => c.inspect = c'.inspect) entries entries') :
    inspectEntries entries = inspectEntries entries' := by
  induction h with
  | nil => rfl
  | @cons e e' _ _ he _ ih =>
    obtain ⟨k, c⟩ := e
    obtain ⟨k', c'⟩ := e'
    obtain ⟨rfl, hc⟩ : k = k' ∧ c.inspect = c'.inspect := he
    rw [inspectEntries, inspectEntries, hc, ih]

theorem showableList_eq (h : Pointwise (fun c c' : Value => c.showable = c'.showable) items items') :
    showableList items = showableList items' := by
  induction h with
  | nil => rfl
  | cons hc _ ih => rw [showableList, showableList, hc, ih]

theorem showableEntries_eq
    (h : Table.Alike (fun c c' : Value => c.showable = c'.showable) entries entries') :
    showableEntries entries = showableEntries entries' := by
  induction h with
  | nil => rfl
  | @cons e e' _ _ he _ ih =>
    obtain ⟨k, c⟩ := e
    obtain ⟨k', c'⟩ := e'
    obtain ⟨rfl, hc⟩ : k = k' ∧ c.showable = c'.showable := he
    rw [showableEntries, showableEntries, hc, ih]

theorem toNodes_eq (h : Pointwise (fun c c' : Value => c.toNode = c'.toNode) items items') :
    toNodes items = toNodes items' := by
  induction h with
  | nil => rfl
  | cons hc _ ih => rw [toNodes, toNodes, hc, ih]

theorem toPairs_eq (h : Table.Alike (fun c c' : Value => c.toNode = c'.toNode) entries entries') :
    toPairs entries = toPairs entries' := by
  induction h with
  | nil => rfl
  | @cons e e' _ _ he _ ih =>
    obtain ⟨k, c⟩ := e
    obtain ⟨k', c'⟩ := e'
    obtain ⟨rfl, hc⟩ : k = k' ∧ c.toNode = c'.toNode := he
    rw [toPairs, toPairs, hc, ih]

end Text

/-- Values that look alike have the same text. -/
theorem inspect_eq (h : v.Like M v') : v.inspect = v'.inspect := by
  refine h.induct (motive := fun v v' => v.inspect = v'.inspect) fun v v' h parts => ?_
  cases h.heads with
  | array => exact congrArg (fun ts => "[" ++ ", ".intercalate ts ++ "]") (inspectList_eq parts)
  | hash hkeys =>
    exact congrArg (fun ts => "\x7b" ++ ", ".intercalate ts ++ "\x7d")
      (inspectEntries_eq (Table.alike_of_keys hkeys parts))
  | returned =>
    cases parts with
    | cons hc _ => exact hc
  | _ => rfl

theorem showable_eq (h : v.Like M v') : v.showable = v'.showable := by
  refine h.induct (motive := fun v v' => v.showable = v'.showable) fun v v' h parts => ?_
  cases h.heads with
  | array => exact showableList_eq parts
  | hash hkeys => exact showableEntries_eq (Table.alike_of_keys hkeys parts)
  | returned =>
    cases parts with
    | cons hc _ => exact hc
  | _ => rfl

theorem inspect?_eq (h : v.Like M v') : v.inspect? = v'.inspect? := by
  rw [inspect?, inspect?, h.showable_eq, h.inspect_eq]

/-- Values that look alike are spliced in as the same tree, or neither of them can be. -/
theorem toNode_eq (h : v.Like M v') : v.toNode = v'.toNode := by
  refine h.induct (motive := fun v v' => v.toNode = v'.toNode) fun v v' h parts => ?_
  cases h.heads with
  | array => exact congrArg (fun r => r.bind fun es => .ok (Node.array es)) (toNodes_eq parts)
  | hash hkeys =>
    exact congrArg (fun r => r.bind fun ps => .ok (Node.hash ps))
      (toPairs_eq (Table.alike_of_keys hkeys parts))
  | _ => rfl

/-- The trees that are quoted in values that look alike are those that are to be quoted. -/
theorem quotes (h : v.Like M v') : v.Every (Quotes M.quoted) := by
  refine h.induct (motive := fun v _ => v.Every (Quotes M.quoted)) fun v v' h parts => ?_
  refine .intro ?_ fun c hc => ?_
  · rintro i n rfl
    cases h.heads with
    | quote hn => exact hn
  · obtain ⟨c', hc'⟩ := parts.exists_right c hc
    exact hc'.2

/-! ## Operators -/

/-- Values are told apart by identity exactly if those that look like them are. -/
theorem identical_eq (hv : v.Like M v') (hw : w.Like M w') : identical v w = identical v' w' := by
  have hagrees := M.agrees v v' w w' hv.marks hw.marks
  cases hv.heads <;> cases hw.heads <;>
    first | rfl | simpa [identical, identity?, Bool.beq_eq_decide_eq] using hagrees

omit M in
theorem applyPrefix_of_not_int {op : String} (h : ∀ n, v ≠ .int n) :
    v.applyPrefix op =
      if op = "!" then .ok (.bool !v.isTruthy) else .error (.unknownPrefix op v.kind) := by
  unfold applyPrefix
  split
  · rfl
  · split
    · exact absurd rfl (h _)
    · rfl

theorem applyPrefix_eq (h : v.Like M v') (op : String) : v.applyPrefix op = v'.applyPrefix op := by
  have hkind := h.kind_eq
  have htruthy := h.isTruthy_eq
  cases h.heads with
  | null | int | str | bool | builtin => rfl
  | _ => rw [applyPrefix_of_not_int (by simp), applyPrefix_of_not_int (by simp), hkind, htruthy]

theorem applyInfix_eq (hv : v.Like M v') (hw : w.Like M w') (op : String) :
    applyInfix op v w = applyInfix op v' w' := by
  have hothers : applyToOthers op v w = applyToOthers op v' w' := by
    unfold applyToOthers
    rw [identical_eq hv hw, hv.kind_eq, hw.kind_eq]
  cases hv.heads <;> cases hw.heads <;> first | rfl | exact hothers

theorem getD {o o' : Option Value} (h : Option.Rel (Like M) o o') :
    (o.getD .null).Like M (o'.getD .null) := by
  cases h with
  | none => exact of_isAtom rfl
  | some h => exact h

/-- Indexing values that look alike yields values that look alike, or the same fault. -/
theorem applyIndex (hv : v.Like M v') (hw : w.Like M w') :
    Both Eq (Like M) (v.applyIndex w) (v'.applyIndex w') := by
  have hparts := hv.parts
  have hkey := hw.key?_eq
  cases hv.heads with
  | array =>
    cases hw.heads with
    | @int n =>
      show Both Eq (Like M) (if n < 0 then _ else _) (if n < 0 then _ else _)
      split
      · exact .ok (of_isAtom rfl)
      · exact .ok (getD (hparts.getElem? n.toNat))
    | _ => exact .error rfl
  | @hash i j entries entries' hkeys =>
    show Both Eq (Like M) (w.key? >>= _) (w'.key? >>= _)
    rw [← hkey]
    cases w.key? with
    | error f => exact .error rfl
    | ok key => exact .ok (getD ((Table.alike_of_keys hkeys hparts).find? key))
  | _ => exact .error rfl

end Like
end Value
end Monkey
