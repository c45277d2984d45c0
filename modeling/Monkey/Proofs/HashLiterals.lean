import Mathlib.Data.List.Induction
import Monkey.Proofs.Effects
import Monkey.Proofs.ErrorContexts

/-!
# Hashes and what is looked up in them

A hash literal writes its pairs into a table, one after the other, and an index asks the
table. Of several pairs for one key the last one counts, in the place of the first.
Keys are the same if they are of one kind and have the same content, so a number, a text
and a boolean are three keys, whatever they look like.

## Main definitions

* `Table.IsLast` — an entry that no later one of a list takes the place of.
* `Table.spread` — keys and values by turns, which is how a literal has them.

## Main results

* `Table.keys_insertAll`, `Table.isLast_of_mem_insertAll` — a table that several entries have
  been written to.
* `Node.evaluates_hash` — a hash literal, the pairs in it and the lookups.
-/

namespace Monkey

open Monkey.Computation Monkey.Attempt

/-! ## Tables that several entries are written to -/

namespace Table
variable {κ α : Type} [DecidableEq κ]

/-- The entry is in the list, and there is none for its key behind it. -/
def IsLast (e : κ × α) (written : Table κ α) : Prop :=
  ∃ before after, written = before ++ e :: after ∧ e.1 ∉ keys after

/-- What a table holds for a key is in the first entry for it. -/
theorem find?_eq_some_iff {key : κ} {value : α} {t : Table κ α} :
    find? key t = some value ↔
      ∃ before after, t = before ++ (key, value) :: after ∧ key ∉ keys before := by
  constructor
  · intro h
    induction t with
    | nil => cases h
    | cons d t ih =>
      rw [find?] at h
      split at h
      · next hkey =>
        subst hkey
        exact ⟨[], t, by rw [← Option.some.inj h]; rfl, List.not_mem_nil⟩
      · next hne =>
        obtain ⟨before, after, rfl, hbefore⟩ := ih h
        refine ⟨d :: before, after, rfl, ?_⟩
        simpa [keys, Ne.symm hne] using hbefore
  · rintro ⟨before, after, rfl, hbefore⟩
    induction before with
    | nil => exact if_pos rfl
    | cons d before ih =>
      obtain ⟨hne, hmore⟩ := not_or.1 (fun h => hbefore (List.mem_cons.2 h))
      exact (if_neg (Ne.symm hne)).trans (ih hmore)

theorem isLast_iff {key : κ} {value : α} {written : Table κ α} :
    IsLast (key, value) written ↔ find? key written.reverse = some value := by
  rw [find?_eq_some_iff]
  constructor
  · rintro ⟨before, after, rfl, hafter⟩
    exact ⟨after.reverse, before.reverse, by simp, by simpa [keys] using hafter⟩
  · rintro ⟨before, after, hwritten, hbefore⟩
    refine ⟨after.reverse, before.reverse, ?_, by simpa [keys] using hbefore⟩
    rw [← written.reverse_reverse, hwritten]
    simp

/-- What was written last is what is found. -/
theorem find?_written_of_isLast {e : κ × α} {written : Table κ α} (h : IsLast e written) :
    find? e.1 (insertAll written []) = some e.2 := by
  rw [find?_insertAll, isLast_iff.1 h]
  rfl

/-- Nothing is found that was not written. -/
theorem find?_written_of_not_mem {key : κ} {written : Table κ α} (h : key ∉ keys written) :
    find? key (insertAll written []) = none := by
  have hnone : find? key written.reverse = none := by
    rw [← Option.not_isSome_iff_eq_none, ← mem_keys_iff]
    simpa [keys] using h
  rw [find?_insertAll, hnone]
  rfl

/-- A new table lists its keys in the order in which they were first written. -/
theorem keys_insertAll (written : Table κ α) :
    keys (insertAll written []) = (keys written).eraseDups := by
  induction written using List.reverseRecOn with
  | nil => rfl
  | append_singleton written e ih =>
    have hsnoc : insertAll (written ++ [e]) [] = insert e.1 e.2 (insertAll written []) :=
      List.foldl_append
    have hkeys : keys (written ++ [e]) = keys written ++ [e.1] := List.map_append
    rw [hsnoc, keys_insert, hkeys, List.eraseDups_append, ih]
    by_cases hmem : e.1 ∈ keys written
    · simp [List.mem_eraseDups, List.removeAll, hmem]
    · simp [List.mem_eraseDups, List.removeAll, hmem, List.eraseDups_cons]

theorem nodup_keys_insertAll {t : Table κ α} (written : Table κ α) (h : (keys t).Nodup) :
    (keys (insertAll written t)).Nodup := by
  induction written generalizing t with
  | nil => exact h
  | cons e written ih => exact ih (nodup_keys_insert h)

/-- The entries of a table are what is found for their keys, if no key comes twice. -/
theorem find?_of_mem {e : κ × α} {t : Table κ α} (hnodup : (keys t).Nodup) (h : e ∈ t) :
    find? e.1 t = some e.2 := by
  obtain ⟨before, after, rfl⟩ := List.append_of_mem h
  refine find?_eq_some_iff.2 ⟨before, after, rfl, fun hbefore => ?_⟩
  have hsplit : keys (before ++ e :: after) = keys before ++ e.1 :: keys after := by simp [keys]
  rw [hsplit] at hnodup
  exact (List.nodup_append.1 hnodup).2.2 _ hbefore _ List.mem_cons_self rfl

/-- The entries of a new table are those that were written last. -/
theorem isLast_of_mem_insertAll {e : κ × α} {written : Table κ α}
    (h : e ∈ insertAll written []) : IsLast e written := by
  have hempty : (keys ([] : Table κ α)).Nodup := List.nodup_nil
  have hfind := find?_of_mem (nodup_keys_insertAll written hempty) h
  rw [find?_insertAll] at hfind
  exact isLast_iff.2 (by simpa [find?] using hfind)

/-- The keys and values of some entries by turns, keys as values. -/
def spread : Table Key Value → List Value
  | [] => []
  | (key, v) :: written => key.toValue :: v :: spread written

end Table

/-! ## Keys -/

namespace Value

/-- The kinds of the values that are keys. -/
def keyKinds : List Kind := [.integer, .string, .boolean]

/-- The values of these kinds are the keys. -/
theorem kind_mem_keyKinds {k : Value} : k.kind ∈ keyKinds ↔ ∃ key : Key, k = key.toValue := by
  constructor
  · intro h
    cases k with
    | int n => exact ⟨.int n, rfl⟩
    | str s => exact ⟨.str s, rfl⟩
    | bool b => exact ⟨.bool b, rfl⟩
    | _ => simp [kind, keyKinds] at h
  · rintro ⟨key | key | key, rfl⟩ <;> simp [Key.toValue, kind, keyKinds]

theorem key?_of_kind {k : Value} (h : k.kind ∉ keyKinds) :
    k.key? = .error (.unusableKey k.kind) := by
  cases k with
  | int | str | bool => simp [kind, keyKinds] at h
  | _ => rfl

theorem inspectEntries_eq_map (entries : Table Key Value) :
    inspectEntries entries = entries.map fun e => e.1.toValue.inspect ++ ": " ++ e.2.inspect := by
  induction entries with
  | nil => rfl
  | cons e entries ih =>
    have hkey : inspectKey e.1 = e.1.toValue.inspect := by cases e.1 <;> rfl
    rw [inspectEntries, ih, hkey, List.map_cons]

end Value

/-! ## Literals and indices -/

section Evaluation
variable {depth : Nat} {sc : Scope} {st st' : Store}

/-- Pairs whose keys and values evaluate are written one after the other. -/
theorem Evaluates.outcome_evalEntries {ps : List (Node × Node)} {written : Table Key Value}
    (h : Evaluates depth sc (Node.hash ps).operands st (Table.spread written) st')
    (before : Table Key Value) : (Monkey.evalEntries sc before ps).run.outcome evalRule depth st =
      ⟨.ok (.ok (Table.insertAll written before)), st'⟩ := by
  induction ps generalizing written before st with
  | nil =>
    obtain _ | e := written
    · cases h
      rfl
    · cases h
  | cons p ps ih =>
    obtain ⟨k, v⟩ := p
    change Evaluates depth sc (k :: v :: (Node.hash ps).operands) st _ st' at h
    obtain _ | ⟨⟨key, w⟩, written⟩ := written
    · cases h
    · obtain _ | ⟨hkey, hkeyOk, hrest⟩ := h
      obtain _ | ⟨hvalue, hvalueOk, hmore⟩ := hrest
      rw [Monkey.evalEntries, Attempt.outcome_bind, outcome_need_of_ok hkey hkeyOk]
      dsimp only
      rw [Value.key?_toValue, Attempt.outcome_bind]
      dsimp only [check, Attempt.outcome_pure]
      rw [Attempt.outcome_bind, outcome_need_of_ok hvalue hvalueOk]
      exact ih hmore (before.insert key w)

/-- An index comes to what its two values make. -/
theorem Evaluates.outcome_index {l x : Node} {left position : Value}
    (h : Evaluates depth sc [l, x] st [left, position] st') :
    evalWithin evalRule (depth + 1) (.index l x) sc st =
      (settle (check (left.applyIndex position))).outcome evalRule depth st' := by
  show (evalRule (.index l x) sc).outcome evalRule depth st = _
  rw [evalRule, Attempt.outcome_settle, h.outcome_both, Attempt.outcome_settle]

/-- What an index finds in a hash for a key. -/
theorem Evaluates.index_key {i : Identity} {entries : Table Key Value} {l x : Node} {key : Key}
    (h : Evaluates depth sc [l, x] st [.hash i entries, key.toValue] st') :
    evalWithin evalRule (depth + 1) (.index l x) sc st =
      ⟨.ok (Value.lookupKey entries key), st'⟩ := by
  have hlookup : (Value.hash i entries).applyIndex key.toValue =
      .ok (Value.lookupKey entries key) := by
    show (key.toValue.key? >>= _) = _
    rw [Value.key?_toValue]
    rfl
  rw [h.outcome_index, hlookup]
  rfl

/-- For what is no key, an index finds an error. -/
theorem Evaluates.index_unusable {i : Identity} {entries : Table Key Value} {l x : Node}
    {k : Value} (h : Evaluates depth sc [l, x] st [.hash i entries, k] st')
    (hk : k.kind ∉ Value.keyKinds) : evalWithin evalRule (depth + 1) (.index l x) sc st =
      ⟨.ok (.error st'.nextIdentity (.unusableKey k.kind)),
        { st' with nextIdentity := st'.nextIdentity + 1 }⟩ := by
  have hunusable : (Value.hash i entries).applyIndex k = .error (.unusableKey k.kind) := by
    show (k.key? >>= _) = _
    rw [Value.key?_of_kind hk]
    rfl
  rw [h.outcome_index, hunusable]
  rfl

/-- A hash literal whose keys evaluate to numbers, texts and booleans and whose values evaluate
without errors comes to a new hash. Its keys are in the order in which they come first, and
with each there is what comes last for it; so are they listed. Wherever an index is evaluated
in this hash, it comes to the value that comes last for a key of the same kind and content, and
to `null` where there is none, so also where all keys are of other kinds. What is of no such
kind is an error. -/
theorem Node.evaluates_hash {ps : List (Node × Node)} {written : Table Key Value}
    (h : Evaluates depth sc (Node.hash ps).operands st (Table.spread written) st') :
    ∃ entries : Table Key Value,
      evalWithin evalRule (depth + 1) (.hash ps) sc st =
        ⟨.ok (.hash st'.nextIdentity entries), { st' with nextIdentity := st'.nextIdentity + 1 }⟩ ∧
      Table.keys entries = (Table.keys written).eraseDups ∧
      (∀ e ∈ entries, Table.IsLast e written) ∧
      (Value.hash st'.nextIdentity entries).inspect = "\x7b" ++ ", ".intercalate
        (entries.map fun e => e.1.toValue.inspect ++ ": " ++ e.2.inspect) ++ "\x7d" ∧
      ∀ (depth' : Nat) (sc₁ : Scope) (l x : Node) (k : Value) (st₁ st₂ : Store),
        Evaluates depth' sc₁ [l, x] st₁ [.hash st'.nextIdentity entries, k] st₂ →
        let found := evalWithin evalRule (depth' + 1) (.index l x) sc₁ st₁
        (∀ e, Table.IsLast e written → e.1.toValue = k → found = ⟨.ok e.2, st₂⟩) ∧
        (k.kind ∈ Value.keyKinds → (∀ e ∈ written, e.1.toValue ≠ k) → found = ⟨.ok .null, st₂⟩) ∧
        (k.kind ∈ Value.keyKinds → (∀ e ∈ written, e.1.toValue.kind ≠ k.kind) →
          found = ⟨.ok .null, st₂⟩) ∧
        (k.kind ∉ Value.keyKinds →
          found = ⟨.ok (.error st₂.nextIdentity (.unusableKey k.kind)),
            { st₂ with nextIdentity := st₂.nextIdentity + 1 }⟩ ∧
          (Fault.unusableKey k.kind).message = "unusable as hash key: " ++ k.kind.name) := by
  refine ⟨Table.insertAll written [], ?_, Table.keys_insertAll written,
    fun e => Table.isLast_of_mem_insertAll, ?_, ?_⟩
  · show (evalRule (.hash ps) sc).outcome evalRule depth st = _
    rw [evalRule, Attempt.outcome_settle, Attempt.outcome_bind, h.outcome_evalEntries []]
    rfl
  · show "\x7b" ++ ", ".intercalate (Value.inspectEntries _) ++ "\x7d" = _
    rw [Value.inspectEntries_eq_map]
  · intro depth' sc₁ l x k st₁ st₂ hindex found
    have hnull : k.kind ∈ Value.keyKinds → (∀ e ∈ written, e.1.toValue ≠ k) →
        found = ⟨.ok .null, st₂⟩ := by
      intro hkind hnone
      obtain ⟨key, rfl⟩ := Value.kind_mem_keyKinds.1 hkind
      have hnew : key ∉ Table.keys written := by
        intro hmem
        obtain ⟨e, he, rfl⟩ := List.mem_map.1 hmem
        exact hnone e he rfl
      refine hindex.index_key.trans ?_
      rw [Value.lookupKey, Table.find?_written_of_not_mem hnew]
      rfl
    refine ⟨?_, hnull, fun hkind hother => ?_, fun hkind => ⟨hindex.index_unusable hkind, rfl⟩⟩
    · rintro e he rfl
      refine hindex.index_key.trans ?_
      rw [Value.lookupKey, Table.find?_written_of_isLast he]
      rfl
    · exact hnull hkind fun e he heq => hother e he (congrArg Value.kind heq)

end Evaluation

/-- In `{"1": 1, true: 2, 1: 3, "1": 4}`, of which the text was written twice, the number is
neither the text nor the boolean, and `null` is no key. -/
theorem Node.evaluates_hash_kinds :
    let ps : List (Node × Node) :=
      [(.str "1", .int 1), (.bool true, .int 2), (.int 1, .int 3), (.str "1", .int 4)]
    let written : Table Key Value :=
      [(.str "1", .int 1), (.bool true, .int 2), (.int 1, .int 3), (.str "1", .int 4)]
    let after : Store := { Store.empty with nextIdentity := 1 }
    Evaluates 1 ⟨0⟩ (Node.hash ps).operands .empty (Table.spread written) .empty ∧
    (∃ entries, evalWithin evalRule 2 (.hash ps) ⟨0⟩ .empty = ⟨.ok (.hash 0 entries), after⟩ ∧
      Table.keys entries = [.str "1", .bool true, .int 1]) ∧
    evalWithin evalRule 3 (.index (.hash ps) (.str "1")) ⟨0⟩ .empty = ⟨.ok (.int 4), after⟩ ∧
    evalWithin evalRule 3 (.index (.hash ps) (.bool false)) ⟨0⟩ .empty = ⟨.ok .null, after⟩ ∧
    evalWithin evalRule 3 (.index (.hash ps) (.ifExpr (.bool false) [] none)) ⟨0⟩ .empty =
      ⟨.ok (.error 1 (.unusableKey .null)), { after with nextIdentity := 2 }⟩ := by
  intro ps written after
  have h : Evaluates 1 ⟨0⟩ (Node.hash ps).operands .empty (Table.spread written) .empty :=
    .cons rfl rfl <| .cons rfl rfl <| .cons rfl rfl <| .cons rfl rfl <|
      .cons rfl rfl <| .cons rfl rfl <| .cons rfl rfl <| .cons rfl rfl .nil
  obtain ⟨entries, heval, hkeys, -, -, hfound⟩ := Node.evaluates_hash h
  have hindex : ∀ (x : Node) (k : Value), evalWithin evalRule 2 x ⟨0⟩ after = ⟨.ok k, after⟩ →
      k.isError = false →
      Evaluates 2 ⟨0⟩ [.hash ps, x] .empty [.hash Store.empty.nextIdentity entries, k] after :=
    fun x k hx hk => .cons heval rfl (.cons hx hk .nil)
  have hnull : evalWithin evalRule 2 (.ifExpr (.bool false) [] none) ⟨0⟩ after =
      ⟨.ok .null, after⟩ := by
    show (evalRule (.ifExpr (.bool false) [] none) ⟨0⟩).outcome evalRule 1 after = _
    rw [evalRule, settle_need_bind, Computation.outcome_bind, outcome_eval]
    rfl
  refine ⟨h, ⟨entries, heval, hkeys.trans (by decide)⟩, ?_, ?_, ?_⟩
  · exact (hfound 2 _ _ _ _ _ _ (hindex (.str "1") (.str "1") rfl rfl)).1 (.str "1", .int 4)
      ⟨written.take 3, [], rfl, nofun⟩ rfl
  · exact (hfound 2 _ _ _ _ _ _ (hindex (.bool false) (.bool false) rfl rfl)).2.1
      (by decide) (by simp [written, Key.toValue])
  · exact ((hfound 2 _ _ _ _ _ _ (hindex _ .null hnull rfl)).2.2.2 (by decide)).1

end Monkey
