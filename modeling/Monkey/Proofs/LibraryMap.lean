import Monkey.Proofs.Keeping
import Monkey.Proofs.StoredErrors
import Monkey.Proofs.Tracing

/-!
# The function `map` of the library

`map` is written in the language itself: a loop that is a function bound in the body of
another, calls itself by name, hands on what there is so far, and takes the array apart with
builtins. It knows nothing of the function that it calls on the items, which may print,
make functions, or come to an error.

The loop goes round once for each item. Each round makes three scopes and two
arrays, and calls the function in between; what the function sees of that is nothing.
So the calls go as they go without `map`, up to a renaming, and they are all that is
evaluated besides the trees of `map` itself.

## Main definitions

* `mapText` — the definition of `map`.
* `Value.callEach` — the calls of a value on items, one after the other.
* `Value.CalledOn`, `Value.CallsLike` — such calls in the course of a run.
* `Store.Loops`, `Store.Iterates` — scopes from which the loop is seen, and scopes inside it.

## Main results

* `Store.Iterates.iterating_ok`, `Store.Iterates.iterating_error` — one round of the loop.
* `Store.Loops.loop_maps` — all rounds, by induction on the items.
* `Session.map_calls_each` — the call of `map`.
-/

namespace Monkey

open Monkey.Computation Monkey.Attempt

/-! ## A value that is called on items -/

/-- Calls a value on items one after the other, up to the first error. -/
def Value.callEach (f : Value) : List Value → Attempt (List Value)
  | [] => return []
  | x :: xs => do
    let y ← f.call [x]
    if y.isError then throw y
    else do
      let ys ← f.callEach xs
      return y :: ys

/-- The calls on items begin with the call on the first, and go on behind it unless it is an error. -/
theorem Value.outcome_callEach_cons {f x : Value} {xs : List Value} {depth : Nat} {st st' : Store}
    {r : Except Value (List Value)}
    (h : (f.callEach (x :: xs)).run.outcome evalRule depth st = ⟨.ok r, st'⟩) :
    ∃ y st₁, (f.call [x]).outcome evalRule depth st = ⟨.ok y, st₁⟩ ∧
      (y.isError = true ∧ r = .error y ∧ st' = st₁ ∨
        y.isError = false ∧ ∃ r₁, (f.callEach xs).run.outcome evalRule depth st₁ = ⟨.ok r₁, st'⟩ ∧
          r = r₁.map (y :: ·)) := by
  rw [callEach, Attempt.outcome_bind, outcome_lift] at h
  generalize (f.call [x]).outcome evalRule depth st = o at h
  obtain ⟨_ | y, st₁⟩ := o
  · cases h
  refine ⟨y, st₁, rfl, ?_⟩
  dsimp only at h
  split at h
  · next hy =>
    cases h
    exact .inl ⟨hy, rfl, rfl⟩
  · next hy =>
    refine .inr ⟨by simpa using hy, ?_⟩
    rw [Attempt.outcome_bind] at h
    generalize (f.callEach xs).run.outcome evalRule depth st₁ = o at h
    obtain ⟨_ | (e | ys), st₂⟩ := o <;> cases h
    · exact ⟨.error e, rfl, rfl⟩
    · exact ⟨.ok ys, rfl, rfl⟩

/-- At the visits `ws` the value is called on the items one after the other, from the first store
to the last, and comes to the values of `r`, or to an error with which it ends. In between all
frames are kept and nothing is printed. -/
inductive Value.CalledOn (f : Value) :
    List Visit → Store → List Value → Except Value (List Value) → Store → Prop
  | done {st st' : Store} : st.Silent st' → CalledOn f [] st [] (.ok []) st'
  | stop {w : Visit} {x e : Value} {xs : List Value} {st st₁ st' : Store} : st.Silent st₁ →
    w.Calls f [x] st₁ → w.outcome evalRule = ⟨.ok e, st'⟩ → e.isError = true →
    CalledOn f [w] st (x :: xs) (.error e) st'
  | next {w : Visit} {ws : List Visit} {x y : Value} {xs : List Value}
    {r : Except Value (List Value)} {st st₁ st₂ st' : Store} : st.Silent st₁ →
    w.Calls f [x] st₁ → w.outcome evalRule = ⟨.ok y, st₂⟩ → y.isError = false →
    CalledOn f ws st₂ xs r st' → CalledOn f (w :: ws) st (x :: xs) (r.map (y :: ·)) st'

theorem Value.CalledOn.behind {f : Value} {ws : List Visit} {st₀ st st' : Store} {items : List Value}
    {r : Except Value (List Value)} (h : f.CalledOn ws st items r st') (hsilent : st₀.Silent st) :
    f.CalledOn ws st₀ items r st' := by
  cases h with
  | done hst => exact .done (hsilent.trans hst)
  | stop hst hcalls hout he => exact .stop (hsilent.trans hst) hcalls hout he
  | next hst hcalls hout hy hrest => exact .next (hsilent.trans hst) hcalls hout hy hrest

/-- The value is an array of the values that there are and those of `r`, or the error of `r`. -/
def Value.Collects (v : Value) (values : List Value) : Except Value (List Value) → Prop
  | .ok ys => ∃ i, v = .array i (values ++ ys)
  | .error e => v = e ∧ e.isError = true

theorem Value.Collects.unwrapped {values : List Value} {r : Except Value (List Value)} {v : Value}
    (h : v.Collects values r) : v.unwrapped = v := by
  cases r with
  | ok ys =>
    obtain ⟨i, rfl⟩ := h
    rfl
  | error e =>
    obtain ⟨rfl, he⟩ := h
    cases v with
    | error => rfl
    | _ => cases he

theorem Value.Collects.cons {values : List Value} {y : Value} {r : Except Value (List Value)}
    {v : Value} (h : v.Collects (values ++ [y]) r) : v.Collects values (r.map (y :: ·)) := by
  cases r with
  | ok ys =>
    obtain ⟨i, rfl⟩ := h
    exact ⟨i, by simp⟩
  | error e => exact h

/-! ## The program -/

/-- The definition of `map`. -/
def mapText : String :=
  "let map = fn(arr, f) \x7b\n" ++
  "  let iter = fn(arr, acc) \x7b\n" ++
  "    if (len(arr) == 0) \x7b acc \x7d else \x7b iter(rest(arr), push(acc, f(first(arr)))) \x7d\n" ++
  "  \x7d;\n" ++
  "  iter(arr, []);\n" ++
  "\x7d;\n"

/-- The builtins that `map` uses. -/
def Builtin.inMap : List Builtin := [.len, .first, .rest, .push]

namespace Node

/-- `len(arr) == 0`. -/
def arrIsEmpty : Node := .infixOp (.call (.ident "len") [.ident "arr"]) "==" (.int 0)

/-- `f(first(arr))`. -/
def applying : Node := .call (.ident "f") [.call (.ident "first") [.ident "arr"]]

/-- `push(acc, f(first(arr)))`. -/
def pushing : Node := .call (.ident "push") [.ident "acc", applying]

/-- `iter(rest(arr), push(acc, f(first(arr))))`. -/
def iterating : Node := .call (.ident "iter") [.call (.ident "rest") [.ident "arr"], pushing]

/-- The body of the loop. -/
def iterBody : List Node :=
  [.exprStmt (.ifExpr arrIsEmpty [.exprStmt (.ident "acc")] (some [.exprStmt iterating]))]

/-- The body of `map`. -/
def mapBody : List Node :=
  [.letStmt "iter" (.fnLit ["arr", "acc"] iterBody),
    .exprStmt (.call (.ident "iter") [.ident "arr", .array []])]

/-- `map(xs, f)`. -/
def mapCall : Node := .call (.ident "map") [.ident "xs", .ident "f"]

/-- The tree is one of the call or of the text of `map`, but not `f(first(arr))`. -/
def OfMap (n : Node) : Prop :=
  n ∈ mapCall.subtrees ++ (Node.fnLit ["arr", "f"] mapBody).subtrees ∧ n ≠ applying

instance : DecidablePred OfMap := fun _ => inferInstanceAs (Decidable (_ ∧ _))

end Node

theorem parse_mapText : Source.parse mapText =
    .ok (.program [.letStmt "map" (.fnLit ["arr", "f"] Node.mapBody)]) :=
  Source.parse_of_toOption (by decide +kernel)

/-! ## The loop -/

/-- In a scope in the loop the names mean the items that are left and the values that there are so
far, the loop, and the value to be called; and the builtins mean themselves. -/
structure Store.Iterates (loop f : Value) (j k : Identity) (items values : List Value) (st : Store)
    (sc : Scope) : Prop where
  arr : st.lookup "arr" sc = some (.array j items)
  acc : st.lookup "acc" sc = some (.array k values)
  iter : st.lookup "iter" sc = some loop
  f : st.lookup "f" sc = some f
  builtins : ∀ b ∈ Builtin.inMap, st.lookup b.name sc = none

namespace Store.Iterates
variable {loop f x y v : Value} {i j k : Identity} {ps : List String} {body : Node} {home : Scope}
  {items values xs : List Value} {st st₁ st' : Store} {sc : Scope} {depth : Nat} {ws : List Visit}

theorem of_frames (h : st.Iterates loop f j k items values sc) (hframes : st'.frames = st.frames) :
    st'.Iterates loop f j k items values sc where
  arr := (lookup_of_frames hframes _ sc).trans h.arr
  acc := (lookup_of_frames hframes _ sc).trans h.acc
  iter := (lookup_of_frames hframes _ sc).trans h.iter
  f := (lookup_of_frames hframes _ sc).trans h.f
  builtins b hb := (lookup_of_frames hframes _ sc).trans (h.builtins b hb)

/-- A block inside sees the same. -/
theorem child (h : st.Iterates loop f j k items values sc) :
    (st.child sc []).2.Iterates loop f j k items values ⟨st.frames.size⟩ where
  arr := (lookup_child sc [] st _).trans h.arr
  acc := (lookup_child sc [] st _).trans h.acc
  iter := (lookup_child sc [] st _).trans h.iter
  f := (lookup_child sc [] st _).trans h.f
  builtins b hb := (lookup_child sc [] st _).trans (h.builtins b hb)

/-- A call of a builtin in the loop. -/
theorem callBuiltin (h : st.Iterates loop f j k items values sc) {b : Builtin} {args : List Node}
    {vs : List Value} (hb : b ∈ Builtin.inMap)
    (hown : Node.OfMap (.call (.ident b.name) args) ∧ Node.OfMap (.ident b.name))
    (hargs : Traces Node.OfMap .applying (depth + 1) (needAll sc args).run st (.ok vs) st₁ ws)
    (hcall : Traces Node.OfMap .applying (depth + 1) ((Value.builtin b).call vs) st₁ v st' []) :
    Traces Node.OfMap .applying (depth + 2) (eval (.call (.ident b.name) args) sc) st v st' ws := by
  have hoperands := (Traces.ident_builtin hown.2 (h.builtins b hb)).operands rfl hargs
  have hquote : Node.ident b.name ≠ .ident "quote" := by cases b <;> simp [Builtin.name]
  have htraces := Traces.call hown.1 hquote hoperands hcall
  rwa [List.append_nil] at htraces

/-- The only argument of such a call is the array. -/
theorem callOnItems (h : st.Iterates loop f j k items values sc) {b : Builtin}
    (hb : b ∈ Builtin.inMap)
    (hown : Node.OfMap (.call (.ident b.name) [.ident "arr"]) ∧ Node.OfMap (.ident b.name))
    (hcall : Traces Node.OfMap .applying (depth + 1) ((Value.builtin b).call [.array j items]) st v
      st' []) :
    Traces Node.OfMap .applying (depth + 2) (eval (.call (.ident b.name) [.ident "arr"]) sc) st v
      st' [] :=
  h.callBuiltin hb hown
    (.needAll_cons (.ident (by decide +kernel) h.arr) rfl .needAll_nil) hcall

theorem condition (h : st.Iterates loop f j k items values sc) :
    Traces Node.OfMap .applying (depth + 3) (eval .arrIsEmpty sc) st (.bool items.isEmpty) st [] := by
  have hlen : Traces Node.OfMap .applying (depth + 2) (eval (.call (.ident "len") [.ident "arr"]) sc)
      st (.int items.length) st [] :=
    h.callOnItems (b := .len) (by decide) (by decide +kernel) (.pure _)
  have happly : Value.applyInfix "==" (.int items.length) (.int 0) = .ok (.bool items.isEmpty) := by
    cases items with
    | nil => rfl
    | cons x xs =>
      show Except.ok (Value.bool ((((xs.length + 1 : Nat) : Int)) == 0)) = _
      rw [beq_false_of_ne (by omega)]
      rfl
  exact .infixOp (by decide +kernel) hlen rfl (.int 0 (by decide +kernel)) rfl happly

/-- When `f(first(arr))` is evaluated, the value is called on the first of the items. -/
theorem calls (h : st.Iterates loop f j k (x :: xs) values sc) (hf : f.isError = false)
    (hx : x.isError = false) :
    Visit.Calls ⟨depth + 2, .applying, sc, st⟩ f [x] st := by
  have hfirst : Traces Node.OfMap .applying (depth + 2)
      (eval (.call (.ident "first") [.ident "arr"]) sc) st x st [] :=
    h.callOnItems (b := .first) (by decide) (by decide +kernel) (.pure _)
  have hcallee : Traces Node.OfMap .applying (depth + 2) (eval (.ident "f") sc) st f st [] :=
    .ident (by decide +kernel) h.f
  have hoperands := hcallee.operands hf (.needAll_cons hfirst hx .needAll_nil)
  exact ⟨_, _, rfl, by simp, hoperands.outcome⟩

section Calling
variable (hf : f.isError = false) (hx : x.isError = false)
  (hcall : (f.call [x]).outcome evalRule (depth + 2) st = ⟨.ok y, st'⟩)
include hf hx hcall

/-- What the call comes to is put behind the values. -/
theorem pushing_ok (h : st.Iterates loop f j k (x :: xs) values sc) (hy : y.isError = false) :
    Traces Node.OfMap .applying (depth + 4) (eval .pushing sc) st
      (.array st'.nextIdentity (values ++ [y])) st'.freshIdentity.2
      [⟨depth + 2, .applying, sc, st⟩] := by
  have happlying : Traces Node.OfMap .applying (depth + 3) (eval .applying sc) st y st'
      [⟨depth + 2, .applying, sc, st⟩] := .evalOther rfl ((h.calls hf hx).outcome.trans hcall)
  exact h.callBuiltin (b := .push) (by decide) (by decide +kernel)
    (.needAll_cons (.ident (by decide +kernel) h.acc) rfl
      (.needAll_cons happlying hy .needAll_nil)) (.newArray _)

/-- An error is not put anywhere. -/
theorem pushing_error (h : st.Iterates loop f j k (x :: xs) values sc) (hy : y.isError = true) :
    Traces Node.OfMap .applying (depth + 4) (eval .pushing sc) st y st'
      [⟨depth + 2, .applying, sc, st⟩] := by
  have happlying : Traces Node.OfMap .applying (depth + 3) (eval .applying sc) st y st'
      [⟨depth + 2, .applying, sc, st⟩] := .evalOther rfl ((h.calls hf hx).outcome.trans hcall)
  have hpush : Traces Node.OfMap .applying (depth + 3) (eval (.ident "push") sc) st (.builtin .push)
      st [] := .ident_builtin (b := .push) (by decide +kernel) (h.builtins .push (by decide))
  exact .call_stop (by decide +kernel) (by simp) (hpush.operands_stop rfl
    (.needAll_behind (.ident (by decide +kernel) h.acc) rfl (.needAll_stop happlying hy)))

end Calling

section Round
variable (h : st.Iterates (.function i ps body home) f j k (x :: xs) values sc)
  (hf : f.isError = false) (hx : x.isError = false)
  (hcall : (f.call [x]).outcome evalRule (depth + 2) st.freshIdentity.2 = ⟨.ok y, st₁⟩)
include h

theorem rest_arr : Traces Node.OfMap .applying (depth + 2)
    (eval (.call (.ident "rest") [.ident "arr"]) sc) st (.array st.nextIdentity xs)
    st.freshIdentity.2 [] :=
  h.callOnItems (b := .rest) (by decide) (by decide +kernel) (.newArray xs)

include hf hx hcall

/-- The next round goes on with the other items and with one value more. -/
theorem iterating_ok (hy : y.isError = false)
    (hnext : Traces Node.OfMap .applying (depth + 4) ((Value.function i ps body home).call
      [.array st.nextIdentity xs, .array st₁.nextIdentity (values ++ [y])]) st₁.freshIdentity.2 v
      st' ws) :
    Traces Node.OfMap .applying (depth + 5) (eval .iterating sc) st v st'
      (⟨depth + 2, .applying, sc, st.freshIdentity.2⟩ :: ws) := by
  have hiter : Traces Node.OfMap .applying (depth + 4) (eval (.ident "iter") sc) st
      (.function i ps body home) st [] := .ident (by decide +kernel) h.iter
  have hlater : st.freshIdentity.2.Iterates _ f j k (x :: xs) values sc := h.of_frames rfl
  have hpushing := hlater.pushing_ok hf hx hcall hy
  exact .call (by decide +kernel) (by simp) (hiter.operands rfl
    (.needAll_cons h.rest_arr rfl (.needAll_cons hpushing rfl .needAll_nil))) hnext

/-- An error is what the round comes to. -/
theorem iterating_error (hy : y.isError = true) :
    Traces Node.OfMap .applying (depth + 5) (eval .iterating sc) st y st₁
      [⟨depth + 2, .applying, sc, st.freshIdentity.2⟩] := by
  have hiter : Traces Node.OfMap .applying (depth + 4) (eval (.ident "iter") sc) st
      (.function i ps body home) st [] := .ident (by decide +kernel) h.iter
  have hlater : st.freshIdentity.2.Iterates _ f j k (x :: xs) values sc := h.of_frames rfl
  have hpushing := hlater.pushing_error hf hx hcall hy
  exact .call_stop (by decide +kernel) (by simp) (hiter.operands_stop rfl
    (.needAll_behind h.rest_arr rfl (.needAll_stop hpushing hy)))

end Round

end Store.Iterates

/-- The loop that is bound in a scope. -/
def Value.loop (i : Identity) (sc : Scope) : Value :=
  .function i ["arr", "acc"] (.block Node.iterBody) sc

/-- In the scope the loop is bound as the text binds it. The name of the value that it calls is bound
there, too, and the builtins mean themselves. -/
structure Store.Loops (i : Identity) (f : Value) (st : Store) (sc : Scope) : Prop where
  made : sc.index < st.frames.size
  iter : st.lookup "iter" sc = some (.loop i sc)
  f : st.lookup "f" sc = some f
  builtins : ∀ b ∈ Builtin.inMap, st.lookup b.name sc = none

/-- The loop is called: there are a scope for the call, one for its body and one for the branch that
it takes, which is the one to go on in. -/
def Store.turn (arr acc : Value) (sc : Scope) (st : Store) : Scope × Store :=
  let call := st.child sc [("arr", arr), ("acc", acc)]
  let body := call.2.child call.1 []
  body.2.child body.1 []

namespace Store.Loops
variable {f x y v : Value} {i j k : Identity} {items values xs : List Value} {st st₁ st' : Store}
  {sc : Scope} {depth : Nat} {ws : List Visit} (h : st.Loops i f sc)
include h

theorem iterates_call : (st.child sc [("arr", .array j items), ("acc", .array k values)]).2.Iterates
    (.loop i sc) f j k items values ⟨st.frames.size⟩ where
  arr := lookup_child ..
  acc := lookup_child ..
  iter := (lookup_child ..).trans h.iter
  f := (lookup_child ..).trans h.f
  builtins b hb := (lookup_child ..).trans (by
    rw [h.builtins b hb, Option.or_none]
    cases b <;> rfl)

theorem iterates_turn : (st.turn (.array j items) (.array k values) sc).2.Iterates (.loop i sc) f j k
    items values (st.turn (.array j items) (.array k values) sc).1 :=
  h.iterates_call.child.child

/-- The loop comes to what the branch comes to that it takes. -/
theorem call_loop (items : List Value) (hbranch : Traces Node.OfMap .applying (depth + 1)
      (eval (if items.isEmpty then .ident "acc" else .iterating)
        (st.turn (.array j items) (.array k values) sc).1)
      (st.turn (.array j items) (.array k values) sc).2 v st' ws) :
    Traces Node.OfMap .applying (depth + 6)
      ((Value.loop i sc).call [.array j items, .array k values]) st v.unwrapped st' ws := by
  let call := st.child sc [("arr", .array j items), ("acc", .array k values)]
  let body := call.2.child call.1 []
  have hcondition : Traces Node.OfMap .applying (depth + 3) (eval .arrIsEmpty body.1) body.2
      (.bool items.isEmpty) body.2 [] := h.iterates_call.child.condition
  have hblock : Traces Node.OfMap .applying (depth + 3)
      (eval (.block (if items.isEmpty then [.exprStmt (.ident "acc")] else [.exprStmt .iterating]))
        body.1) body.2 v st' ws := by
    cases hempty : items.isEmpty <;> rw [hempty] at hbranch
    · exact .block (by decide +kernel) (.statement_last (.exprStmt (by decide +kernel) hbranch))
    · exact .block (by decide +kernel) (.statement_last (.exprStmt (by decide +kernel) hbranch))
  have hif := Traces.ifExpr (by decide +kernel) hcondition rfl hblock
  exact .callFunction rfl (.block (by decide +kernel)
    (.statement_last (.exprStmt (by decide +kernel) hif)))

/-- Without items the loop comes to the values. -/
theorem loop_nil : Traces Node.OfMap .applying (depth + 6)
    ((Value.loop i sc).call [.array j [], .array k values]) st (.array k values)
    (st.turn (.array j []) (.array k values) sc).2 [] :=
  h.call_loop (v := .array k values) [] (.ident (by decide +kernel) h.iterates_turn.acc)

omit h in
theorem silent_turn (arr acc : Value) (sc : Scope) (st : Store) :
    st.Silent (st.turn arr acc sc).2 :=
  ((silent_child ..).trans (silent_child ..)).trans (silent_child ..)

/-- The loop is bound in all that comes later. -/
theorem keep (hkeeps : st.Keeps st') : st'.Loops i f sc where
  made := hkeeps.made h.made
  iter := (hkeeps.lookup h.made _).trans h.iter
  f := (hkeeps.lookup h.made _).trans h.f
  builtins b hb := (hkeeps.lookup h.made _).trans (h.builtins b hb)

end Store.Loops

/-- The calls of `f` on the items at the visits `ws` come to `r'`. They are like calls that come to `r`
and lead to the store `after`: beyond what corresponds in `ρ` there may be more that does, and up
to that the results and the stores are the same, and the same has been printed. -/
structure Value.CallsLike (f : Value) (ρ : Renaming) (items : List Value)
    (r : Except Value (List Value)) (after : Store) (ws : List Visit) (st : Store)
    (r' : Except Value (List Value)) (st' : Store) : Prop where
  calledOn : f.CalledOn ws st items r' st'
  output : st'.output = after.output
  renamed : ∃ σ, ρ ≤ σ ∧ Store.Renamed after.output st'.output σ after st' ∧
    Both (Matching.renamed σ).Alike (Pointwise (Matching.renamed σ).Alike) r r'

namespace Store.Loops
variable {f v : Value} {i j k : Identity} {items values : List Value} {st st' st₁ st₂ : Store}
  {sc : Scope} {depth : Nat} {ws : List Visit}

/-- From stores that are the same up to renaming the loop calls the value on the items as it is called
by itself. -/
theorem loop_maps {ρ : Renaming} (hρ : Renamed st₁.output st.output ρ st₁ st)
    (houtput : st.output = st₁.output) (h : st.Loops i f sc) (hf : f.isError = false)
    (hlike : f.Like (.renamed ρ) f)
    (hitems : ∀ x ∈ items, x.isError = false ∧ x.Like (.renamed ρ) x)
    {r : Except Value (List Value)}
    (hdirect : (f.callEach items).run.outcome evalRule depth st₁ = ⟨.ok r, st₂⟩) (j k : Identity)
    (values : List Value) (depth' : Nat) (hdepth : depth + 6 * items.length + 6 ≤ depth') :
    ∃ r' v st' ws, f.CallsLike ρ items r st₂ ws st r' st' ∧ v.Collects values r' ∧
      Traces Node.OfMap .applying depth' ((Value.loop i sc).call [.array j items, .array k values]) st v
        st' ws := by
  induction items generalizing st st₁ ρ r j k values depth' with
  | nil =>
    obtain ⟨depth', rfl⟩ : ∃ d, depth' = d + 6 := Nat.exists_eq_add_of_le' (by omega)
    have hsilent := silent_turn (.array j []) (.array k values) sc st
    cases hdirect
    refine ⟨.ok [], .array k values, _, [], ⟨.done hsilent, hsilent.output.trans houtput, ?_⟩,
      ⟨k, by simp⟩, h.loop_nil⟩
    exact ⟨ρ, ⟨fun _ _ => id, fun _ _ => id⟩, hρ.keep hsilent.toKeeps, .ok .nil⟩
  | cons x xs ih =>
    rw [List.length_cons] at hdepth
    obtain ⟨depth', rfl⟩ : ∃ d, depth' = d + 10 := Nat.exists_eq_add_of_le' (by omega)
    obtain ⟨⟨hxOk, hxLike⟩, hxs⟩ := List.forall_mem_cons.1 hitems
    obtain ⟨y, d, hcall, hrest⟩ := Value.outcome_callEach_cons hdirect
    -- up to the call nothing happens that can be seen
    let turn := st.turn (.array j (x :: xs)) (.array k values) sc
    let st₀ := turn.2.freshIdentity.2
    have hsilent : st.Silent st₀ := (silent_turn ..).trans (silent_freshIdentity _)
    obtain ⟨σ, y', st', hσle, hy, hcall', hkeeps, hprinted, hσ⟩ :=
      hρ.call houtput hsilent hlike hxLike hcall (show depth ≤ depth' + 2 by omega)
    have hiterates : st₀.Iterates (.loop i sc) f j k (x :: xs) values turn.1 :=
      h.iterates_turn.of_frames rfl
    have hcalls : Visit.Calls ⟨depth' + 2, .applying, turn.1, st₀⟩ f [x] st₀ := hiterates.calls hf hxOk
    have hout := hcalls.outcome.trans hcall'
    obtain ⟨hyError, rfl, rfl⟩ | ⟨hyOk, r₁, hdirect', rfl⟩ := hrest
    · have hyError' : y'.isError = true := hy.isError_eq ▸ hyError
      have hcollects : y'.Collects values (.error y') := ⟨rfl, hyError'⟩
      have htraces := h.call_loop (x :: xs)
        (h.iterates_turn.iterating_error hf hxOk hcall' hyError')
      rw [hcollects.unwrapped] at htraces
      exact ⟨.error y', y', st', _, ⟨.stop hsilent hcalls hout hyError', hprinted, σ, hσle, hσ,
        .error hy⟩, hcollects, htraces⟩
    · have hyOk' : y'.isError = false := hy.isError_eq ▸ hyOk
      have hpushed := silent_freshIdentity st'
      have hloops := h.keep ((hsilent.toKeeps.trans hkeeps).trans hpushed.toKeeps)
      have hmono := Matching.renamed_le.2 hσle
      obtain ⟨r', v, st'', ws, hlater, hcollects, hnext⟩ := ih (hσ.keep hpushed.toKeeps) hprinted
        hloops (hlike.mono hmono) (fun u hu => ⟨(hxs u hu).1, (hxs u hu).2.mono hmono⟩) hdirect'
        turn.2.nextIdentity st'.nextIdentity (values ++ [y']) (depth' + 4) (by omega)
      have htraces := h.call_loop (x :: xs)
        (h.iterates_turn.iterating_ok hf hxOk hcall' hyOk' hnext)
      rw [hcollects.unwrapped] at htraces
      obtain ⟨τ, hτle, hτ, hboth⟩ := hlater.renamed
      have hle : ρ ≤ τ := ⟨fun a b hab => hτle.scopes a b (hσle.scopes a b hab),
        fun a b hab => hτle.identities a b (hσle.identities a b hab)⟩
      refine ⟨_, v, st'', _, ⟨.next hsilent hcalls hout hyOk' (hlater.calledOn.behind hpushed),
        hlater.output, τ, hle, hτ, ?_⟩, hcollects.cons, htraces⟩
      exact hboth.map fun ys ys' hys => .cons (hy.mono (Matching.renamed_le.2 hτle)) hys

end Store.Loops

/-! ## The call of `map` -/

/-- The call of `map` has bound the loop: the scope of its body, and the store by then. -/
def Store.begun (arr f : Value) (home : Scope) (st : Store) : Scope × Store :=
  let call := st.child home [("arr", arr), ("f", f)]
  let body := call.2.child call.1 []
  (body.1, body.2.freshIdentity.2.define body.1 "iter" (.loop st.nextIdentity body.1))

namespace Store
variable {arr f v : Value} {home : Scope} {st st' : Store} {depth : Nat} {ws : List Visit}

/-- What there is behind the scope of the call is left alone. -/
theorem silent_begun_call (arr f : Value) (home : Scope) (st : Store) :
    (st.child home [("arr", arr), ("f", f)]).2.Silent (st.begun arr f home).2 :=
  ((silent_child ..).trans (silent_freshIdentity _)).define (Nat.le_refl _) _ _

theorem silent_begun (arr f : Value) (home : Scope) (st : Store) :
    st.Silent (st.begun arr f home).2 :=
  (silent_child ..).trans (silent_begun_call ..)

/-- The scope of the body binds the loop. -/
theorem frame?_begun : (st.begun arr f home).2.frame? (st.begun arr f home).1 =
    some ⟨some ⟨st.frames.size⟩, [("iter", .loop st.nextIdentity (st.begun arr f home).1)]⟩ := by
  let call := st.child home [("arr", arr), ("f", f)]
  have hbody : (call.2.child call.1 []).2.frame? ⟨call.2.frames.size⟩ = some ⟨some call.1, []⟩ :=
    (frame?_addFrame ..).trans (if_pos rfl)
  refine (frame?_define _ _ _ _ _).trans ((if_pos rfl).trans ?_)
  exact congrArg (Option.map _) hbody

theorem lookup_begun_iter : (st.begun arr f home).2.lookup "iter" (st.begun arr f home).1 =
    some (.loop st.nextIdentity (st.begun arr f home).1) := by
  refine lookup_of_find? ?_
  rw [bindings, frame?_begun]
  rfl

/-- Behind the loop the body sees the arguments, and behind them what is bound around `map`. -/
theorem lookup_begun {name : String} (hname : name ≠ "iter") :
    (st.begun arr f home).2.lookup name (st.begun arr f home).1 =
      (Table.find? name [("arr", arr), ("f", f)]).or (st.lookup name home) := by
  have hmade : st.frames.size < (st.child home [("arr", arr), ("f", f)]).2.frames.size :=
    Nat.lt_of_lt_of_eq (Nat.lt_succ_self _) (size_child ..).symm
  calc (st.begun arr f home).2.lookup name (st.begun arr f home).1
    _ = (st.begun arr f home).2.lookup name ⟨st.frames.size⟩ :=
      lookup_of_parent frame?_begun (if_neg hname.symm) rfl hmade
    _ = (st.child home [("arr", arr), ("f", f)]).2.lookup name ⟨st.frames.size⟩ :=
      (silent_begun_call arr f home st).lookup hmade name
    _ = (Table.find? name [("arr", arr), ("f", f)]).or (st.lookup name home) := lookup_child ..

theorem loops_begun (hbuiltins : ∀ b ∈ Builtin.inMap,
      st.lookup b.name home = none) :
    (st.begun arr f home).2.Loops st.nextIdentity f (st.begun arr f home).1 where
  made := by
    show (st.child home _).2.frames.size < (define _ _ _ _).frames.size
    rw [size_define]
    exact Nat.lt_of_lt_of_eq (Nat.lt_succ_self _) (size_child ..).symm
  iter := lookup_begun_iter
  f := lookup_begun (by decide)
  builtins b hb := by
    rw [lookup_begun (by cases b <;> decide), hbuiltins b hb, Option.or_none]
    cases b <;> rfl

/-- A call of `map` comes to what the loop comes to with no values so far. -/
theorem call_map {i : Identity} (harr : arr.isError = false)
    (hloop : Traces Node.OfMap .applying (depth + 1)
      ((Value.loop st.nextIdentity (st.begun arr f home).1).call
        [arr, .array (st.begun arr f home).2.nextIdentity []])
      (st.begun arr f home).2.freshIdentity.2 v st' ws) :
    Traces Node.OfMap .applying (depth + 4)
      ((Value.function i ["arr", "f"] (.block Node.mapBody) home).call [arr, f]) st v.unwrapped st'
      ws := by
  let body := (st.begun arr f home).1
  let begun := (st.begun arr f home).2
  have hiter : Traces Node.OfMap .applying (depth + 1) (eval (.ident "iter") body) begun
      (.loop st.nextIdentity body) begun [] := .ident (by decide +kernel) lookup_begun_iter
  have harr' : Traces Node.OfMap .applying (depth + 1) (eval (.ident "arr") body) begun arr begun [] :=
    .ident (by decide +kernel) (lookup_begun (by decide))
  have hempty : Traces Node.OfMap .applying (depth + 1) (eval (.array []) body) begun
      (.array begun.nextIdentity []) begun.freshIdentity.2 [] :=
    .array (by decide +kernel) .needAll_nil
  have hcall := Traces.call (by decide +kernel) (by simp) (hiter.operands rfl
    (.needAll_cons harr' harr (.needAll_cons hempty rfl .needAll_nil))) hloop
  have hlet : Traces Node.OfMap .applying (depth + 3)
      (eval (.letStmt "iter" (.fnLit ["arr", "acc"] Node.iterBody)) body)
      ((st.child home [("arr", arr), ("f", f)]).2.child ⟨st.frames.size⟩ []).2 .null begun [] :=
    .letStmt (by decide +kernel) (.fnLit (by decide +kernel)) rfl
  refine .callFunction rfl (.block (by decide +kernel) (.statement_next hlet rfl
    (.statement_last (.exprStmt (by decide +kernel) hcall))))

/-- In a store that is in order, and where `map` is bound as its text defines it, the call `map(xs, f)`
calls the value of `f` on the items of `xs`. -/
theorem Stocked.maps {I : Inventory} (h : st.Stocked .distinct I) (hstorable : st.Every Value.Storable)
    {sc : Scope} {i j : Identity} {items : List Value}
    (hmap : st.lookup "map" sc = some (.function i ["arr", "f"] (.block Node.mapBody) home))
    (hbuiltins : ∀ b ∈ Builtin.inMap, st.lookup b.name home = none)
    (hxs : st.lookup "xs" sc = some (.array j items)) (hf : st.lookup "f" sc = some f)
    {r : Except Value (List Value)}
    (hdirect : (f.callEach items).run.outcome evalRule depth st = ⟨.ok r, st'⟩) {depth' : Nat}
    (hdepth : depth + 6 * items.length + 10 ≤ depth') :
    ∃ r' v st'' ws, f.CallsLike (.itself st) items r st' ws st r' st'' ∧ v.Collects [] r' ∧
      Traces Node.OfMap .applying depth' (Computation.eval .mapCall sc) st v st'' ws := by
  obtain ⟨depth', rfl⟩ : ∃ d, depth' = d + 5 := Nat.exists_eq_add_of_le' (by omega)
  have hitems : ∀ x ∈ items, x.isError = false ∧ x.Like (.renamed (.itself st)) x := fun x hx =>
    have hOk := (Value.every_array.1 (every_lookup hstorable hxs)).2 x hx
    have hstock := (Value.every_array.1 (every_lookup h.bound hxs)).2 x hx
    ⟨(Value.every_iff.1 hOk).1, h.like_itself hstock⟩
  have hfOk : f.isError = false := (Value.every_iff.1 (every_lookup hstorable hf)).1
  have hfLike := h.like_itself (every_lookup h.bound hf)
  let begun := (st.begun (.array j items) f home).2
  have hsilent : st.Silent begun.freshIdentity.2 :=
    (silent_begun ..).trans (silent_freshIdentity _)
  have hloops := (loops_begun hbuiltins).keep (silent_freshIdentity begun).toKeeps
  obtain ⟨r', v, st'', ws, hcalls, hcollects, hloop⟩ :=
    hloops.loop_maps (h.renamed_itself.keep hsilent.toKeeps) hsilent.output hfOk hfLike hitems hdirect j
      begun.nextIdentity [] (depth' + 1) (by omega)
  have hcall := call_map (i := i) rfl hloop
  rw [hcollects.unwrapped] at hcall
  have hcallee : Traces Node.OfMap .applying (depth' + 4) (Computation.eval (.ident "map") sc) st _ st
      [] := .ident (by decide +kernel) hmap
  have hargs : Traces Node.OfMap .applying (depth' + 4) (needAll sc [.ident "xs", .ident "f"]).run st
      (.ok [.array j items, f]) st [] :=
    .needAll_cons (.ident (by decide +kernel) hxs) rfl
      (.needAll_cons (.ident (by decide +kernel) hf) hfOk .needAll_nil)
  exact ⟨r', v, st'', ws, ⟨hcalls.calledOn.behind hsilent, hcalls.output, hcalls.renamed⟩, hcollects,
    .call (by decide +kernel) (by simp) (hcallee.operands rfl hargs) hcall⟩

end Store

/-- The function `map` of the library calls what it is given on the items of an array. Take any moment
in a session at which `map` is bound as its text defines it, the builtins that it uses keep their
meaning where it was made, `xs` is an array, and `f` is a function, a builtin, or anything else. If
calling `f` on the items by itself, one after the other and up to the first error, comes to an end, then
`map(xs, f)` comes to an array of the values that its calls of `f` come to, or to the error that is
among them. These calls are all that it evaluates besides trees of its own, one for each item from left
to right and none behind an error; between them nothing is printed. And all is as it is without `map`,
but for scopes and identities that are made in the meantime: the values or the error, the frames, and
the text that is printed. -/
theorem Session.map_calls_each (history : List Entry) (limit : Nat) (source : String) {w : Visit}
    (hw : w ∈ (after history).visits limit source) {params : List String} {body : List Node}
    (htext : Source.parse mapText = .ok (.program [.letStmt "map" (.fnLit params body)]))
    {i j : Identity} {home : Scope} {items : List Value} {f : Value}
    (hmap : w.store.lookup "map" w.scope = some (.function i params (.block body) home))
    (hbuiltins : ∀ b ∈ Builtin.inMap, w.store.lookup b.name home = none)
    (hxs : w.store.lookup "xs" w.scope = some (.array j items))
    (hf : w.store.lookup "f" w.scope = some f) {depth : Nat} {r : Except Value (List Value)}
    {st : Store} (hdirect : (f.callEach items).run.outcome evalRule depth w.store = ⟨.ok r, st⟩)
    {depth' : Nat} (hdepth : depth + 6 * items.length + 10 ≤ depth') :
    ∃ r' v st' calls, Node.mapCall.evaluate depth' w.scope w.store = ⟨.ok v, st'⟩ ∧
      v.Collects [] r' ∧ f.CallsLike (.itself w.store) items r st calls w.store r' st' ∧
      Visit.Interleaved Node.OfMap .applying
        ((eval .mapCall w.scope).visits evalRule depth' w.store) calls := by
  obtain ⟨rfl, rfl⟩ : params = ["arr", "f"] ∧ body = Node.mapBody := by
    rw [parse_mapText] at htext
    cases htext
    exact ⟨rfl, rfl⟩
  have hempty : Ledger.distinct.holds (fun _ => False) 0 :=
    ⟨fun _ h => h.elim, fun _ _ h => h.elim⟩
  obtain ⟨I, hst, -⟩ := stocked_visits hempty history limit source w hw
  have S := Regime.stable_storable
  have hhistory : (after history).store.Every Value.Storable :=
    after_invariant S trivial trivial (every_new _) history fun _ _ => trivial
  have hstorable : w.store.Every Value.Storable :=
    (invariant_attempt S trivial trivial hhistory fun _ _ => trivial).1 w hw
  obtain ⟨r', v, st', calls, hcalls, hcollects, htraces⟩ :=
    hst.maps hstorable hmap hbuiltins hxs hf hdirect hdepth
  refine ⟨r', v, st', calls, ?_, hcollects, hcalls, htraces.visits⟩
  rw [Node.evaluate, run_eq]
  exact htraces.outcome

/-- The parameters and the body of a value that can be called with arguments. -/
def Value.code? : Value → Option (List String × Node)
  | function _ params body _ | macroFn _ params body _ => some (params, body)
  | _ => none

/-- Three numbers are doubled, and each of them is printed. -/
theorem Session.map_calls_each_printing :
    let history : List Entry :=
      [⟨20, "let xs = [1, 2, 3]; let f = fn(x) \x7b puts(x); 2 * x \x7d;"⟩, ⟨20, mapText⟩]
    ∃ w ∈ (after history).visits 30 "map(xs, f)", ∃ j items, ∃ f : Value, ∃ r st v r' st' calls,
      w.store.lookup "xs" w.scope = some (.array j items) ∧
      (Value.array j items).inspect = "[1, 2, 3]" ∧
      (f.callEach items).run.outcome evalRule 9 w.store = ⟨.ok r, st⟩ ∧
      Node.mapCall.evaluate (9 + 6 * items.length + 10) w.scope w.store = ⟨.ok v, st'⟩ ∧
      f.CallsLike (.itself w.store) items r st calls w.store r' st' ∧
      v.inspect = "[2, 4, 6]" ∧ st'.output = "1\n2\n3\n" := by
  intro history
  have hvisit : ((after history).visits 30 "map(xs, f)").any (fun w =>
      (w.store.lookup "map" w.scope).any (fun m => decide (m.kind = .function) &&
        decide (m.code? = some (["arr", "f"], .block Node.mapBody)) && m.closure?.any fun home =>
          Builtin.inMap.all fun b => (w.store.lookup b.name home).isNone) &&
        (w.store.lookup "xs" w.scope).any fun xs => decide (xs.kind = .array) &&
          decide (xs.inspect = "[1, 2, 3]") && (w.store.lookup "f" w.scope).any fun f =>
            let o := (f.callEach xs.components).run.outcome evalRule 9 w.store
            decide (o.store.output = "1\n2\n3\n") && o.result.toOption.any fun r =>
              r.toOption.any fun ys => decide ((Value.array 0 ys).inspect = "[2, 4, 6]")) = true := by
    decide +kernel
  obtain ⟨w, hw, htest⟩ := List.any_eq_true.1 hvisit
  simp only [Bool.and_eq_true, decide_eq_true_iff, Option.any_eq_true, List.all_eq_true,
    Option.isNone_iff_eq_none] at htest
  obtain ⟨⟨m, hm, ⟨hfunction, hcode⟩, home, hhome, hbuiltins⟩, xs, hxs, ⟨harray, hshown⟩, f, hf,
    hprinted, hresult⟩ := htest
  cases m with
  | function i params body home' =>
    obtain ⟨rfl, rfl⟩ := Prod.mk.inj (Option.some.inj hcode)
    obtain rfl := Option.some.inj hhome
    cases xs with
    | array j items =>
      generalize hdirect : (f.callEach _).run.outcome evalRule 9 w.store = o at hprinted hresult
      obtain ⟨_ | (_ | ys), st⟩ := o <;> simp [Except.toOption] at hresult
      obtain ⟨r', v, st', calls, heval, hcollects, hlike, -⟩ := map_calls_each history 30 "map(xs, f)"
        hw parse_mapText hm hbuiltins hxs hf hdirect (Nat.le_refl _)
      refine ⟨w, hw, j, items, f, _, st, v, r', st', calls, hxs, hshown, hdirect, heval, hlike, ?_,
        hlike.output.trans hprinted⟩
      obtain ⟨σ, -, -, hboth⟩ := hlike.renamed
      obtain ⟨ys', rfl, hys⟩ := hboth.exists_right
      obtain ⟨k, rfl⟩ := hcollects
      have htexts := Value.Like.inspectList_eq (hys.mono fun _ _ h => h.inspect_eq)
      exact (congrArg (fun texts => "[" ++ ", ".intercalate texts ++ "]") htexts).symm.trans hresult
    | _ => cases harray
  | _ => cases hfunction

end Monkey
