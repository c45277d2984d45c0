import Monkey.Proofs.Hiding
import Monkey.Proofs.Markers
import Monkey.Proofs.Renaming

/-!
# Runs in which one scope stands for two

A function that is called where it is written has a scope for its parameters and
inside that one for its body. If a block binds the parameters instead, one scope stands
for the two. And the arguments, which are evaluated around the function, are evaluated
in the scope of the block.

So in the second run that scope corresponds to two scopes of the first: to the scope
of the body, and to the scope around everything. What is evaluated in the latter,
and all that is made there, is *veiled*: it must not see the names that only the
scope of the block binds. Other scopes and identities correspond up to renaming.

## Main definitions

* `Site` — where the runs differ, and `Stage`, how far they are.
* `Veiling`, `Veiling.Corresponds` — what corresponds, and what of it is veiled.
* `Matching.veiling` — what is evaluated alike.
-/

namespace Monkey

/-! ## The site -/

/-- Where two runs differ: from the store `start` on and inside the scope `outer`, the one calls
a function and the other evaluates a block, which binds the hidden names. -/
structure Site where
  start : Store
  outer : Scope
  hidden : List String
  made : outer.index < start.frames.size

/-- The scope of the block, which is made first. -/
def Site.block (X : Site) : Scope := ⟨X.start.frames.size⟩

/-- How far the runs are: the parameters are still being given what they are to be bound to, or
the body is being evaluated in a scope inside that of the call. -/
inductive Stage where
  | binding (given : Table String Value)
  | running (call body : Scope)

/-- The scope of the body, once it is there. -/
def Stage.body? : Stage → Option Scope
  | binding _ => none
  | running _ body => some body

/-- What a name means inside the function, if not what it means around it. -/
def Stage.seen (s : Stage) (st : Store) (name : String) : Option Value :=
  match s with
  | binding given => given.find? name
  | running call body => ((st.bindings body).find? name).or ((st.bindings call).find? name)

/-- The scope of the body, if it is there, is inside that of the call, and this around
everything. -/
def Stage.Inside (s : Stage) (X : Site) (st : Store) : Prop :=
  ∀ call body, s = .running call body → ∃ f g, st.frame? body = some f ∧
    f.parent = some call ∧ st.frame? call = some g ∧ g.parent = some X.outer ∧
    call.index < body.index ∧ X.start.frames.size ≤ call.index

/-- The scope of the block corresponds to that of the body, and to that around everything as far as
the hidden names do not matter. -/
def Site.At (X : Site) (s : Stage) (veiled : Bool) (sc sc' : Scope) : Prop :=
  sc' = X.block ∧ if veiled then sc = X.outer else s.body? = some sc

/-- What is at the site stays there when the body is entered. -/
theorem Site.At.mono {X : Site} {s t : Stage} {veiled : Bool} {sc sc' : Scope}
    (h : X.At s veiled sc sc') (hbody : ∀ u, s.body? = some u → t.body? = some u) :
    X.At t veiled sc sc' := by
  refine ⟨h.1, ?_⟩
  cases veiled with
  | true => exact h.2
  | false => exact hbody sc h.2

/-- The trees that are evaluated at the site itself: expressions and blocks, and inside the function
also other statements, if they bind hidden names only. -/
structure Site.Takes (X : Site) (veiled : Bool) (n : Node) : Prop where
  wellSorted : n.WellSorted
  sort : n.isExpression = true ∨ n.isBlock = true ∨ veiled = false ∧ n.isStatement = true
  binds : ∀ name e, n = .letStmt name e → name ∈ X.hidden

/-- The parts of a tree that are evaluated in its own scope are evaluated at the site, too. -/
theorem Site.Takes.parts {X : Site} {veiled : Bool} {n : Node} (h : X.Takes veiled n) :
    ∀ m ∈ n.parts, X.Takes veiled m := by
  have hparts : ∀ m ∈ n.parts, (m.isExpression = true ∨ m.isBlock = true) ∧ m.WellSorted := by
    rcases h.sort with hsort | hsort | ⟨-, hsort⟩
    · exact h.wellSorted.parts (.inl hsort)
    · exact h.wellSorted.parts (.inr hsort)
    · intro m hm
      have hbuilt := Node.wellSorted_iff.1 h.wellSorted
      cases n with
      | letStmt | returnStmt | exprStmt =>
        exact (hbuilt.operands m hm).imp_left .inl
      | block => cases hm
      | _ => cases hsort
  intro m hm
  obtain ⟨hsort, hsorted⟩ := hparts m hm
  refine ⟨hsorted, hsort.imp_right .inl, ?_⟩
  rintro name e rfl
  rcases hsort with hsort | hsort <;> cases hsort

/-! ## What corresponds -/

/-- Which scopes and identities of the runs correspond, apart from the site, and which scopes of the
first run are veiled. -/
structure Veiling extends Renaming where
  veiled : Scope → Bool

namespace Veiling

/-- The scopes correspond apart from the site, and are veiled or not. -/
def Pairs (κ : Veiling) (veiled : Bool) (sc sc' : Scope) : Prop :=
  κ.scopes sc sc' ∧ κ.veiled sc = veiled

/-- The scopes correspond at the site or apart from it. -/
def Corresponds (κ : Veiling) (X : Site) (s : Stage) (veiled : Bool) (sc sc' : Scope) : Prop :=
  κ.Pairs veiled sc sc' ∨ X.At s veiled sc sc'

/-- Scopes around others correspond and are veiled as these are, and were made before. -/
def Around (κ : Veiling) (X : Site) (s : Stage) (sc sc' p p' : Scope) : Prop :=
  κ.Corresponds X s (κ.veiled sc) p p' ∧ p.index < sc.index ∧ p'.index < sc'.index

/-- What corresponds in `κ` does in `μ`, and is veiled as it was. -/
structure Within (κ μ : Veiling) : Prop where
  within : κ.toRenaming ≤ μ.toRenaming
  veiled : ∀ sc sc', κ.scopes sc sc' → μ.veiled sc = κ.veiled sc

instance : LE Veiling := ⟨Within⟩

variable {κ μ : Veiling} {X : Site} {s t : Stage} {veiled : Bool} {sc sc' : Scope}

theorem le_refl (κ : Veiling) : κ ≤ κ := ⟨⟨fun _ _ => id, fun _ _ => id⟩, fun _ _ _ => rfl⟩

theorem Pairs.mono (h : κ.Pairs veiled sc sc') (hle : κ ≤ μ) : μ.Pairs veiled sc sc' :=
  ⟨hle.within.scopes _ _ h.1, (hle.veiled _ _ h.1).trans h.2⟩

/-- Two scopes that have not corresponded to any correspond, and are veiled or not. -/
def joinVeiled (κ : Veiling) (veiled : Bool) (h : ∀ u, ¬ κ.scopes sc u)
    (h' : ∀ u, ¬ κ.scopes u sc') : Veiling where
  toRenaming := κ.join sc sc' h h'
  veiled u := if u = sc then veiled else κ.veiled u

section Joining
variable (κ : Veiling) (veiled : Bool) (h : ∀ u, ¬ κ.scopes sc u) (h' : ∀ u, ¬ κ.scopes u sc')

theorem le_joinVeiled : κ ≤ κ.joinVeiled veiled h h' := by
  refine ⟨⟨fun _ _ => .inl, fun _ _ => id⟩, fun u u' hu => if_neg ?_⟩
  rintro rfl
  exact h u' hu

theorem pairs_joinVeiled : (κ.joinVeiled veiled h h').Pairs veiled sc sc' :=
  ⟨.inr ⟨rfl, rfl⟩, if_pos rfl⟩

end Joining

theorem Corresponds.mono (h : κ.Corresponds X s veiled sc sc') (hle : κ ≤ μ)
    (hbody : ∀ u, s.body? = some u → t.body? = some u) : μ.Corresponds X t veiled sc sc' :=
  h.imp (·.mono hle) (·.mono hbody)

/-- Discreet trees are evaluated alike in scopes that correspond: any in new scopes apart from the
site, and at the site those that it takes. -/
def Admits (κ : Veiling) (X : Site) (s : Stage) (sc sc' : Scope) (n : Node) : Prop :=
  ∃ veiled, n.Discreet X.hidden veiled ∧
    (κ.Pairs veiled sc sc' ∧ X.start.frames.size ≤ sc.index ∧ X.start.frames.size ≤ sc'.index ∨
      X.At s veiled sc sc' ∧ X.Takes veiled n)

/-- Discreet bodies of functions go with scopes that correspond. -/
def Closes (κ : Veiling) (X : Site) (s : Stage) (sc sc' : Scope) (body : Node) : Prop :=
  ∃ veiled, body.Discreet X.hidden veiled ∧ κ.Corresponds X s veiled sc sc'

theorem Admits.closes {n c : Node} (h : κ.Admits X s sc sc' n) (hc : c ∈ n.children) :
    κ.Closes X s sc sc' c := by
  obtain ⟨veiled, hn, hplace⟩ := h
  exact ⟨veiled, hn.child hc, hplace.imp And.left And.left⟩

theorem Admits.part {n m : Node} (h : κ.Admits X s sc sc' n) (hm : m ∈ n.parts) :
    κ.Admits X s sc sc' m := by
  obtain ⟨veiled, hn, hplace⟩ := h
  exact ⟨veiled, hn.child (n.parts_subset hm), hplace.imp_right fun h => ⟨h.1, h.2.parts m hm⟩⟩

end Veiling

theorem Matching.Heads.isReturned_eq {M : Matching} {v v' : Value} (h : M.Heads v v') :
    v.isReturned = v'.isReturned := by
  cases h <;> rfl

/-- Partners that are not being returned. -/
def Partners.unreturned (P : Partners) : Partners where
  marks v v' := P.marks v v' ∧ v.isReturned = false ∧ v'.isReturned = false
  plain v hv := by
    have hplain : v.isReturned = false := by cases v <;> first | rfl | cases hv
    exact ⟨P.plain v hv, hplain, hplain⟩
  agrees v v' w w' hv hw := P.agrees v v' w w' hv.1 hw.1

/-- What corresponds in two runs that differ at a site. -/
def Matching.veiling (X : Site) (s : Stage) (κ : Veiling) : Matching where
  toPartners := (Partners.renamed κ.identities_oneToOne).unreturned
  admits := κ.Admits X s
  closes sc sc' _ body := κ.Closes X s sc sc' body
  quoted := Node.Quotable
  parts _ _ _ h _ hm := h.part hm
  functions sc sc' ps b h := h.elim (·.closes (by simp [Node.children]))
    (·.closes (by simp [Node.children]))
  quotations sc sc' arg h := by
    obtain ⟨veiled, hn, hplace⟩ := h
    refine Node.asks_discreet (hn.child (by simp [Node.children])) fun hveiled e he hquotable => ?_
    subst hveiled
    refine ⟨false, ⟨hquotable.2, by simp, by simp⟩, hplace.imp_right fun h => ⟨h.1, ?_⟩⟩
    refine ⟨hquotable.1, .inl he, ?_⟩
    rintro name e rfl
    cases he

/-- More corresponds as the runs go on. -/
theorem Matching.veiling_le {X : Site} {s t : Stage} {κ μ : Veiling} (hle : κ ≤ μ)
    (hbody : ∀ u, s.body? = some u → t.body? = some u) : veiling X s κ ≤ veiling X t μ where
  admits sc sc' n := by
    rintro ⟨veiled, hn, hplace⟩
    exact ⟨veiled, hn, hplace.imp (fun h => ⟨h.1.mono hle, h.2⟩) fun h => ⟨h.1.mono hbody, h.2⟩⟩
  closes sc sc' _ body := by
    rintro ⟨veiled, hbodied, hsc⟩
    exact ⟨veiled, hbodied, hsc.mono hle hbody⟩
  quoted _ := Iff.rfl
  marks v v' h := ⟨rel_mono h.1 hle.within.identities, h.2⟩

end Monkey
