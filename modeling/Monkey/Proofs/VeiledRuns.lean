import Monkey.Proofs.Veiling

/-!
# Evaluation in runs that differ at a site

Two runs go alike in which the scope of a block stands for the scope of a call, for that
of the body inside it and, as far as what is veiled is concerned, for the scope
around both. At the site the block binds what is seen inside the function, and nothing
but hidden names. Apart from it the frames of scopes that correspond are alike.

A name is looked up alike, for a scope that leads to the site leads on to the scope
around it, and on the way finds the same in both runs unless it is veiled; then the
name is none of the hidden ones, and the block does not bind it.

## Main definitions

* `Site.Here` — what is there at the site.
* `Veiling.Runs` — two runs that correspond.

## Main results

* `Veiling.Runs.lookup` — names mean values that look alike in corresponding scopes.
* `Site.laws_runs` — evaluation keeps what corresponds.
-/

namespace Monkey

open Monkey.Computation

/-- What a name means in a scope inside another. -/
theorem Store.lookup_eq_or {st : Store} {sc p : Scope} {f : Frame} {name : String}
    (hf : st.frame? sc = some f) (hp : f.parent = some p) (hlt : p.index < sc.index) :
    st.lookup name sc = (f.bindings.find? name).or (st.lookup name p) := by
  cases hn : f.bindings.find? name with
  | none => exact lookup_of_parent hf hn hp hlt
  | some v =>
    refine lookup_of_find? ?_
    rw [bindings, hf]
    exact hn

theorem rel_or {α β : Type} {R : α → β → Prop} {a b : Option α} {a' b' : Option β}
    (h : Option.Rel R a a') (h' : Option.Rel R b b') : Option.Rel R (a.or b) (a'.or b') := by
  cases h with
  | none => exact h'
  | some hab => exact .some hab

/-! ## What is at the site -/

/-- The scopes of the first run at the site, and those from before. -/
def Site.Own (X : Site) (s : Stage) (sc : Scope) : Prop :=
  sc.index < X.start.frames.size ∨ ∃ call body, s = .running call body ∧ (sc = call ∨ sc = body)

/-- What is there at the site: the scopes from before are as they were, and the scope of the block
binds what is seen inside the function, and nothing but hidden names. -/
structure Site.Here (X : Site) (s : Stage) (alike : Value → Value → Prop) (st st' : Store) :
    Prop where
  old : ∀ sc f, X.start.frame? sc = some f → st.frame? sc = some f ∧ st'.frame? sc = some f
  block : ∃ f, st'.frame? X.block = some f ∧ f.parent = some X.outer ∧
    ∀ name, Option.Rel alike (s.seen st name) (f.bindings.find? name) ∧
      (name ∉ X.hidden → f.bindings.find? name = none)
  running : s.Inside X st

namespace Site.Here
variable {X : Site} {s : Stage} {alike alike' : Value → Value → Prop} {st st' st₁ st₁' : Store}
  (h : X.Here s alike st st')
include h

/-- What is there at the site does not depend on other scopes. -/
theorem of_frames (halike : ∀ v v', alike v v' → alike' v v')
    (hframes : ∀ sc f, X.Own s sc → st.frame? sc = some f → st₁.frame? sc = some f)
    (hframes' : ∀ sc f, sc.index ≤ X.start.frames.size → st'.frame? sc = some f →
      st₁'.frame? sc = some f) : X.Here s alike' st₁ st₁' where
  old sc f hf := by
    have hmade : sc.index < X.start.frames.size := (Array.getElem?_eq_some_iff.1 hf).1
    obtain ⟨hold, hold'⟩ := h.old sc f hf
    exact ⟨hframes sc f (.inl hmade) hold, hframes' sc f (Nat.le_of_lt hmade) hold'⟩
  block := by
    obtain ⟨f, hf, hparent, hbinds⟩ := h.block
    refine ⟨f, hframes' _ f (Nat.le_refl _) hf, hparent, fun name => ⟨?_, (hbinds name).2⟩⟩
    have hseen : s.seen st₁ name = s.seen st name := by
      cases s with
      | binding given => rfl
      | running call body =>
        obtain ⟨f, g, hf, -, hg, -⟩ := h.running call body rfl
        have hf₁ := hframes body f (.inr ⟨call, body, rfl, .inr rfl⟩) hf
        have hg₁ := hframes call g (.inr ⟨call, body, rfl, .inl rfl⟩) hg
        simp only [Stage.seen, Store.bindings, hf, hg, hf₁, hg₁]
    rw [hseen]
    exact rel_mono (hbinds name).1 halike
  running call body hs := by
    obtain ⟨f, g, hf, hparent, hg, hrest⟩ := h.running call body hs
    exact ⟨f, g, hframes body f (.inr ⟨call, body, hs, .inr rfl⟩) hf, hparent,
      hframes call g (.inr ⟨call, body, hs, .inl rfl⟩) hg, hrest⟩

/-- The scopes at the site have been made. -/
theorem made {veiled : Bool} {sc sc' : Scope} (hsc : X.At s veiled sc sc') :
    sc.index < st.frames.size ∧ sc'.index < st'.frames.size := by
  obtain ⟨rfl, hat⟩ := hsc
  obtain ⟨g, hg, -⟩ := h.block
  refine ⟨?_, (Array.getElem?_eq_some_iff.1 hg).1⟩
  cases veiled with
  | true =>
    obtain rfl : sc = X.outer := hat
    have hf := Array.getElem?_eq_getElem X.made
    exact (Array.getElem?_eq_some_iff.1 (h.old X.outer _ hf).1).1
  | false =>
    cases s with
    | binding given => cases hat
    | running call body =>
      obtain rfl := Option.some.inj hat
      obtain ⟨f, -, hf, -⟩ := h.running call _ rfl
      exact (Array.getElem?_eq_some_iff.1 hf).1

/-- A hidden name is seen to be bound inside the function, and the block binds it. -/
theorem bind {t : Stage} {name : String} (hname : name ∈ X.hidden) {v v' : Value} (hv : alike v v')
    (hold : ∀ sc f, sc.index < X.start.frames.size → st.frame? sc = some f → st₁.frame? sc = some f)
    (hseen : ∀ other, t.seen st₁ other = if other = name then some v else s.seen st other)
    (hrunning : t.Inside X st₁) : X.Here t alike st₁ (st'.define X.block name v') where
  old sc f hf := by
    have hmade : sc.index < X.start.frames.size := (Array.getElem?_eq_some_iff.1 hf).1
    have hne : X.block ≠ sc := by
      rintro rfl
      exact Nat.lt_irrefl _ hmade
    obtain ⟨hf, hf'⟩ := h.old sc f hf
    exact ⟨hold sc f hmade hf, by rw [Store.frame?_define, if_neg hne, hf']⟩
  block := by
    obtain ⟨f, hf, hparent, hbinds⟩ := h.block
    refine ⟨f.bind name v', by rw [Store.frame?_define, if_pos rfl, hf]; rfl, hparent,
      fun other => ?_⟩
    rw [hseen, Frame.bind, Table.find?_insert]
    split
    · next heq =>
      subst heq
      exact ⟨.some hv, fun hhidden => absurd hname hhidden⟩
    · exact hbinds other
  running := hrunning

end Site.Here

/-! ## Runs -/

/-- Two runs that differ at a site: what corresponds apart from it is alike, they have printed the
same, and the site is as it should be. -/
structure Veiling.Runs (X : Site) (s : Stage) (κ : Veiling) (st st' : Store) : Prop where
  relates : κ.toRenaming.Relates (Matching.veiling X s κ).Alike (κ.Around X s) st st'
  here : X.Here s (Matching.veiling X s κ).Alike st st'
  output : st.output = st'.output
  grown : X.start.frames.size ≤ st.frames.size
  outer : κ.Pairs false X.outer X.outer
  apart : ∀ sc sc', κ.scopes sc sc' → sc' ≠ X.block ∧
    ∀ call body, s = .running call body → sc ≠ call ∧ sc ≠ body

/-- The relation between two runs that differ at a site. -/
def Site.runs (X : Site) (s : Stage) : StoreRelation :=
  fun M st st' => ∃ κ : Veiling, M = .veiling X s κ ∧ κ.Runs X s st st'

namespace Veiling.Runs
variable {X : Site} {s : Stage} {κ μ : Veiling} {st st' : Store} (h : κ.Runs X s st st')
include h

/-- What is alike stays alike when more corresponds. -/
theorem grow (hle : κ ≤ μ) :
    κ.toRenaming.Relates (Matching.veiling X s μ).Alike (μ.Around X s) st st' := by
  refine h.relates.mono (fun _ _ hv => hv.mono (Matching.veiling_le hle fun _ => id)) ?_
  rintro sc sc' p p' hsc ⟨hp, hbefore⟩
  refine ⟨?_, hbefore⟩
  rw [hle.veiled sc sc' hsc]
  exact hp.mono hle fun _ => id

theorem made {veiled : Bool} {sc sc' : Scope} (hsc : κ.Corresponds X s veiled sc sc') :
    sc.index < st.frames.size ∧ sc'.index < st'.frames.size :=
  hsc.elim (fun hsc => h.relates.made sc sc' hsc.1) h.here.made

/-- New scopes inside corresponding ones correspond, and are veiled as these are. -/
theorem child {veiled : Bool} {sc sc' : Scope} (hsc : κ.Corresponds X s veiled sc sc')
    {bs bs' : Table String Value} (hbs : Table.Alike (Matching.veiling X s κ).Alike bs bs') :
    ∃ μ, κ ≤ μ ∧ μ.Runs X s (st.child sc bs).2 (st'.child sc' bs').2 ∧
      μ.Pairs veiled ⟨st.frames.size⟩ ⟨st'.frames.size⟩ := by
  obtain ⟨hfresh, hfresh'⟩ := h.relates.scope_fresh
  have hle := κ.le_joinVeiled veiled hfresh hfresh'
  have hnew := κ.pairs_joinVeiled veiled hfresh hfresh'
  have hmade := h.made hsc
  obtain ⟨f, hf, -⟩ := h.here.block
  have hblock : X.block.index < st'.frames.size := (Array.getElem?_eq_some_iff.1 hf).1
  refine ⟨_, hle, ⟨(h.grow hle).child ?_ ⟨?_, hmade⟩, ?_, h.output, ?_, h.outer.mono hle, ?_⟩,
    hnew⟩
  · exact hbs.mono fun _ _ hv => ⟨hv.1, hv.2.mono (Matching.veiling_le hle fun _ => id)⟩
  · rw [hnew.2]
    exact hsc.mono hle fun _ => id
  · refine h.here.of_frames (fun _ _ hv => hv.mono (Matching.veiling_le hle fun _ => id)) ?_ ?_
    · exact fun u f _ => Store.frame?_addFrame_of_some _
    · exact fun u f _ => Store.frame?_addFrame_of_some _
  · rw [Store.size_child]
    exact Nat.le_succ_of_le h.grown
  · rintro u u' (hu | ⟨rfl, rfl⟩)
    · exact h.apart u u' hu
    · refine ⟨fun heq => ?_, fun call body hs => ?_⟩
      · rw [← heq] at hblock
        exact Nat.lt_irrefl _ hblock
      · obtain ⟨f, g, hf, -, hg, -⟩ := h.here.running call body hs
        have hcall : call.index < st.frames.size := (Array.getElem?_eq_some_iff.1 hg).1
        have hbody : body.index < st.frames.size := (Array.getElem?_eq_some_iff.1 hf).1
        constructor
        · rintro rfl
          exact Nat.lt_irrefl _ hcall
        · rintro rfl
          exact Nat.lt_irrefl _ hbody

/-- Both runs hand out an identity. -/
theorem identify : ∃ μ, κ ≤ μ ∧ μ.Runs X s st.freshIdentity.2 st'.freshIdentity.2 ∧
    μ.identities st.nextIdentity st'.nextIdentity := by
  obtain ⟨hfresh, hfresh'⟩ := h.relates.identity_fresh
  let μ : Veiling :=
    ⟨κ.toRenaming.identify st.nextIdentity st'.nextIdentity hfresh hfresh', κ.veiled⟩
  have hle : κ ≤ μ := ⟨⟨fun _ _ => id, fun _ _ => .inl⟩, fun _ _ _ => rfl⟩
  refine ⟨μ, hle, ⟨(h.grow hle).identify, ?_, h.output, h.grown, h.outer.mono hle, h.apart⟩,
    .inr ⟨rfl, rfl⟩⟩
  exact h.here.of_frames (fun _ _ hv => hv.mono (Matching.veiling_le hle fun _ => id))
    (fun _ _ _ => id) fun _ _ _ => id

/-- Both runs bind a name in new scopes that correspond apart from the site. -/
theorem define {sc sc' : Scope} (hsc : κ.scopes sc sc') (hnew : X.start.frames.size ≤ sc.index)
    (hnew' : X.start.frames.size ≤ sc'.index) (name : String) {v v' : Value}
    (hv : v.Like (.veiling X s κ) v') :
    κ.Runs X s (st.define sc name v) (st'.define sc' name v') := by
  obtain ⟨hblock, hrunning⟩ := h.apart sc sc' hsc
  refine ⟨h.relates.define hsc name hv, h.here.of_frames (fun _ _ => id) ?_ ?_, h.output, ?_,
    h.outer, h.apart⟩
  · intro u f hu hf
    have hne : sc ≠ u := by
      rintro rfl
      rcases hu with hlt | ⟨call, body, hs, hu⟩
      · omega
      · exact hu.elim (hrunning call body hs).1 (hrunning call body hs).2
    rw [Store.frame?_define, if_neg hne, hf]
  · intro u f hu hf
    have hne : sc' ≠ u := by
      rintro rfl
      exact hblock (congrArg Scope.mk (Nat.le_antisymm hu hnew'))
    rw [Store.frame?_define, if_neg hne, hf]
  · rw [Store.size_define]
    exact h.grown

/-- Names mean values that look alike in scopes that correspond, unless they are hidden there. -/
theorem lookup (name : String) {veiled : Bool} {sc sc' : Scope}
    (hsc : κ.Corresponds X s veiled sc sc') (hname : veiled = true → name ∉ X.hidden) :
    Option.Rel (Matching.veiling X s κ).Alike (st.lookup name sc) (st'.lookup name sc') := by
  -- from the scopes that were there before one gets to such scopes only
  have hold : ∀ {sc sc'}, κ.Pairs false sc sc' ∧ sc.index < X.start.frames.size →
      Option.Rel (Matching.veiling X s κ).Alike (st.lookup name sc) (st'.lookup name sc') := by
    refine Store.lookup_related
      (R := fun sc sc' => κ.Pairs false sc sc' ∧ sc.index < X.start.frames.size) ?_
    rintro sc sc' ⟨⟨hsc, hplain⟩, hlt⟩
    refine .inr (rel_mono (h.relates.frames sc sc' hsc) fun f f' hf => hf.mono (fun _ _ => id) ?_)
    rintro p p' ⟨hp, hbefore⟩
    rw [hplain] at hp
    refine ⟨⟨hp.resolve_right ?_, by omega⟩, iff_of_true hbefore.1 hbefore.2⟩
    rintro ⟨-, hbody⟩
    cases s with
    | binding given => cases hbody
    | running call body =>
      obtain rfl := Option.some.inj hbody
      obtain ⟨f, g, -, -, -, -, hlt', hcall⟩ := h.here.running call _ rfl
      omega
  refine Store.lookup_related (R := κ.Corresponds X s veiled) ?_ hsc
  rintro sc sc' (⟨hsc, hveiled⟩ | ⟨rfl, hat⟩)
  · refine .inr (rel_mono (h.relates.frames sc sc' hsc) fun f f' hf => hf.mono (fun _ _ => id) ?_)
    rintro p p' ⟨hp, hbefore⟩
    rw [hveiled] at hp
    exact ⟨hp, iff_of_true hbefore.1 hbefore.2⟩
  · have houter := hold ⟨h.outer, X.made⟩
    obtain ⟨f, hf, hparent, hbinds⟩ := h.here.block
    rw [Store.lookup_eq_or hf hparent X.made]
    cases veiled with
    | true =>
      obtain rfl : sc = X.outer := hat
      rw [(hbinds name).2 (hname rfl)]
      exact .inl houter
    | false =>
      cases s with
      | binding given => cases hat
      | running call body =>
        obtain rfl := Option.some.inj hat
        obtain ⟨f₁, g, hf₁, hparent₁, hg, hparent', hlt, hcall⟩ := h.here.running call _ rfl
        have hmade := X.made
        rw [Store.lookup_eq_or hf₁ hparent₁ hlt, Store.lookup_eq_or hg hparent' (by omega),
          ← Option.or_assoc]
        have hseen := (hbinds name).1
        simp only [Stage.seen, Store.bindings, hf₁, hg] at hseen
        exact .inl (rel_or hseen houter)

/-- Both runs bind a hidden name inside the function, in the scopes at the site. -/
theorem defineInside {sc : Scope} (hbody : s.body? = some sc) {name : String}
    (hname : name ∈ X.hidden) {v v' : Value} (hv : v.Like (.veiling X s κ) v') :
    κ.Runs X s (st.define sc name v) (st'.define X.block name v') := by
  cases s with
  | binding given => cases hbody
  | running call body =>
  obtain rfl : body = sc := Option.some.inj hbody
  obtain ⟨f, g, hf, hparent, hg, hrest⟩ := h.here.running call body rfl
  have hcall : body ≠ call := by
    rintro rfl
    exact Nat.lt_irrefl _ hrest.2.1
  have hg₁ : (st.define body name v).frame? call = some g := by
    rw [Store.frame?_define, if_neg hcall, hg]
  have hf₁ : (st.define body name v).frame? body = some (f.bind name v) := by
    rw [Store.frame?_define, if_pos rfl, hf]
    rfl
  refine ⟨h.relates.of_frames ?_ ?_ h.relates.handedOut, h.here.bind hname hv ?_ ?_ ?_, h.output,
    ?_, h.outer, h.apart⟩
  · rintro u f hf ⟨u', hu⟩
    rw [Store.frame?_define, if_neg ((h.apart u u' hu).2 call body rfl).2.symm, hf]
  · rintro u f hf ⟨u', hu⟩
    rw [Store.frame?_define, if_neg (h.apart u' u hu).1.symm, hf]
  · intro u f hlt hf
    have hne : body ≠ u := by
      rintro rfl
      omega
    rw [Store.frame?_define, if_neg hne, hf]
  · intro other
    simp only [Stage.seen, Store.bindings, hf₁, hg₁, hf, hg, Frame.bind, Table.find?_insert]
    split
    · rfl
    · rfl
  · rintro _ _ ⟨⟩
    exact ⟨_, g, hf₁, hparent, hg₁, hrest⟩
  · rw [Store.size_define]
    exact h.grown

theorem grown' : X.start.frames.size ≤ st'.frames.size := by
  obtain ⟨f, hf, -⟩ := h.here.block
  exact Nat.le_of_lt (Array.getElem?_eq_some_iff.1 hf).1

end Veiling.Runs

/-! ## From one stage to the next -/

namespace Veiling.Runs
variable {X : Site} {κ : Veiling} {given : Table String Value} {st st' : Store}
  (h : κ.Runs X (.binding given) st st')
include h

/-- The block binds a parameter to its argument, which is given to the function when that is
called. -/
theorem give {name : String}
    (hname : name ∈ X.hidden) {v v' : Value} (hv : v.Like (.veiling X (.binding given) κ) v') :
    κ.Runs X (.binding (given.insert name v)) st (st'.define X.block name v') := by
  have hrelates : κ.toRenaming.Relates (Matching.veiling X (.binding given) κ).Alike
      (κ.Around X (.binding given)) st (st'.define X.block name v') := by
    refine h.relates.of_frames (fun _ _ hf _ => hf) ?_ h.relates.handedOut
    rintro u f hf ⟨u', hu⟩
    rw [Store.frame?_define, if_neg (h.apart u' u hu).1.symm, hf]
  refine ⟨hrelates, h.here.bind hname hv (fun _ _ _ => id) ?_ ?_, h.output, h.grown, h.outer, ?_⟩
  · exact fun other => Table.find?_insert name other v given
  · rintro _ _ ⟨⟩
  · exact fun u u' hu => ⟨(h.apart u u' hu).1, by rintro _ _ ⟨⟩⟩

/-- The function is called with what the block has bound, and its body is entered. -/
theorem enter :
    κ.Runs X (.running ⟨st.frames.size⟩ ⟨st.frames.size + 1⟩)
      ((st.child X.outer given).2.child ⟨st.frames.size⟩ []).2 st' := by
  have hgrown := h.grown
  generalize hcalled : (st.child X.outer given).2 = called
  have hkept : ∀ {u f}, st.frame? u = some f →
      (called.child ⟨st.frames.size⟩ []).2.frame? u = some f := by
    subst hcalled
    exact fun hf => Store.frame?_addFrame_of_some _ (Store.frame?_addFrame_of_some _ hf)
  have hsize : called.frames.size = st.frames.size + 1 := by rw [← hcalled, Store.size_child]
  have hcall : (called.child ⟨st.frames.size⟩ []).2.frame? ⟨st.frames.size⟩ =
      some ⟨some X.outer, given⟩ := by
    refine Store.frame?_addFrame_of_some _ ?_
    rw [← hcalled, Store.child, Store.frame?_addFrame, if_pos rfl]
  have hbody : (called.child ⟨st.frames.size⟩ []).2.frame? ⟨st.frames.size + 1⟩ =
      some ⟨some ⟨st.frames.size⟩, []⟩ := by
    rw [Store.child, Store.frame?_addFrame, if_pos hsize.symm]
  have hle : Matching.veiling X (.binding given) κ ≤
      .veiling X (.running ⟨st.frames.size⟩ ⟨st.frames.size + 1⟩) κ :=
    Matching.veiling_le κ.le_refl (by rintro _ ⟨⟩)
  have halike : ∀ v v' : Value, v.Like (.veiling X (.binding given) κ) v' →
      v.Like (.veiling X (.running ⟨st.frames.size⟩ ⟨st.frames.size + 1⟩) κ) v' :=
    fun _ _ hv => hv.mono hle
  refine ⟨?_, ⟨fun sc f hf => ?_, ?_, ?_⟩, ?_, ?_, h.outer, ?_⟩
  · refine (h.relates.of_frames (fun u f hf _ => hkept hf) (fun _ _ hf _ => hf) ?_).mono halike ?_
    · rw [← hcalled]
      exact h.relates.handedOut
    · rintro u u' p p' - ⟨hp, hbefore⟩
      exact ⟨hp.mono κ.le_refl (by rintro _ ⟨⟩), hbefore⟩
  · exact (h.here.old sc f hf).imp_left hkept
  · obtain ⟨f, hf, hparent, hbinds⟩ := h.here.block
    refine ⟨f, hf, hparent, fun name => ⟨?_, (hbinds name).2⟩⟩
    simp only [Stage.seen, Store.bindings, hcall, hbody]
    exact rel_mono (hbinds name).1 halike
  · rintro _ _ ⟨⟩
    exact ⟨_, _, hbody, rfl, hcall, rfl, Nat.lt_succ_self _, hgrown⟩
  · rw [← hcalled]
    exact h.output
  · rw [Store.size_child, hsize]
    omega
  · refine fun u u' hu => ⟨(h.apart u u' hu).1, ?_⟩
    have hmade := (h.relates.made u u' hu).1
    rintro _ _ ⟨⟩
    constructor
    · rintro rfl
      exact Nat.lt_irrefl _ hmade
    · rintro rfl
      exact absurd hmade (by simp)

end Veiling.Runs

/-! ## Evaluation -/

/-- Evaluation goes alike in two runs that differ at a site. -/
theorem Site.laws_runs (X : Site) (s : Stage) : (X.runs s).Laws where
  fresh := by
    rintro _ st st' f g ⟨κ, rfl, h⟩ hmakes
    obtain ⟨μ, hle, hμ, hidentity⟩ := h.identify
    -- nothing is being returned, as there is no `return`
    have hf : (f st.nextIdentity).isReturned = false := by
      cases hv : f st.nextIdentity with
      | returned i v =>
        have hlabel := hmakes.labelled st.nextIdentity
        rw [hv] at hlabel
        obtain rfl := Option.some.inj hlabel
        obtain ⟨sc, sc', e, veiled, hdiscreet, -⟩ := hmakes.markers _ v hv
        exact absurd rfl ((Node.returnFree_iff.1 hdiscreet.returnFree).1 e)
      | _ => rfl
    have hg : (f st.nextIdentity).isReturned = (g st'.nextIdentity).isReturned :=
      (hmakes.seems _ _).heads.isReturned_eq
    refine ⟨_, Matching.veiling_le hle fun _ => id, ⟨μ, rfl, hμ⟩, ?_, hf, hg.symm.trans hf⟩
    show Option.Rel _ (f _).identity? (g _).identity?
    rw [hmakes.labelled, hmakes.labelled']
    exact .some hidentity
  lookup := by
    rintro _ st st' sc sc' name ⟨κ, rfl, h⟩ ⟨veiled, hdiscreet, hplace⟩
    refine h.lookup name (hplace.imp And.left And.left) fun hveiled hname => ?_
    exact (Node.avoids_iff.1 (hdiscreet.avoids hveiled)).1 name hname rfl
  define := by
    rintro _ st st' sc sc' name e v v' ⟨κ, rfl, h⟩ ⟨veiled, -, hplace⟩ hv
    refine ⟨κ, rfl, ?_⟩
    rcases hplace with ⟨hsc, hnew, hnew'⟩ | ⟨⟨rfl, hat⟩, htakes⟩
    · exact h.define hsc.1 hnew hnew' name hv
    · rcases htakes.sort with hsort | hsort | ⟨rfl, -⟩
      · cases hsort
      · cases hsort
      · exact h.defineInside hat (htakes.binds name e rfl) hv
  block := by
    rintro _ st st' sc sc' ss ⟨κ, rfl, h⟩ ⟨veiled, hdiscreet, hplace⟩
    obtain ⟨μ, hle, hμ, hnew⟩ := h.child (hplace.imp And.left And.left) .nil
    refine ⟨_, Matching.veiling_le hle fun _ => id, ⟨μ, rfl, hμ⟩, fun n hn => ?_⟩
    exact ⟨veiled, hdiscreet.child (by simpa [Node.children] using hn),
      .inl ⟨hnew, h.grown, h.grown'⟩⟩
  body := by
    rintro _ st st' sc sc' ps body args args' ⟨κ, rfl, h⟩ ⟨veiled, hdiscreet, hsc⟩ hargs -
    obtain ⟨μ, hle, hμ, hnew⟩ := h.child hsc (bindParams_alike hargs ps)
    refine ⟨_, Matching.veiling_le hle fun _ => id, ⟨μ, rfl, hμ⟩, veiled, hdiscreet, ?_⟩
    exact .inl ⟨hnew, h.grown, h.grown'⟩
  printLine := by
    rintro _ st st' line ⟨κ, rfl, h⟩
    refine ⟨κ, rfl, ⟨h.relates.made, h.relates.handedOut, h.relates.frames⟩, ?_, ?_, h.grown,
      h.outer, h.apart⟩
    · exact h.here.of_frames (fun _ _ => id) (fun _ _ _ => id) fun _ _ _ => id
    · simp [Store.printLine, h.output]

end Monkey
