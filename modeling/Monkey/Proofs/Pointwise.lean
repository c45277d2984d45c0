import Monkey.Table

/-!
# Lists and tables related member by member

Two lists of the same length with related members, and two tables that hold
related things for the same keys. What is done to one list or table and in the same
way to the other leaves related ones.
-/

namespace Monkey

/-- Both came to answers, which are related, or were stopped with related things. -/
inductive Both {ε ε' α β : Type} (stop : ε → ε' → Prop) (post : α → β → Prop) :
    Except ε α → Except ε' β → Prop where
  | ok {a : α} {b : β} : post a b → Both stop post (.ok a) (.ok b)
  | error {e : ε} {e' : ε'} : stop e e' → Both stop post (.error e) (.error e')

namespace Both
variable {ε ε' α β : Type} {stop : ε → ε' → Prop} {post post' : α → β → Prop}

theorem mono {r : Except ε α} {r' : Except ε' β} (h : Both stop post r r')
    (hpost : ∀ a b, post a b → post' a b) : Both stop post' r r' := by
  cases h with
  | ok hab => exact .ok (hpost _ _ hab)
  | error he => exact .error he

theorem map {γ δ : Type} {f : α → γ} {g : β → δ} {post' : γ → δ → Prop} {r : Except ε α}
    {r' : Except ε' β} (h : Both stop post r r') (hpost : ∀ a b, post a b → post' (f a) (g b)) :
    Both stop post' (r.map f) (r'.map g) := by
  cases h with
  | ok hab => exact .ok (hpost _ _ hab)
  | error he => exact .error he

theorem mapError {ζ : Type} {f : ε → ζ} {post : α → β → Prop} {r : Except ε α} {r' : Except ε β}
    (h : Both Eq post r r') : Both Eq post (r.mapError f) (r'.mapError f) := by
  cases h with
  | ok hab => exact .ok hab
  | error he => exact .error (congrArg f he)

theorem exists_right {a : α} {r' : Except ε' β} (h : Both stop post (.ok a) r') :
    ∃ b, r' = .ok b ∧ post a b := by
  cases h with
  | ok hab => exact ⟨_, rfl, hab⟩

end Both

theorem exists_of_rel_some {α β : Type} {R : α → β → Prop} {a : α} {o : Option β}
    (h : Option.Rel R (some a) o) : ∃ b, o = some b ∧ R a b := by
  cases h with
  | some hab => exact ⟨_, rfl, hab⟩

theorem rel_mono {α β : Type} {R S : α → β → Prop} {o : Option α} {o' : Option β}
    (h : Option.Rel R o o') (hRS : ∀ a b, R a b → S a b) : Option.Rel S o o' := by
  cases h with
  | none => exact .none
  | some hab => exact .some (hRS _ _ hab)

/-- Two lists of the same length with related members. -/
inductive Pointwise {α β : Type} (R : α → β → Prop) : List α → List β → Prop where
  | nil : Pointwise R [] []
  | cons {a : α} {b : β} {as : List α} {bs : List β} : R a b → Pointwise R as bs →
    Pointwise R (a :: as) (b :: bs)

namespace Pointwise
variable {α β : Type} {R : α → β → Prop} {as : List α} {bs : List β}

/-- Every member of the second list is related to one of the first. -/
theorem exists_left (h : Pointwise R as bs) : ∀ b ∈ bs, ∃ a ∈ as, R a b := by
  induction h with
  | nil => simp
  | cons hab _ ih =>
    refine List.forall_mem_cons.2 ⟨⟨_, List.mem_cons_self, hab⟩, fun b hb => ?_⟩
    obtain ⟨a, ha, hr⟩ := ih b hb
    exact ⟨a, List.mem_cons_of_mem _ ha, hr⟩

/-- Every member of the first list is related to one of the second. -/
theorem exists_right (h : Pointwise R as bs) : ∀ a ∈ as, ∃ b ∈ bs, R a b := by
  induction h with
  | nil => simp
  | cons hab _ ih =>
    refine List.forall_mem_cons.2 ⟨⟨_, List.mem_cons_self, hab⟩, fun a ha => ?_⟩
    obtain ⟨b, hb, hr⟩ := ih a ha
    exact ⟨b, List.mem_cons_of_mem _ hb, hr⟩

theorem length_eq (h : Pointwise R as bs) : bs.length = as.length := by
  induction h with
  | nil => rfl
  | cons _ _ ih => rw [List.length_cons, List.length_cons, ih]

theorem eq_map {f : α → β} (h : Pointwise R as bs) (hf : ∀ a b, R a b → b = f a) :
    bs = as.map f := by
  induction h with
  | nil => rfl
  | cons hab _ ih => rw [List.map_cons, hf _ _ hab, ih]

theorem iff_zip : Pointwise R as bs ↔
    as.length = bs.length ∧ ∀ a b, (a, b) ∈ as.zip bs → R a b := by
  constructor
  · intro h
    induction h with
    | nil => simp
    | cons hab _ ih =>
      refine ⟨by simp [ih.1], fun a b hmem => ?_⟩
      rcases List.mem_cons.1 hmem with heq | hmem
      · obtain ⟨rfl, rfl⟩ := Prod.mk.inj heq
        exact hab
      · exact ih.2 a b hmem
  · induction as generalizing bs with
    | nil =>
      rintro ⟨hlength, -⟩
      obtain rfl := List.eq_nil_of_length_eq_zero hlength.symm
      exact .nil
    | cons a as ih =>
      rintro ⟨hlength, h⟩
      cases bs with
      | nil => cases hlength
      | cons b bs =>
        refine .cons (h a b List.mem_cons_self) (ih ⟨by simpa using hlength, fun a b hmem => ?_⟩)
        exact h a b (List.mem_cons_of_mem _ hmem)

theorem mono {S : α → β → Prop} (h : Pointwise R as bs) (hRS : ∀ a b, R a b → S a b) :
    Pointwise S as bs := by
  induction h with
  | nil => exact .nil
  | cons hab _ ih => exact .cons (hRS _ _ hab) ih

theorem mono_of_mem {S : α → β → Prop} (h : Pointwise R as bs)
    (hRS : ∀ a ∈ as, ∀ b, R a b → S a b) : Pointwise S as bs := by
  induction h with
  | nil => exact .nil
  | cons hab _ ih =>
    exact .cons (hRS _ List.mem_cons_self _ hab) (ih fun a ha => hRS a (List.mem_cons_of_mem _ ha))

/-- If each member of the second list has a related thing, these make a list. -/
theorem exists_list {bs : List β} (h : ∀ b ∈ bs, ∃ a, R a b) : ∃ as, Pointwise R as bs := by
  induction bs with
  | nil => exact ⟨[], .nil⟩
  | cons b bs ih =>
    obtain ⟨a, hab⟩ := h b List.mem_cons_self
    obtain ⟨as, has⟩ := ih fun b hb => h b (List.mem_cons_of_mem _ hb)
    exact ⟨a :: as, .cons hab has⟩

theorem map_left {γ : Type} {S : γ → β → Prop} {f : α → γ} (h : Pointwise R as bs)
    (hRS : ∀ a b, R a b → S (f a) b) : Pointwise S (as.map f) bs := by
  induction h with
  | nil => exact .nil
  | cons hab _ ih => exact .cons (hRS _ _ hab) ih

theorem map_right {γ : Type} {S : α → γ → Prop} {f : β → γ} (h : Pointwise R as bs)
    (hRS : ∀ a b, R a b → S a (f b)) : Pointwise S as (bs.map f) := by
  induction h with
  | nil => exact .nil
  | cons hab _ ih => exact .cons (hRS _ _ hab) ih

theorem append {cs : List α} {ds : List β} (h : Pointwise R as bs) (h' : Pointwise R cs ds) :
    Pointwise R (as ++ cs) (bs ++ ds) := by
  induction h with
  | nil => exact h'
  | cons hab _ ih => exact .cons hab ih

theorem getElem? (h : Pointwise R as bs) (n : Nat) : Option.Rel R as[n]? bs[n]? := by
  induction h generalizing n with
  | nil => exact .none
  | cons hab _ ih =>
    cases n with
    | zero => exact .some hab
    | succ n => simpa using ih n

theorem getLast? (h : Pointwise R as bs) : Option.Rel R as.getLast? bs.getLast? := by
  rw [List.getLast?_eq_getElem?, List.getLast?_eq_getElem?, h.length_eq]
  exact h.getElem? _

theorem refl {R : α → α → Prop} {as : List α} (h : ∀ a ∈ as, R a a) : Pointwise R as as := by
  induction as with
  | nil => exact .nil
  | cons a as ih =>
    exact .cons (h a List.mem_cons_self) (ih fun a ha => h a (List.mem_cons_of_mem _ ha))

end Pointwise

namespace Table
variable {κ α β : Type} {R : α → β → Prop}

/-- Tables with the same keys in the same order, which hold related things for them. -/
abbrev Alike (R : α → β → Prop) : Table κ α → Table κ β → Prop :=
  Pointwise fun e e' => e.1 = e'.1 ∧ R e.2 e'.2

variable {t : Table κ α} {t' : Table κ β}

theorem Alike.keys_eq (h : Alike R t t') : keys t = keys t' := by
  induction h with
  | nil => rfl
  | @cons e e' t t' he _ ih =>
    show e.1 :: keys t = e'.1 :: keys t'
    rw [he.1, ih]

/-- Tables are related if their keys are the same and what they hold is related. -/
theorem alike_of_keys (hkeys : t.map Prod.fst = t'.map Prod.fst)
    (h : Pointwise R (t.map Prod.snd) (t'.map Prod.snd)) : Alike R t t' := by
  induction t generalizing t' with
  | nil =>
    obtain rfl := List.map_eq_nil_iff.1 hkeys.symm
    exact .nil
  | cons e t ih =>
    cases t' with
    | nil => cases hkeys
    | cons e' t' =>
      obtain ⟨hkey, hkeys⟩ := List.cons.inj hkeys
      cases h with
      | cons hhead htail => exact .cons ⟨hkey, hhead⟩ (ih hkeys htail)

theorem Alike.values (h : Alike R t t') : Pointwise R (t.map Prod.snd) (t'.map Prod.snd) := by
  induction h with
  | nil => exact .nil
  | cons he _ ih => exact .cons he.2 ih

theorem alike_zip {as : List α} {bs : List β} (keys : List κ) (h : Pointwise R as bs) :
    Alike R (keys.zip as) (keys.zip bs) := by
  induction h generalizing keys with
  | nil => cases keys <;> exact .nil
  | cons hab _ ih =>
    cases keys with
    | nil => exact .nil
    | cons key keys => exact .cons ⟨rfl, hab⟩ (ih keys)

variable [DecidableEq κ]

theorem Alike.find? (h : Alike R t t') (key : κ) : Option.Rel R (t.find? key) (t'.find? key) := by
  induction h with
  | nil => exact .none
  | @cons e e' t t' he _ ih =>
    obtain ⟨k, a⟩ := e
    obtain ⟨k', b⟩ := e'
    obtain ⟨rfl, hab⟩ : k = k' ∧ R a b := he
    unfold Table.find?
    split
    · exact .some hab
    · exact ih

theorem Alike.insert (h : Alike R t t') (key : κ) {a : α} {b : β} (hab : R a b) :
    Alike R (t.insert key a) (t'.insert key b) := by
  induction h with
  | nil => exact .cons ⟨rfl, hab⟩ .nil
  | @cons e e' t t' he ht ih =>
    obtain ⟨k, x⟩ := e
    obtain ⟨k', y⟩ := e'
    obtain ⟨rfl, hxy⟩ : k = k' ∧ R x y := he
    unfold Table.insert
    split
    · exact .cons ⟨rfl, hab⟩ ht
    · exact .cons ⟨rfl, hxy⟩ ih

theorem Alike.insertAll {entries : Table κ α} {entries' : Table κ β} (he : Alike R entries entries')
    (ht : Alike R t t') : Alike R (Table.insertAll entries t) (Table.insertAll entries' t') := by
  induction he generalizing t t' with
  | nil => exact ht
  | @cons e e' entries entries' hee _ ih =>
    obtain ⟨k, a⟩ := e
    obtain ⟨k', b⟩ := e'
    obtain ⟨rfl, hab⟩ : k = k' ∧ R a b := hee
    exact ih (ht.insert k hab)

end Table
end Monkey
