/-!
# Tables in order of first insertion

A table is a list of entries, at most one for each key when it is built by
`Table.insert` from the empty table. Writing to a key that is already there
keeps the entry's place and replaces what it holds, so a table lists its keys in
the order in which they were first written.

Frames bind names with tables, and hash values are tables.

## Main results

* `Table.find?_insert` — a key answers what was last written to it, and writing
  to one key changes no other.
* `Table.keys_insert` — writing appends the key if it is new, and leaves the
  order of keys alone otherwise.
* `Table.nodup_keys_insert` — no key comes twice in tables built by writing.
-/

namespace Monkey

/-- Entries in order of first insertion. -/
abbrev Table (κ α : Type) := List (κ × α)

namespace Table
variable {κ α : Type} [DecidableEq κ]

/-- What the table holds for a key. -/
def find? (key : κ) : Table κ α → Option α
  | [] => none
  | (k, a) :: t => if k = key then some a else find? key t

/-- Writes to a key: in place if the table has it, at the end if not. -/
def insert (key : κ) (value : α) : Table κ α → Table κ α
  | [] => [(key, value)]
  | (k, a) :: t => if k = key then (key, value) :: t else (k, a) :: insert key value t

/-- The keys of a table, in order. -/
def keys (t : Table κ α) : List κ := t.map Prod.fst

/-- Writes several entries, one after the other. -/
def insertAll (entries : List (κ × α)) (t : Table κ α) : Table κ α :=
  entries.foldl (fun t e => insert e.1 e.2 t) t

theorem find?_insert_self (key : κ) (value : α) (t : Table κ α) :
    find? key (insert key value t) = some value := by
  induction t with
  | nil => simp [insert, find?]
  | cons e t ih =>
    by_cases h : e.1 = key
    · simp [insert, find?, h]
    · simp [insert, find?, h, ih]

theorem find?_insert_ne {key other : κ} (value : α) (t : Table κ α) (h : other ≠ key) :
    find? other (insert key value t) = find? other t := by
  induction t with
  | nil => simp [insert, find?, h.symm]
  | cons e t ih =>
    by_cases hk : e.1 = key
    · simp [insert, find?, hk, h.symm]
    · simp [insert, find?, hk, ih]

theorem find?_insert (key other : κ) (value : α) (t : Table κ α) :
    find? other (insert key value t) = if other = key then some value else find? other t := by
  by_cases h : other = key
  · simp [h, find?_insert_self]
  · simp [h, find?_insert_ne value t h]

theorem keys_insert (key : κ) (value : α) (t : Table κ α) :
    keys (insert key value t) = if key ∈ keys t then keys t else keys t ++ [key] := by
  induction t with
  | nil => simp [insert, keys]
  | cons e t ih =>
    by_cases hk : e.1 = key
    · simp [insert, keys, hk]
    · simp only [keys] at ih
      by_cases hm : key ∈ t.map Prod.fst <;> simp_all [insert, keys, Ne.symm hk]

/-- Writing never makes a key come twice. -/
theorem nodup_keys_insert {key : κ} {value : α} {t : Table κ α} (h : (keys t).Nodup) :
    (keys (insert key value t)).Nodup := by
  rw [keys_insert]
  split
  · exact h
  · next hnew => exact List.nodup_append.2 ⟨h, by simp, fun k hk k' hk' heq => hnew (by simp_all)⟩

theorem mem_keys_iff {key : κ} {t : Table κ α} : key ∈ keys t ↔ (find? key t).isSome := by
  induction t with
  | nil => simp [keys, find?]
  | cons e t ih =>
    by_cases hk : e.1 = key
    · simp [keys, find?, hk]
    · simp only [keys] at ih
      simp [keys, find?, hk, Ne.symm hk, ih]

/-- Writing leaves only entries that were there and the one that is written. -/
theorem mem_of_mem_insert {key : κ} {value : α} {t : Table κ α} {e : κ × α}
    (h : e ∈ insert key value t) : e = (key, value) ∨ e ∈ t := by
  induction t with
  | nil => simpa [insert] using h
  | cons d t ih =>
    by_cases hk : d.1 = key
    · simp only [insert, hk, if_true, List.mem_cons] at h
      exact h.imp_right (List.mem_cons_of_mem d)
    · simp only [insert, hk, if_false, List.mem_cons] at h
      rcases h with rfl | h
      · exact .inr List.mem_cons_self
      · exact (ih h).imp_right (List.mem_cons_of_mem d)

theorem mem_of_find? {key : κ} {t : Table κ α} {a : α} (h : find? key t = some a) :
    (key, a) ∈ t := by
  induction t with
  | nil => cases h
  | cons d t ih =>
    by_cases hk : d.1 = key
    · simp only [find?, hk, if_true, Option.some.injEq] at h
      simp [← hk, ← h]
    · simp only [find?, hk, if_false] at h
      exact List.mem_cons_of_mem d (ih h)

/-- What holds of the entries written and of those that were there holds of all. -/
theorem forall_insertAll {P : α → Prop} {entries t : Table κ α} (he : ∀ e ∈ entries, P e.2)
    (ht : ∀ e ∈ t, P e.2) : ∀ e ∈ insertAll entries t, P e.2 := by
  induction entries generalizing t with
  | nil => exact ht
  | cons d entries ih =>
    refine ih (fun e h => he e (List.mem_cons_of_mem d h)) fun e h => ?_
    rcases mem_of_mem_insert h with rfl | h
    · exact he d List.mem_cons_self
    · exact ht e h

theorem insert_of_not_mem {key : κ} {t : Table κ α} (value : α) (h : key ∉ keys t) :
    insert key value t = t ++ [(key, value)] := by
  induction t with
  | nil => rfl
  | cons d t ih =>
    have hne : d.1 ≠ key := fun heq => h (by simp [keys, heq])
    have htail : key ∉ keys t := fun hmem => h (List.mem_cons_of_mem _ hmem)
    simp only [insert, hne, if_false, List.cons_append, ih htail]

/-- Entries with different keys, none of which is there already, are added as they are. -/
theorem insertAll_of_nodup {entries t : Table κ α} (hnodup : (keys entries).Nodup)
    (hnew : ∀ key ∈ keys entries, key ∉ keys t) : insertAll entries t = t ++ entries := by
  induction entries generalizing t with
  | nil => simp [insertAll]
  | cons d entries ih =>
    have hd : d.1 ∉ keys t := hnew d.1 List.mem_cons_self
    obtain ⟨hfirst, hrest⟩ := List.nodup_cons.1 hnodup
    have hnew' : ∀ key ∈ keys entries, key ∉ keys (t ++ [d]) := by
      intro key hkey
      have hne : key ≠ d.1 := fun heq => hfirst (heq ▸ hkey)
      have hold : key ∉ keys t := hnew key (List.mem_cons_of_mem _ hkey)
      simpa [keys] using ⟨by simpa [keys] using hold, hne⟩
    show insertAll entries (insert d.1 d.2 t) = t ++ d :: entries
    rw [insert_of_not_mem d.2 hd, ih hrest hnew', List.append_assoc]
    rfl

end Table
end Monkey
