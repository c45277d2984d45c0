import Monkey.Proofs.ChildByChild
import Monkey.Proofs.SortSafety

/-!
# What a rewriting is handed

A rewriting may keep a state, so that it matters which trees it is handed, and in which
order. It is handed every tree inside the tree that is rebuilt once, each behind those
inside it and from left to right, with the answers for its children in place of the
children. Trees that it has answered it is not handed again.

The exchanges with a rewriting are read off a run in two steps. `Traversal` describes
them by the tree: those for the children of a tree, and then the one for the tree.
`Follows` describes them by their numbers: the exchange of a number belongs to the tree of
the same number.

## Main definitions

* `Exchange`, `Exchanges` — a call of a rewriting, and a run of calls.
* `recording` — a rewriting that records its calls.
* `Traversal` — the exchanges for the trees of a list.
* `Node.childPlaces`, `Follows` — which exchange belongs to which tree.

## Main results

* `Node.WellSorted.traversed` — what is handed in when the children of a tree are rebuilt.
* `Traversal.follows` — the exchanges follow the trees inside.
* `Node.rebuildM_visits` — every tree is handed in once, behind those inside it.
-/

namespace Monkey

/-! ## Exchanges -/

/-- A call of a rewriting: the tree that it is given, and the tree that it answers. -/
structure Exchange where
  given : Node
  answer : Node

section
variable {σ : Type} (f : Node → StateM σ Node)

/-- From one state on and up to another, the rewriting is given some trees one after another, and
answers as it is said. -/
inductive Exchanges : σ → List Exchange → σ → Prop where
  | nil {s : σ} : Exchanges s [] s
  | cons {s s' s'' : σ} {x : Exchange} {xs : List Exchange} :
    (f x.given).run s = (x.answer, s') → Exchanges s' xs s'' → Exchanges s (x :: xs) s''

variable {f}

theorem Exchanges.append {s s' s'' : σ} {xs ys : List Exchange} (h : Exchanges f s xs s')
    (h' : Exchanges f s' ys s'') : Exchanges f s (xs ++ ys) s'' := by
  induction h with
  | nil => exact h'
  | cons hx _ ih => exact .cons hx (ih h')

/-- The rewriting, with a record of its exchanges in its state. -/
def recording (f : Node → StateM σ Node) (n : Node) : StateM (σ × List Exchange) Node := do
  let (s, record) ← get
  let (answer, s') := (f n).run s
  set (s', record ++ [⟨n, answer⟩])
  return answer

theorem run_recording {n answer : Node} {s s' : σ} (h : (f n).run s = (answer, s'))
    (record : List Exchange) :
    (recording f n).run (s, record) = (answer, s', record ++ [⟨n, answer⟩]) := by
  show ((f n).run s |>.1, (f n).run s |>.2, record ++ [⟨n, ((f n).run s).1⟩]) = _
  rw [h]

end

/-! ## Along a tree -/

/-- The exchanges for the trees of a list, and what the trees are rebuilt to. The children of a tree
come first; with the answers for them the tree is handed in, and its answer is checked. An answer
that does not suit is the last. -/
inductive Traversal : List Node → List Exchange → Except SortError (List Node) → Prop where
  | nil : Traversal [] [] (.ok [])
  | inside {n : Node} {ns : List Node} {xs : List Exchange} {e : SortError} :
    Traversal n.children xs (.error e) → Traversal (n :: ns) xs (.error e)
  | refused {n g answer : Node} {ns : List Node} {xs : List Exchange} :
    Traversal n.children xs (.ok g.children) → n.Lifts (fun _ _ => True) g →
    n.suits answer = false → Traversal (n :: ns) (xs ++ [⟨g, answer⟩]) (.error (n.refusal answer))
  | accepted {n g answer : Node} {ns : List Node} {xs ys : List Exchange}
    {r : Except SortError (List Node)} :
    Traversal n.children xs (.ok g.children) → n.Lifts (fun _ _ => True) g →
    n.suits answer = true → Traversal ns ys r →
    Traversal (n :: ns) (xs ++ ⟨g, answer⟩ :: ys) (r.map (answer :: ·))

/-- What trees are rebuilt to suits their places. -/
theorem Traversal.suits {ns : List Node} {xs : List Exchange} {r : Except SortError (List Node)}
    (h : Traversal ns xs r) (answers : List Node) (hr : r = .ok answers) :
    Pointwise (fun c c' => c.suits c' = true) ns answers := by
  induction h generalizing answers with
  | nil =>
    cases hr
    exact .nil
  | inside | refused => cases hr
  | @accepted n g answer ns xs ys r _ _ hsuits _ _ ih =>
    cases r with
    | error e => cases hr
    | ok more =>
      cases hr
      exact .cons hsuits (ih more rfl)

section
variable {σ : Type} {f : Node → StateM σ Node}

/-- A run that may stop early goes on from where it has come, or stops there. -/
theorem run_bind {α β : Type} (x : ExceptT SortError (StateM σ) α)
    (k : α → ExceptT SortError (StateM σ) β) (s : σ) :
    (x >>= k).run.run s =
      match x.run.run s with
      | (.ok a, s') => (k a).run.run s'
      | (.error e, s') => (.error e, s') := by
  rw [ExceptT.run_bind, StateT.run_bind]
  show (match x.run.run s with | (r, s') => _) = _
  obtain ⟨r, s'⟩ := x.run.run s
  cases r <;> rfl

theorem run_liftM {n answer : Node} {s s' : σ} (h : (f n).run s = (answer, s')) :
    (liftM (f n) : ExceptT SortError (StateM σ) Node).run.run s = (.ok answer, s') := by
  show StateT.run (Except.ok <$> f n) s = _
  rw [StateT.run_map, h]
  rfl

theorem run_liftExcept {α : Type} (r : Except SortError α) (s : σ) :
    (liftM r : ExceptT SortError (StateM σ) α).run.run s = (r, s) := rfl

/-- The exchanges up to the one with a tree, and what is answered there, or why it does not come
to that. -/
inductive Handing (n : Node) : List Exchange → Except SortError Node → Prop where
  | inside {xs : List Exchange} {e : SortError} :
    Traversal n.children xs (.error e) → Handing n xs (.error e)
  | called {g answer : Node} {xs : List Exchange} :
    Traversal n.children xs (.ok g.children) → n.Lifts (fun _ _ => True) g →
    Handing n (xs ++ [⟨g, answer⟩]) (.ok answer)

/-- In whatever state, the trees of a list are rebuilt in a traversal of them, which is what
a recording rewriting records. -/
def Traversed (f : Node → StateM σ Node) (ns : List Node) : Prop :=
  ∀ s record, ∃ xs r s', Exchanges f s xs s' ∧ Traversal ns xs r ∧
    (ns.mapM (Node.rebuildChild f)).run.run s = (r, s') ∧
    (ns.mapM (Node.rebuildChild (recording f))).run.run (s, record) = (r, s', record ++ xs)

theorem Traversed.nil : Traversed f [] := fun s record =>
  ⟨[], .ok [], s, .nil, .nil, rfl, by rw [List.append_nil]; rfl⟩

/-- Once its children are rebuilt, a tree is handed in with what they have been rebuilt to. -/
theorem Traversed.handing {n : Node} (hn : n.WellSorted) (hchildren : Traversed f n.children)
    (s : σ) (record : List Exchange) : ∃ xs r s', Exchanges f s xs s' ∧ Handing n xs r ∧
      (n.handIn f).run.run s = (r, s') ∧
      (n.handIn (recording f)).run.run (s, record) = (r, s', record ++ xs) := by
  obtain ⟨xs, r, s', hxs, hinside, hrun, hrecord⟩ := hchildren s record
  cases r with
  | error e =>
    refine ⟨xs, .error e, s', hxs, .inside hinside, ?_, ?_⟩
    · rw [Node.handIn, run_bind, hrun]
    · rw [Node.handIn, run_bind, hrecord]
  | ok parts =>
    obtain ⟨hlifts, hparts⟩ := Node.lifts_withChildren hn (hinside.suits parts rfl)
    rw [← hparts] at hinside
    rcases hanswer : (f (n.withChildren parts)).run s' with ⟨answer, s''⟩
    refine ⟨_, _, s'', hxs.append (.cons hanswer .nil), .called hinside hlifts, ?_, ?_⟩
    · rw [Node.handIn, run_bind, hrun]
      exact run_liftM hanswer
    · rw [Node.handIn, run_bind, hrecord, ← List.append_assoc]
      exact run_liftM (run_recording hanswer _)

/-- With a tree the traversal goes on, once it has been through the children. -/
theorem Traversed.cons {n : Node} {ns : List Node} (hn : n.WellSorted)
    (hchildren : Traversed f n.children) (hrest : Traversed f ns) : Traversed f (n :: ns) := by
  intro s record
  obtain ⟨xs, r, s', hxs, hhanding, hrun, hrecord⟩ := hchildren.handing hn s record
  simp only [List.mapM_cons, Node.rebuildChild_eq _ hn, bind_assoc, run_bind, hrun, hrecord]
  cases hhanding with
  | inside hinside => exact ⟨xs, _, s', hxs, .inside hinside, rfl, rfl⟩
  | @called g answer xs hinside hlifts =>
    dsimp only
    -- The answer for the tree is checked before anything behind the tree is looked at.
    cases hsuits : n.suits answer with
    | false =>
      have haccept : n.accept answer = .error (n.refusal answer) := by simp [Node.accept, hsuits]
      rw [haccept]
      exact ⟨_, _, s', hxs, .refused hinside hlifts hsuits, rfl, rfl⟩
    | true =>
      have haccept : n.accept answer = .ok answer := by simp [Node.accept, hsuits]
      obtain ⟨ys, r, s'', hys, hmore, hrun, hrecord⟩ := hrest s' (record ++ (xs ++ [⟨g, answer⟩]))
      have hboth := hxs.append hys
      rw [List.append_assoc] at hboth hrecord
      rw [List.append_assoc] at hrecord
      simp only [haccept, run_liftExcept, hrun, hrecord]
      refine ⟨_, _, s'', hboth, .accepted hinside hlifts hsuits hmore, ?_, ?_⟩ <;>
        cases r <;> rfl

/-- The children of a well-sorted tree are rebuilt in a traversal of them. -/
theorem Node.WellSorted.traversed {n : Node} (hn : n.WellSorted) : Traversed f n.children := by
  induction n using Node.child_induction with
  | h n ih =>
    -- Rebuilding the children of a child is what the induction is about, and it goes on along lists.
    have hlist : ∀ cs : List Node, (∀ c ∈ cs, c ∈ n.children) → Traversed f cs := by
      intro cs hcs
      induction cs with
      | nil => exact .nil
      | cons c cs ihcs =>
        obtain ⟨hc, hcs⟩ := List.forall_mem_cons.1 hcs
        exact .cons (hn.child hc) (ih c hc (hn.child hc)) (ihcs hcs)
    exact hlist n.children fun _ hc => hc

end

/-! ## Which exchange belongs to which tree -/

namespace Node

/-- The trees inside a tree other than itself. -/
def inside (n : Node) : List Node := n.children.flatMap subtrees

theorem subtrees_eq_inside (n : Node) : n.subtrees = n.inside ++ [n] := n.subtrees_eq

theorem length_subtrees (n : Node) : n.subtrees.length = n.inside.length + 1 := by
  simp [subtrees_eq_inside]

/-- The numbers of some trees among all trees inside them, which are counted from `start` on. -/
def places (start : Nat) : List Node → List Nat
  | [] => []
  | n :: ns => (start + n.inside.length) :: places (start + n.subtrees.length) ns

/-- The numbers of the children of a tree that has the number `i`. -/
def childPlaces (n : Node) (i : Nat) : List Nat := places (i - n.inside.length) n.children

theorem places_add (k start : Nat) (ns : List Node) :
    places (k + start) ns = (places start ns).map (k + ·) := by
  induction ns generalizing start with
  | nil => rfl
  | cons n ns ih => rw [places, places, List.map_cons, Nat.add_assoc, Nat.add_assoc, ih]

/-- A tree has its number behind those inside it. -/
theorem getElem?_places (before ns : List Node) :
    (places before.length ns).map ((before ++ ns.flatMap subtrees)[·]?) = ns.map some := by
  induction ns generalizing before with
  | nil => rfl
  | cons n ns ih =>
    have hrest := ih (before ++ n.subtrees)
    rw [List.length_append, List.append_assoc] at hrest
    rw [places, List.flatMap_cons, List.map_cons, hrest, subtrees_eq_inside]
    simp
end Node

namespace Traversal
variable {ns answers : List Node} {xs : List Exchange} {r : Except SortError (List Node)}

/-- There are no more exchanges than trees, -/
theorem length_le (h : Traversal ns xs r) : xs.length ≤ (ns.flatMap Node.subtrees).length := by
  induction h with
  | nil => exact Nat.le_refl 0
  | inside _ ih =>
    rw [List.flatMap_cons, List.length_append, Node.length_subtrees, Node.inside]
    omega
  | refused _ _ _ ih =>
    rw [List.flatMap_cons, List.length_append, List.length_append, Node.length_subtrees,
      Node.inside, List.length_singleton]
    omega
  | accepted _ _ _ _ ih ih' =>
    rw [List.flatMap_cons, List.length_append, List.length_append, Node.length_subtrees,
      Node.inside, List.length_cons]
    omega

/-- and as many if all are answered. -/
theorem length_eq (h : Traversal ns xs (.ok answers)) :
    xs.length = (ns.flatMap Node.subtrees).length := by
  generalize hr : Except.ok answers = r at h
  induction h generalizing answers with
  | nil => rfl
  | inside | refused => cases hr
  | @accepted n g answer ns xs ys r _ _ _ _ ih ih' =>
    cases r with
    | error e => cases hr
    | ok more =>
      rw [List.flatMap_cons, List.length_append, List.length_append, Node.length_subtrees,
        Node.inside, List.length_cons, ih rfl, ih' rfl]
      omega

/-- What a tree is rebuilt to has its number among the answers. -/
theorem getElem?_places (h : Traversal ns xs (.ok answers)) (before : List Node) :
    (Node.places before.length ns).map ((before ++ xs.map Exchange.answer)[·]?) =
      answers.map some := by
  generalize hr : Except.ok answers = r at h
  induction h generalizing answers before with
  | nil =>
    cases hr
    rfl
  | inside | refused => cases hr
  | @accepted n g answer ns xs ys r hinside _ _ _ _ ih =>
    cases r with
    | error e => cases hr
    | ok more =>
      cases hr
      have hlength : n.inside.length = xs.length := hinside.length_eq.symm
      -- What comes behind the tree is counted on from its exchanges.
      have hrest := ih (before ++ (xs.map Exchange.answer ++ [answer])) rfl
      have hlong : (before ++ (xs.map Exchange.answer ++ [answer])).length =
          before.length + n.subtrees.length := by
        simp [Node.length_subtrees, hlength]
      have hlist : before ++ (xs ++ ⟨g, answer⟩ :: ys).map Exchange.answer =
          before ++ (xs.map Exchange.answer ++ [answer]) ++ ys.map Exchange.answer := by
        simp
      rw [hlong] at hrest
      rw [hlist, Node.places, List.map_cons, hrest, hlength]
      simp

end Traversal

/-- The exchange `x` belongs to the tree `t`, and both have the number `i`: what is given is the
same construct as `t`, with the answers for the children of `t` for its children. -/
structure Handed (ts : List Node) (xs : List Exchange) (i : Nat) (t : Node) (x : Exchange) :
    Prop where
  construct : t.Lifts (fun _ _ => True) x.given
  room : t.inside.length ≤ i
  children : (t.childPlaces i).map (ts[·]?) = t.children.map some
  answers : (t.childPlaces i).map ((xs.map Exchange.answer)[·]?) = x.given.children.map some

/-- The exchange of a number belongs to the tree of that number. -/
def Follows (ts : List Node) (xs : List Exchange) : Prop :=
  ∀ i t x, ts[i]? = some t → xs[i]? = some x → Handed ts xs i t x

/-- What is found in a list is found there in a longer one. -/
theorem map_getElem?_append {α : Type} {as bs picked : List α} {places : List Nat}
    (h : places.map (as[·]?) = picked.map some) :
    places.map ((as ++ bs)[·]?) = picked.map some := by
  rw [← h]
  refine List.map_congr_left fun i hi => ?_
  obtain ⟨a, -, ha⟩ := List.mem_map.1 (h ▸ List.mem_map_of_mem hi)
  exact List.getElem?_append_left (List.getElem?_eq_some_iff.1 ha.symm).1

/-- What is found in a list is found further on behind another. -/
theorem map_getElem?_behind {α : Type} (as bs : List α) (places : List Nat) :
    (places.map (as.length + ·)).map ((as ++ bs)[·]?) = places.map (bs[·]?) := by
  rw [List.map_map]
  refine List.map_congr_left fun i _ => ?_
  show (as ++ bs)[as.length + i]? = bs[i]?
  rw [List.getElem?_append_right (Nat.le_add_right ..), Nat.add_sub_cancel_left]

section
variable {ts us : List Node} {xs ys : List Exchange} {i : Nat} {t : Node} {x : Exchange}

/-- With as many exchanges as trees in front, a tree and an exchange of the same number are both in
front or both behind. -/
theorem front_or_behind (hlength : xs.length = ts.length) (ht : (ts ++ us)[i]? = some t)
    (hx : (xs ++ ys)[i]? = some x) :
    (ts[i]? = some t ∧ xs[i]? = some x) ∨
      ∃ j, i = ts.length + j ∧ us[j]? = some t ∧ ys[j]? = some x := by
  by_cases hi : i < ts.length
  · rw [List.getElem?_append_left hi] at ht
    rw [List.getElem?_append_left (by omega)] at hx
    exact .inl ⟨ht, hx⟩
  · obtain ⟨j, rfl⟩ := Nat.exists_eq_add_of_le (Nat.le_of_not_lt hi)
    rw [List.getElem?_append_right (by omega), Nat.add_sub_cancel_left] at ht
    rw [List.getElem?_append_right (by omega), hlength, Nat.add_sub_cancel_left] at hx
    exact .inr ⟨j, rfl, ht, hx⟩

/-- With no more exchanges than trees in front, the tree of an exchange is in front. -/
theorem front_of_le (hle : xs.length ≤ ts.length) (ht : (ts ++ us)[i]? = some t)
    (hx : xs[i]? = some x) : ts[i]? = some t := by
  have hlt : i < xs.length := (List.getElem?_eq_some_iff.1 hx).1
  rwa [List.getElem?_append_left (Nat.lt_of_lt_of_le hlt hle)] at ht

theorem Handed.append_right (h : Handed ts xs i t x) : Handed (ts ++ us) (xs ++ ys) i t x where
  construct := h.construct
  room := h.room
  children := map_getElem?_append h.children
  answers := by
    rw [List.map_append]
    exact map_getElem?_append h.answers

theorem Handed.append_left (h : Handed us ys i t x) (hlength : xs.length = ts.length) :
    Handed (ts ++ us) (xs ++ ys) (ts.length + i) t x := by
  have hroom := h.room
  have hplaces : t.childPlaces (ts.length + i) = (t.childPlaces i).map (ts.length + ·) := by
    rw [Node.childPlaces, Node.childPlaces, Nat.add_sub_assoc hroom, Node.places_add]
  have hanswers : ts.length = (xs.map Exchange.answer).length := by simp [hlength]
  refine ⟨h.construct, Nat.le_add_left_of_le hroom, ?_, ?_⟩
  · rw [hplaces, map_getElem?_behind, h.children]
  · rw [hplaces, List.map_append, hanswers, map_getElem?_behind, h.answers]

theorem Follows.append_right (h : Follows ts xs) (hle : xs.length ≤ ts.length) :
    Follows (ts ++ us) xs := by
  intro i t x ht hx
  have hhanded : Handed (ts ++ us) (xs ++ []) i t x :=
    (h i t x (front_of_le hle ht hx) hx).append_right
  rwa [List.append_nil] at hhanded

theorem Follows.append (h : Follows ts xs) (hlength : xs.length = ts.length) (h' : Follows us ys) :
    Follows (ts ++ us) (xs ++ ys) := by
  intro i t x ht hx
  rcases front_or_behind hlength ht hx with ⟨ht, hx⟩ | ⟨j, rfl, ht, hx⟩
  · exact (h i t x ht hx).append_right
  · exact (h' j t x ht hx).append_left hlength

/-- One more exchange, for one more tree. -/
theorem Follows.snoc (h : Follows ts xs) (hlength : xs.length = ts.length)
    (hx : Handed ts xs ts.length t x) : Follows (ts ++ [t]) (xs ++ [x]) := by
  intro i t' x' ht' hx'
  rcases front_or_behind hlength ht' hx' with ⟨ht', hx'⟩ | ⟨j, rfl, ht', hx'⟩
  · exact (h i t' x' ht' hx').append_right
  · obtain ⟨rfl, rfl⟩ : j = 0 ∧ t = t' := by simpa [List.getElem?_singleton] using ht'
    obtain rfl : x = x' := by simpa using hx'
    exact hx.append_right

end

namespace Traversal
variable {n g answer : Node} {ns : List Node} {xs : List Exchange}
  {r : Except SortError (List Node)}

/-- What is handed in for a tree behind its children belongs to it. -/
theorem handed (h : Traversal n.children xs (.ok g.children)) (hg : n.Lifts (fun _ _ => True) g) :
    Handed n.inside xs n.inside.length n ⟨g, answer⟩ where
  construct := hg
  room := Nat.le_refl _
  children := by
    rw [Node.childPlaces, Nat.sub_self]
    exact Node.getElem?_places [] n.children
  answers := by
    rw [Node.childPlaces, Nat.sub_self]
    exact h.getElem?_places []

theorem follows_snoc (h : Traversal n.children xs (.ok g.children))
    (hg : n.Lifts (fun _ _ => True) g) (hf : Follows n.inside xs) :
    Follows n.subtrees (xs ++ [⟨g, answer⟩]) := by
  rw [Node.subtrees_eq_inside]
  exact hf.snoc h.length_eq (h.handed hg)

theorem length_snoc (h : Traversal n.children xs (.ok g.children)) (x : Exchange) :
    (xs ++ [x]).length = n.subtrees.length := by
  rw [List.length_append, h.length_eq, Node.length_subtrees]
  rfl

/-- The exchanges follow the trees inside. -/
theorem follows (h : Traversal ns xs r) : Follows (ns.flatMap Node.subtrees) xs := by
  induction h with
  | nil => exact fun _ _ _ ht => by simp at ht
  | @inside n ns xs e hinside ih =>
    rw [List.flatMap_cons, Node.subtrees_eq_inside, List.append_assoc]
    exact ih.append_right hinside.length_le
  | refused hinside hlifts _ ih =>
    rw [List.flatMap_cons]
    exact (hinside.follows_snoc hlifts ih).append_right (Nat.le_of_eq (hinside.length_snoc _))
  | @accepted n g answer ns xs ys r hinside hlifts _ _ ih ih' =>
    rw [List.flatMap_cons, ← List.singleton_append, ← List.append_assoc]
    exact (hinside.follows_snoc hlifts ih).append (hinside.length_snoc _) ih'

end Traversal

namespace Handing
variable {n answer : Node} {xs : List Exchange} {r : Except SortError Node}

theorem follows (h : Handing n xs r) : Follows n.subtrees xs := by
  cases h with
  | inside hinside =>
    rw [Node.subtrees_eq_inside]
    exact hinside.follows.append_right hinside.length_le
  | called hinside hlifts => exact hinside.follows_snoc hlifts hinside.follows

/-- If it comes to the call with a tree, there are as many exchanges as trees inside it, and the
last answer is that for the tree. -/
theorem length_eq (h : Handing n xs (.ok answer)) : xs.length = n.subtrees.length := by
  cases h with
  | called hinside _ => exact hinside.length_snoc _

theorem getLast? (h : Handing n xs (.ok answer)) :
    xs.getLast?.map Exchange.answer = some answer := by
  cases h with
  | called => simp

end Handing

/-! ## Rebuilding -/

/-- Whatever state a computation starts in, its answer is as it should be. -/
def Judgement.always (σ : Type) : Judgement (StateM σ) where
  holds x post := ∀ s, post (x.run s).1
  pure h _ := h
  bind hx hf s := by
    rw [StateT.run_bind]
    exact hf _ (hx s) _
  mono hx h s := h _ (hx s)

/-- A computation leaves a store as it is. -/
def Judgement.still (depth : Nat) (st : Store) : Judgement Computation where
  holds x post := ∃ a, x.outcome evalRule depth st = ⟨.ok a, st⟩ ∧ post a
  pure h := ⟨_, rfl, h⟩
  bind := by
    rintro α β x f mid post ⟨a, hx, ha⟩ hf
    obtain ⟨b, hb, hpost⟩ := hf a ha
    refine ⟨b, ?_, hpost⟩
    rw [Computation.outcome_bind, hx]
    exact hb
  mono := by
    rintro α x mid post ⟨a, hx, ha⟩ h
    exact ⟨a, hx, h a ha⟩

namespace Node
variable {n : Node}

/-- The exchanges when a tree is rebuilt. -/
theorem WellSorted.exists_handing (hn : n.WellSorted) {σ : Type} (f : Node → StateM σ Node)
    (s : σ) : ∃ xs r s', Exchanges f s xs s' ∧ Handing n xs r ∧
      (n.rebuildM f).run.run s = (r >>= n.acceptRoot, s') ∧
      (n.rebuildM (recording f)).run.run (s, []) = (r >>= n.acceptRoot, s', xs) := by
  obtain ⟨xs, r, s', hxs, hhanding, hrun, hrecord⟩ := hn.traversed.handing hn s []
  refine ⟨xs, r, s', hxs, hhanding, ?_, ?_⟩
  · rw [rebuildM_eq_root f hn, run_bind, hrun]
    cases r <;> rfl
  · rw [rebuildM_eq_root _ hn, run_bind, hrecord]
    cases r <;> rfl

theorem eq_of_acceptRoot {answer n' : Node} (h : n.acceptRoot answer = .ok n') : answer = n' := by
  unfold acceptRoot accept at h
  split at h
  · split at h
    · exact Except.ok.inj h
    · cases h
  · exact Except.ok.inj h

section
variable {sc : Scope} {depth : Nat} {st : Store}

/-- A tree that is no macro call is left alone, and so is the store. -/
theorem still_expandStep (h : ∀ name args, n = .call (.ident name) args →
    ∀ i params body inner, st.lookup name sc ≠ some (.macroFn i params body inner)) :
    ((Judgement.still depth st).except fun _ => False).holds (expandStep sc n) (· = n) := by
  unfold expandStep
  split
  · next name args =>
    have hfind : (Judgement.still depth st).holds (findMacro name sc) (· = none) := by
      refine ⟨_, Computation.outcome_reading .., ?_⟩
      split
      · next hmacro => exact absurd hmacro (h name args rfl _ _ _ _)
      · rfl
    refine Judgement.bind _ (Judgement.lift _ hfind) fun found hnone => ?_
    obtain rfl := hnone
    exact Judgement.pure _ rfl
  · exact Judgement.pure _ rfl

/-- A tree in which no macros are called is left as it is, and so is the store. -/
theorem still_expandMacros (hn : n.WellSorted)
    (h : ∀ name args, .call (.ident name) args ∈ n.subtrees →
      ∀ i params body inner, st.lookup name sc ≠ some (.macroFn i params body inner)) :
    ((Judgement.still depth st).except fun _ => False).holds (expandMacros sc n) (· = n) := by
  have hstep : ∀ t ∈ n.subtrees,
      ((Judgement.still depth st).except fun _ => False).holds (expandStep sc t) (· = t) :=
    fun t ht => still_expandStep fun name args hcall => h name args (hcall ▸ ht)
  refine Judgement.bind _ (Judgement.rebuild_self hn hstep) fun r hr => ?_
  rw [hr.eq_ok]
  exact Judgement.pure _ rfl

end

/-- Every tree inside a well-sorted tree is handed to a rewriting once, behind those inside it
and from left to right, with the answers for its children; and what the rewriting answers for the
tree itself, the tree is rebuilt to. So a rewriting that answers with what it is given rebuilds the
tree to itself, as replacing macro calls does where no macros are called. -/
theorem rebuildM_visits (hn : n.WellSorted) :
    (∀ (σ : Type) (f : Node → StateM σ Node) (s s' : σ) (n' : Node),
      (n.rebuildM f).run.run s = (.ok n', s') →
      ∃ xs, (n.rebuildM (recording f)).run.run (s, []) = (.ok n', s', xs) ∧ Exchanges f s xs s' ∧
        xs.length = n.subtrees.length ∧ Follows n.subtrees xs ∧
        xs.getLast?.map Exchange.answer = some n') ∧
    (∀ (σ : Type) (f : Node → StateM σ Node), (∀ t ∈ n.subtrees, ∀ s, ((f t).run s).1 = t) →
      ∀ s, ((n.rebuildM f).run.run s).1 = .ok n) ∧
    ∀ (sc : Scope) (depth : Nat) (st : Store),
      (∀ name args, .call (.ident name) args ∈ n.subtrees → ∀ i params body inner,
        st.lookup name sc ≠ some (.macroFn i params body inner)) →
      (expandMacros sc n).run.outcome evalRule depth st = ⟨.ok (.ok n), st⟩ := by
  refine ⟨fun σ f s s' n' hok => ?_, fun σ f hf s => ?_, fun sc depth st hcalls => ?_⟩
  · obtain ⟨xs, r, s₁, hxs, hhanding, hrun, hrecord⟩ := hn.exists_handing f s
    obtain ⟨hr, rfl⟩ := Prod.mk.inj (hrun.symm.trans hok)
    rw [hr] at hrecord
    cases r with
    | error e => cases hr
    | ok answer =>
      obtain rfl : answer = n' := eq_of_acceptRoot hr
      exact ⟨xs, hrecord, hxs, hhanding.length_eq, hhanding.follows, hhanding.getLast?⟩
  · exact (Judgement.rebuild_self (J := Judgement.always σ) hn hf s).eq_ok
  · obtain ⟨r, hr, hself⟩ :
        ((Judgement.still depth st).except fun _ => False).holds (expandMacros sc n) (· = n) :=
      still_expandMacros hn hcalls
    rw [hr, hself.eq_ok]

/-- In `f(1) * 2;` there are seven trees. A rewriting that answers a sum for a number is given each
of them, and none of the sums. -/
theorem rebuildM_visits_product :
    let sum : Node → Node := fun n => .infixOp n "+" n
    let tree : Node := .program [.exprStmt (.infixOp (.call (.ident "f") [.int 1]) "*" (.int 2))]
    let f : Node → StateM Nat Node := fun n calls =>
      (match n with
        | .int k => sum (.int k)
        | n => n, calls + 1)
    let keep : Node → StateM Nat Node := fun n calls => (n, calls + 1)
    let product : Node := .infixOp (.call (.ident "f") [sum (.int 1)]) "*" (sum (.int 2))
    (∃ xs, Exchanges f 0 xs 7 ∧ xs.map Exchange.given = [.ident "f", .int 1,
        .call (.ident "f") [sum (.int 1)], .int 2, product, .exprStmt product,
        .program [.exprStmt product]] ∧ Follows tree.subtrees xs) ∧
    ((tree.rebuildM keep).run.run 0).1 = .ok tree ∧
    (expandMacros ⟨0⟩ tree).run.outcome evalRule 9 .empty = ⟨.ok (.ok tree), .empty⟩ := by
  intro sum tree f keep product
  have hsorted : tree.WellSorted := by decide
  refine ⟨?_, ?_, ?_⟩
  · obtain ⟨xs, hrecord, hxs, -, hfollows, -⟩ := (rebuildM_visits hsorted).1 Nat f 0 _ _ rfl
    exact ⟨xs, hxs, (congrArg (fun o => o.2.2.map Exchange.given) hrecord).symm, hfollows⟩
  · exact (rebuildM_visits hsorted).2.1 Nat keep (fun _ _ _ => rfl) 0
  · refine (rebuildM_visits hsorted).2.2 ⟨0⟩ 9 .empty fun name args _ i params body inner => ?_
    rw [Store.lookup]
    simp [Store.frame?, Store.empty]

end Node
end Monkey
