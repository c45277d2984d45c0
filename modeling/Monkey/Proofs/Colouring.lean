import Monkey.Highlight
import Monkey.Proofs.Pointwise
import Monkey.Proofs.Terminals

/-!
# Nothing is lost in colours

The fragments in which a text is shown are the text, whatever is wrong with it. A line
is cut where its tokens start and end, and a token is shown in the style of its
group. What stands between tokens is layout and has no style. Where a line cannot be
read any further, all that stands behind its last token is one error.

`Depicts` says so of the rest of a line from some position on, which is what the
recursion over the tokens needs; `Shows` says it of whole lines.

## Main definitions

* `shown` — the text that fragments show.
* `Depicts`, `Shows` — fragments as they are to be for a text.

## Main results

* `depicts_fragments` — the fragments of what is read from a position on.
* `shows_line` — the fragments of a line.
* `document_lossless` — the fragments of all lines.
-/

namespace Monkey

/-- In front of the first token there is layout, and behind it the reading goes on. -/
theorem Lexer.Front.uncons {p q : Position} {cs rest : List Char} {t : Token} {ts : List Token}
    (h : Front p cs (t :: ts) q rest) : ∃ gap more, cs = gap ++ (t.text.toList ++ more) ∧
      (∀ d ∈ gap, isLayout d = true) ∧ t.start = p.after gap ∧
      t.finish = t.start.after t.text.toList ∧ Front t.finish more ts q rest := by
  generalize hall : t :: ts = all at h
  induction h with
  | done => cases hall
  | @layout p q c cs rest us hc _ ih =>
    obtain ⟨gap, more, rfl, hgap, hstart, hrest⟩ := ih hall
    exact ⟨c :: gap, more, rfl, List.forall_mem_cons.2 ⟨hc, hgap⟩, hstart, hrest⟩
  | @token p q c kind more middle rest us hc hscan hrest =>
    obtain ⟨rfl, rfl⟩ := List.cons.inj hall
    exact ⟨[], middle, by simp, nofun, rfl, by simp, hrest⟩

namespace Highlight

open Monkey.Lexer

/-- The text that some fragments show. -/
def shown (fs : List Fragment) : List Char := fs.flatMap Fragment.text

/-- A token in the style of its group. -/
def ofToken (t : Token) : Fragment := ⟨(group t).style, t.text.toList⟩

@[simp] theorem shown_nil : shown [] = [] := rfl

@[simp] theorem shown_cons (f : Fragment) (fs : List Fragment) :
    shown (f :: fs) = f.text ++ shown fs := rfl

@[simp] theorem shown_append (fs gs : List Fragment) : shown (fs ++ gs) = shown fs ++ shown gs :=
  List.flatMap_append

@[simp] theorem shown_plain (text : List Char) : shown (plain text) = text := by
  unfold plain
  split
  · next h => rw [List.isEmpty_iff.1 h, shown_nil]
  · rw [shown_cons, shown_nil, List.append_nil]

theorem mem_plain {f : Fragment} {text : List Char} (h : f ∈ plain text) : f = ⟨"", text⟩ := by
  unfold plain at h
  split at h
  · cases h
  · exact List.mem_singleton.1 h

/-! ## What is read from a position on -/

/-- From a position on, fragments show a text with these tokens, of which reading stopped at this
character if it did not reach the end. -/
inductive Depicts : Position → List Token → Option (Char × Position) → List Char → List Fragment →
    Prop where
  | finished {p : Position} {gap : List Char} : (∀ d ∈ gap, isLayout d = true) →
    Depicts p [] none gap (plain gap)
  | stopped {p : Position} {gap rest : List Char} {c : Char} : (∀ d ∈ gap, isLayout d = true) →
    isLayout c = false → scan c rest = none →
    Depicts p [] (some (c, p.after gap)) (gap ++ c :: rest)
      [⟨Group.error.style, gap ++ c :: rest⟩]
  | token {p : Position} {gap rest : List Char} {t : Token} {ts : List Token}
    {stop : Option (Char × Position)} {fs : List Fragment} : (∀ d ∈ gap, isLayout d = true) →
    t.start = p.after gap → t.finish = t.start.after t.text.toList →
    Depicts t.finish ts stop rest fs →
    Depicts p (t :: ts) stop (gap ++ (t.text.toList ++ rest)) (plain gap ++ ofToken t :: fs)

/-- A token with the layout in front of it is cut off. -/
theorem fragments_token (readable : Bool) {p : Position} {gap : List Char} {t : Token}
    (hstart : t.start = p.after gap) (rest : List Char) (ts : List Token) :
    fragments readable p.offset (gap ++ (t.text.toList ++ rest)) (t :: ts) =
      plain gap ++ ofToken t :: fragments readable t.finish.offset rest ts := by
  have hgap : t.start.offset - p.offset = gap.length := by
    rw [hstart, Position.offset_after, Nat.add_sub_cancel_left]
  have hsize : t.text.length = t.text.toList.length := String.length_toList.symm
  rw [fragments, hgap, hsize, List.take_left, List.drop_left, List.take_left, List.drop_left]
  rfl

/-- The fragments of what is read from a position on. -/
theorem depicts_fragments {p q : Position} {cs rest : List Char} {ts : List Token}
    {stop : Option (Char × Position)} (h : Front p cs ts q rest)
    (hend : match stop with
      | none => rest = []
      | some (c, place) => place = q ∧ isLayout c = false ∧
          ∃ more, rest = c :: more ∧ scan c more = none) :
    Depicts p ts stop cs (fragments stop.isNone p.offset cs ts) := by
  induction ts generalizing p cs with
  | nil =>
    obtain ⟨gap, rfl, rfl, hgap⟩ := h.layout_of_nil
    cases stop with
    | none =>
      subst hend
      rw [List.append_nil]
      exact .finished hgap
    | some stop =>
      obtain ⟨c, place⟩ := stop
      obtain ⟨rfl, hc, more, rfl, hscan⟩ := hend
      exact .stopped hgap hc hscan
  | cons t ts ih =>
    obtain ⟨gap, more, rfl, hgap, hstart, hfinish, hmore⟩ := h.uncons
    rw [fragments_token stop.isNone hstart]
    exact .token hgap hstart hfinish (ih hmore)

namespace Depicts
variable {p : Position} {ts : List Token} {stop : Option (Char × Position)} {cs : List Char}
  {fs : List Fragment} (h : Depicts p ts stop cs fs)
include h

theorem shown_eq : shown fs = cs := by
  induction h with
  | finished => exact shown_plain _
  | stopped => exact List.append_nil _
  | token _ _ _ _ ih => rw [shown_append, shown_plain, shown_cons, ih]; rfl

/-- Every token is a fragment, and stands where it starts. -/
theorem exists_ofToken : ∀ t ∈ ts, ∃ before after, fs = before ++ ofToken t :: after ∧
    p.offset + (shown before).length = t.start.offset := by
  induction h with
  | finished | stopped => exact nofun
  | @token p gap rest t ts stop fs _ hstart hfinish _ ih =>
    refine List.forall_mem_cons.2 ⟨⟨plain gap, fs, rfl, ?_⟩, fun u hu => ?_⟩
    · rw [hstart, Position.offset_after, shown_plain]
    · obtain ⟨before, after, rfl, hplace⟩ := ih u hu
      refine ⟨plain gap ++ ofToken t :: before, after, by simp, ?_⟩
      rw [← hplace, hfinish, hstart, Position.offset_after, Position.offset_after]
      simp [ofToken]
      omega

/-- Where reading stopped there is one error, which starts behind the last token. -/
theorem exists_error {c : Char} {place : Position} (hstop : stop = some (c, place)) :
    ∃ before gap rest, fs = before ++ [⟨Group.error.style, gap ++ c :: rest⟩] ∧
      p.offset + (shown before).length =
        (ts.getLast?.map (·.finish.offset)).getD p.offset ∧
      p.offset + (shown before).length + gap.length = place.offset ∧
      (∀ d ∈ gap, isLayout d = true) ∧ isLayout c = false ∧ scan c rest = none := by
  induction h with
  | finished => cases hstop
  | @stopped p gap rest c' hgap hc hscan =>
    obtain ⟨rfl, rfl⟩ := Prod.mk.inj (Option.some.inj hstop)
    exact ⟨[], gap, rest, rfl, rfl, by simp [Position.offset_after], hgap, hc, hscan⟩
  | @token p gap rest t ts stop fs _ hstart hfinish _ ih =>
    obtain ⟨before, gap', rest', rfl, hlast, hplace, hends⟩ := ih hstop
    have hbehind : p.offset + (shown (plain gap ++ ofToken t :: before)).length =
        t.finish.offset + (shown before).length := by
      rw [hfinish, hstart, Position.offset_after, Position.offset_after]
      simp [ofToken]
      omega
    refine ⟨plain gap ++ ofToken t :: before, gap', rest', by simp, ?_, ?_, hends⟩
    · rw [hbehind, hlast, List.getLast?_cons]
      cases ts.getLast? <;> rfl
    · rw [hbehind, hplace]

/-- There are no other fragments than tokens, layout without a style and the error. -/
theorem mem_cases {f : Fragment} (hf : f ∈ fs) : (∃ t ∈ ts, f = ofToken t) ∨
    (f.style = "" ∧ ∀ d ∈ f.text, isLayout d = true) ∨ stop.isSome = true ∧ fs.getLast? = some f := by
  induction h with
  | finished hgap =>
    obtain rfl := mem_plain hf
    exact .inr (.inl ⟨rfl, hgap⟩)
  | stopped =>
    obtain rfl := List.mem_singleton.1 hf
    exact .inr (.inr ⟨rfl, rfl⟩)
  | @token p gap rest t ts stop fs hgap _ _ _ ih =>
    rcases List.mem_append.1 hf with hf | hf
    · obtain rfl := mem_plain hf
      exact .inr (.inl ⟨rfl, hgap⟩)
    rcases List.mem_cons.1 hf with rfl | hf
    · exact .inl ⟨t, List.mem_cons_self, rfl⟩
    rcases ih hf with ⟨u, hu, rfl⟩ | hplain | ⟨hstop, hlast⟩
    · exact .inl ⟨u, List.mem_cons_of_mem _ hu, rfl⟩
    · exact .inr (.inl hplain)
    · exact .inr (.inr ⟨hstop, by simp [List.getLast?_append, List.getLast?_cons, hlast]⟩)

end Depicts

/-! ## Whole lines -/

/-- Fragments show a line: what they show is the line; each token that is read is one of them, at its
place and in the style of its group; if reading stopped then the last of them is an error, which
starts where the last token ends and is the layout up to the character at which nothing can be
read, this character and the rest; and there are no others but layout without a style. -/
structure Shows (l : List Char) (fs : List Fragment) : Prop where
  text : shown fs = l
  tokens : ∀ t ∈ (lexFrom .start l).tokens, ∃ before after,
    fs = before ++ ⟨(group t).style, t.text.toList⟩ :: after ∧
      (shown before).length = t.start.offset
  error : ∀ c p, (lexFrom .start l).stop = some (c, p) → ∃ before gap rest,
    fs = before ++ [⟨Group.error.style, gap ++ c :: rest⟩] ∧
      (shown before).length =
        ((lexFrom .start l).tokens.getLast?.map (·.finish.offset)).getD 0 ∧
      (shown before).length + gap.length = p.offset ∧ (∀ d ∈ gap, isLayout d = true) ∧
      ∀ T text, Terminal.Matches T text → ¬ text <+: c :: rest
  others : ∀ f ∈ fs, (∃ t ∈ (lexFrom .start l).tokens, f = ⟨(group t).style, t.text.toList⟩) ∨
    (f.style = "" ∧ ∀ d ∈ f.text, isLayout d = true) ∨
    (lexFrom .start l).stop.isSome = true ∧ fs.getLast? = some f

/-- The fragments of a line show it. -/
theorem shows_line (l : List Char) : Shows l (line l) := by
  cases l with
  | nil =>
    have hlex : lexFrom .start [] = ⟨[], none⟩ := by rw [lexFrom]
    have hline : line [] = [⟨"", []⟩] := rfl
    rw [hline]
    refine ⟨rfl, by simp [hlex], by simp [hlex], ?_⟩
    simp
  | cons c cs =>
    obtain ⟨q, rest, hfront, hend⟩ := exists_front .start (c :: cs)
    have h : Depicts .start _ _ (c :: cs) (line (c :: cs)) := depicts_fragments hfront hend
    have hstart : Position.start.offset = 0 := rfl
    refine ⟨h.shown_eq, fun t ht => ?_, fun d p hstop => ?_, fun f => h.mem_cases⟩
    · obtain ⟨before, after, hfs, hplace⟩ := h.exists_ofToken t ht
      exact ⟨before, after, hfs, by omega⟩
    · obtain ⟨before, gap, rest, hfs, hlast, hplace, hgap, hd, hscan⟩ := h.exists_error hstop
      rw [hstart, Nat.zero_add] at hlast hplace
      refine ⟨before, gap, rest, hfs, hlast, hplace, hgap, fun T text hfits => ?_⟩
      exact not_matches_of_scan hd hscan hfits

/-- The lines of what is shown, with line feeds between them, are the text, whether or not they can
be read; and the fragments of each line show it. -/
theorem document_lossless (text : List Char) :
    Text.joinLines ((document text).map shown) = text ∧
      Pointwise Shows (Text.splitLines text) (document text) := by
  have hlines : (document text).map shown = Text.splitLines text := by
    rw [document, List.map_map]
    exact List.map_id'' (fun l => (shows_line l).text) _
  rw [hlines]
  have hsame : Pointwise Eq (Text.splitLines text) (Text.splitLines text) := .refl fun _ _ => rfl
  exact ⟨Text.joinLines_splitLines text, hsame.map_right fun l _ h => h ▸ shows_line l⟩

end Highlight
end Monkey
