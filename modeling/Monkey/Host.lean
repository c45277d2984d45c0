import Monkey.Computation
import Monkey.Value.Inspect

/-!
# The process around a run

Texts are run in a process that nests only so many calls in each other. What comes of
a run that needs more depends on where it is when the calls run out. Within a run that
breaks the run off, like an evaluation that nests too deeply. When a value is shown after
the run, there is far less room, and nothing is there any more to be broken off.

The bounds of the process are in numbers of calls. Here they are in numbers of nested
evaluations and of nested texts, each of which takes several calls, and not always as
many. So the numbers that stand here by default say no more than what is certainly too
deep. Everything that is proved holds for all numbers.

## Main definitions

* `Host` — what a process has for the runs in it.
* `Host.display` — the text of a value that is shown after a run.

## Main results

* `Host.display_eq_ok_iff` — the values that can be shown.
-/

namespace Monkey

/-- How deeply evaluation may nest by default. A process nests 60000 calls during a run, and three
nested evaluations take at least five of them. Usually they take more: a function that calls itself
takes three to eight evaluations for each call, and about a dozen calls of the process. And while
a tree is read, rewritten or written, and while a value is printed, calls are nested as well, which
do not count here. So a run may come to an end here that a process breaks off, but not the
reverse. -/
def depthLimit : Nat := 36000

/-- What a process has for the runs in it. -/
structure Host where
  /-- How deeply evaluation may nest. -/
  depth : Nat := depthLimit
  /-- How deeply the text of a value may nest that is shown after a run. There is room for 1000
  calls then, and a text takes at least three for each that it is made of. -/
  shown : Nat := 330
  /-- How deeply the text of a tree may nest that is logged during a run. -/
  logged : Nat := 20000
  /-- Where the grammar is found, if the parser is still to be made from it. -/
  grammar : Option String := none

/-- The text of a value that is shown after a run. If it both nests too deeply and holds a number of
too many digits, it counts as too deep. -/
def Host.display (host : Host) (v : Value) : Except Failure String :=
  if host.shown < v.inspectDepth then .error .depthExceeded
  else if v.showable then .ok v.inspect
  else .error .unwritableNumber

/-- A value can be shown exactly if its text does not nest too deeply and all its numbers can be
written. -/
theorem Host.display_eq_ok_iff {host : Host} {v : Value} {text : String} :
    host.display v = .ok text ↔
      v.inspectDepth ≤ host.shown ∧ v.showable = true ∧ v.inspect = text := by
  unfold display
  split
  · next h => simp [Nat.not_le_of_lt h]
  · next h => cases hv : v.showable <;> simp [Nat.le_of_not_lt h]

theorem Host.display_of_showable {host : Host} {v : Value} (hdepth : v.inspectDepth ≤ host.shown)
    (hv : v.showable = true) : host.display v = .ok v.inspect :=
  display_eq_ok_iff.2 ⟨hdepth, hv, rfl⟩

/-- An error nests in nothing, and there is no number in it that could be too long. -/
theorem Host.display_of_isError {host : Host} (hroom : 0 < host.shown) {e : Value}
    (h : e.isError = true) : host.display e = .ok e.inspect := by
  cases e with
  | error i fault => exact display_of_showable hroom rfl
  | _ => cases h

end Monkey
