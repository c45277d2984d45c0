import Monkey.Proofs.DeepLog
import Monkey.Proofs.Logging

/-!
# The log level

How much is logged is settled before anything else is done, and it is to make no difference
to what a program does. It makes none if the setting can be read and nothing is to be logged
that nests too deeply: then the command prints the same and ends in the same way as without
the setting, and only logs some lines in front of what it complains of.

Whatever is no number and names no level stands for the default, so most settings can be read.
A setting that looks like a number is the exception. If one of its digits is not decimal, or if
it has too many of them, the command breaks off before it has read the program.

At the level of notes there is another way to fail. A note on the replacement of a macro call
has two trees in it, and writing these takes more room than making them did. So there are
programs that run without the log and fail with it, however much room there is.

## Main definitions

* `Settings.Readable` — the settings that can be read.
* `CommandLine.Invocation.Loggable` — all notes of the run of the program can be logged.
* `CommandLine.Report.SameResult` — reports that agree in everything but what is logged.

## Main results

* `Settings.exists_logLevel_iff` — these settings set a level, whatever the default is.
* `CommandLine.execute_of_loggable`, `CommandLine.execute_of_not_loggable` — what a level adds
  to the report on a run, and where it breaks a run off.
* `CommandLine.sameResult_iff` — what the command does with a setting and without it.
-/

namespace Monkey

open Monkey.Computation

/-- Digits denote a number exactly if all of them are decimal. -/
theorem Text.isSome_decimalNumber? (cs : List Char) :
    (decimalNumber? cs).isSome = cs.all fun c => (decimalValue? c).isSome := by
  unfold decimalNumber?
  generalize 0 = n
  induction cs generalizing n with
  | nil => rfl
  | cons c cs ih =>
    rw [List.foldlM_cons, List.all_cons]
    cases decimalValue? c with
    | none => rfl
    | some d => exact ih (10 * n + d)

namespace Settings
variable {raw : String}

/-- If nothing but digits stands between the blanks at its ends, the text is a numeral: its digits
are decimal, and there are not too many of them. -/
def Readable (raw : String) : Prop :=
  let digits := (Text.strip raw).toList
  digits.all Text.isDigit = true →
    digits.all (fun c => (Text.decimalValue? c).isSome) = true ∧ digits.length ≤ Numeral.maxDigits

instance : DecidablePred Readable := fun _ => inferInstanceAs (Decidable (_ → _))

theorem exists_levelOf_iff (otherwise : Int) {cs : List Char} :
    (∃ level, levelOf otherwise cs = .ok level) ↔ (cs.all Text.isDigit = true →
      cs.all (fun c => (Text.decimalValue? c).isSome) = true ∧ cs.length ≤ Numeral.maxDigits) := by
  unfold levelOf
  rw [← Text.isSome_decimalNumber?]
  by_cases hnumber : (!cs.isEmpty && cs.all Text.isDigit) = true
  · rw [if_pos hnumber]
    refine Iff.trans ?_ (forall_prop_of_true ((Bool.and_eq_true _ _).mp hnumber).2).symm
    cases Text.decimalNumber? cs with
    | none => simp
    | some n => by_cases hlength : cs.length ≤ Numeral.maxDigits <;> simp [hlength]
  · rw [if_neg hnumber]
    refine iff_of_true ⟨_, rfl⟩ fun hdigits => ?_
    -- a text of digits only that is no number is empty
    obtain rfl : cs = [] := by simpa [hdigits] using hnumber
    exact ⟨rfl, Nat.zero_le _⟩

/-- A text sets a level exactly if it can be read, whatever the default is. -/
theorem exists_logLevel_iff (otherwise : Int) :
    (∃ level, logLevel otherwise (some raw) = .ok level) ↔ Readable raw := by
  rw [Readable, ← exists_levelOf_iff otherwise, logLevel]
  by_cases hempty : raw.isEmpty = true
  · obtain rfl : raw = "" := by simpa using hempty
    exact iff_of_true ⟨_, rfl⟩ ⟨_, rfl⟩
  · rw [if_neg hempty]

/-- There is one reason only why a text sets no level. -/
theorem logLevel_of_not_readable (h : ¬ Readable raw) (otherwise : Int) :
    logLevel otherwise (some raw) = .error .unreadableNumber := by
  cases hlevel : logLevel otherwise (some raw) with
  | ok level => exact absurd ((exists_logLevel_iff otherwise).1 ⟨level, hlevel⟩) h
  | error e => rfl

end Settings

namespace CommandLine

/-- The reports agree in what is printed and in the exit status. -/
def Report.SameResult (r r' : Report) : Prop :=
  r.out = r'.out ∧ r.exit.code = r'.exit.code

section Levels
variable {host : Host} {level : Int}

theorem logLines_default (notes : List Note) : logLines host Settings.defaultLevel notes = "" :=
  if_neg (by decide)

/-- All that a level does to the report on a text is to add lines in front of complaints. -/
theorem report_eq (sub : Submission Value) :
    report host level sub = { report host Settings.defaultLevel sub with
      err := logLines host level sub.notes ++ (report host Settings.defaultLevel sub).err } := by
  unfold report
  rw [logLines_default]
  dsimp only
  split
  · split <;> simp
  · simp [String.append_assoc]
  · simp
  · simp

/-- What a run prints is printed first. -/
theorem exists_out_report (sub : Submission Value) :
    ∃ more, (report host level sub).out = sub.output ++ more := by
  unfold report
  dsimp only
  split
  · split
    · exact ⟨_, String.append_assoc ..⟩
    · exact ⟨"", by simp⟩
  · exact ⟨"", by simp⟩
  · exact ⟨"", by simp⟩
  · exact ⟨"", by simp⟩

/-- A value that can be shown and is no error is a success. -/
theorem code_report {sub : Submission Value} {v : Value} (hresult : sub.result = .ok v)
    (hdepth : v.inspectDepth ≤ host.shown) (hshowable : v.showable = true)
    (hplain : v.isError = false) : (report host level sub).exit.code = 0 := by
  rw [report, hresult]
  simp [Host.display_of_showable hdepth hshowable, hplain, Exit.code]

/-- Without a setting the notes of a run are taken and not logged. -/
theorem logNote_default : logNote host Settings.defaultLevel = takeNote := by
  funext n
  rw [logNote, if_pos (loggable_of_lt host (by decide) n)]

end Levels

variable (inv : Invocation) (host : Host) {raw : String} {level : Int}

/-- If there is a program to be run, all notes of its run can be logged at the level. -/
def Invocation.Loggable (level : Int) : Prop :=
  ∀ text, source inv = .ok text → CanLog host level text

/-- What the command does with its program when no level is set. -/
theorem execute_default {text : String} (hsource : source inv = .ok text) :
    execute { inv with logLevel := none } host =
      report host Settings.defaultLevel (run text host.depth) := by
  have hsame : source { inv with logLevel := none } = .ok text := hsource
  have hlevel : Settings.logLevel Settings.defaultLevel none = .ok Settings.defaultLevel := rfl
  simp only [execute, hlevel, hsame, logNote_default]

section
variable (hlevel : Settings.logLevel Settings.defaultLevel (some raw) = .ok level)
include hlevel

theorem execute_of_level {text : String} (hsource : source inv = .ok text) :
    execute { inv with logLevel := some raw } host =
      report host level (run text host.depth (logNote host level)) := by
  have hsame : source { inv with logLevel := some raw } = .ok text := hsource
  simp only [execute, hlevel, hsame]

/-- The level is read first, and if all notes can be logged it is used for nothing but the
report. -/
theorem execute_of_loggable (h : inv.Loggable host level) :
    ∃ lines, execute { inv with logLevel := some raw } host =
      { execute { inv with logLevel := none } host with
        err := lines ++ (execute { inv with logLevel := none } host).err } := by
  cases hsource : source inv with
  | error exit =>
    have hsame (setting : Option String) :
        source { inv with logLevel := setting } = .error exit := hsource
    have hnone : Settings.logLevel Settings.defaultLevel none = .ok Settings.defaultLevel := rfl
    simp only [execute, hlevel, hnone, hsame]
    exact ⟨"", by simp⟩
  | ok text =>
    have hwhole : run text host.depth (logNote host level) = run text host.depth :=
      (run_logged host level text).2.1 (h text hsource)
    rw [execute_of_level inv host hlevel hsource, execute_default inv host hsource, hwhole]
    exact ⟨_, report_eq _⟩

/-- Otherwise the first note that cannot be logged breaks the run off. That is reported as if
evaluation nested too deeply, and what has been printed by then is the beginning of what is printed
without the level. -/
theorem execute_of_not_loggable (h : ¬ inv.Loggable host level) :
    let logged := execute { inv with logLevel := some raw } host
    logged.exit = .status 1 ∧
      (∃ lines, logged.err = lines ++ "Error: maximum recursion depth exceeded\n") ∧
      ∃ more, (execute { inv with logLevel := none } host).out = logged.out ++ more := by
  intro logged
  unfold Invocation.Loggable at h
  push Not at h
  obtain ⟨text, hsource, hdeep⟩ := h
  obtain ⟨hfailed, printed, hprinted⟩ := (run_logged host level text).2.2 hdeep
  have hlogged : logged = report host level (run text host.depth (logNote host level)) :=
    execute_of_level inv host hlevel hsource
  rw [report, hfailed] at hlogged
  rw [execute_default inv host hsource, hlogged]
  obtain ⟨shown, hshown⟩ := exists_out_report (run text host.depth)
  refine ⟨rfl, ⟨_, rfl⟩, printed ++ shown, ?_⟩
  rw [hshown, ← String.append_assoc]
  exact congrArg (· ++ shown) hprinted

end

theorem execute_of_not_readable (h : ¬ Settings.Readable raw) :
    execute { inv with logLevel := some raw } host =
      ⟨"", "", .crash (.logLevel .unreadableNumber)⟩ := by
  simp only [execute, Settings.logLevel_of_not_readable h]

/-- What the command is given that reads its program from standard input. -/
def Invocation.ofInput (program : String) (logLevel : Option String) : Invocation :=
  { arguments := [], input := program, locate := (FileTree.ofFiles []).locate, logLevel }

/-! ## Programs that succeed without a setting -/

section Succeeding
variable {host : Host} (hdepth : 4 ≤ host.depth) (hshown : 0 < host.shown)
include hdepth hshown

/-- A program that succeeds, but takes a note that is too deep to be logged. -/
theorem exists_deep : ∃ program, (execute (.ofInput program none) host).exit.code = 0 ∧
    ∀ level, level ≤ Settings.debugLevel → ¬ (Invocation.ofInput program none).Loggable host level := by
  obtain ⟨hresult, -, hnote⟩ := Session.run_discarding (Node.tidy_negations host.logged)
    (Node.isExpression_negations _) (Node.callFree_negations _) (Node.negations_ne_ident _ _) hdepth
  generalize htext : (Node.program (Node.discarding (.negations host.logged))).render = text at *
  have hsource : source (.ofInput text none) = .ok text := by
    have hne : text.isEmpty = false := by
      simp [← htext, Node.discarding, Node.render, Node.renderList]
    rw [source, Invocation.ofInput]
    simp [hne]
  refine ⟨text, ?_, fun level hlevel h => ?_⟩
  · have hreport : execute (.ofInput text none) host = _ := execute_default _ host hsource
    rw [hreport]
    exact code_report hresult hshown rfl rfl
  · have hlog := h text hsource _ hnote
    have hdeep := Node.renderDepth_negations host.logged
    simp [loggable, noteDepth, Node.renderDepth, Node.renderDepthList, hdeep] at hlog
    omega

/-- Exactly the settings above the level of notes leave the results of all programs as they are. -/
theorem forall_sameResult_iff : (∀ program,
      (execute (.ofInput program (some raw)) host).SameResult
        (execute (.ofInput program none) host)) ↔
    ∃ level, Settings.logLevel Settings.defaultLevel (some raw) = .ok level ∧
      Settings.debugLevel < level := by
  constructor
  · intro h
    obtain ⟨program, hplain, hdeep⟩ := exists_deep hdepth hshown
    have hlogged : (execute (.ofInput program (some raw)) host).exit.code = 0 :=
      (h program).2.trans hplain
    cases hlevel : Settings.logLevel Settings.defaultLevel (some raw) with
    | error e =>
      rw [execute, show Settings.logLevel _ (Invocation.ofInput program (some raw)).logLevel = _
        from hlevel] at hlogged
      cases hlogged
    | ok level =>
      refine ⟨level, rfl, Int.not_le.1 fun hle => ?_⟩
      obtain ⟨hexit, -⟩ := execute_of_not_loggable (.ofInput program none) host hlevel
        (hdeep level hle)
      rw [show (execute (.ofInput program (some raw)) host).exit = _ from hexit] at hlogged
      cases hlogged
  · rintro ⟨level, hlevel, hlt⟩ program
    obtain ⟨lines, hsame⟩ := execute_of_loggable (.ofInput program none) host hlevel
      fun _ _ n _ => loggable_of_lt host hlt n
    rw [show execute (.ofInput program (some raw)) host = _ from hsame]
    exact ⟨rfl, rfl⟩

end Succeeding

/-- A text sets a level exactly if it can be read, whatever the default is. If a process has room for
anything at all, exactly the settings above the level of notes leave the results of all programs on
standard input as they are without a setting. However the command is called, with a setting that can
be read it reports the same as without, and may log some lines in front, if all notes can be logged.
If one cannot, it fails there, with less printed or as much. With a setting that cannot be read it
breaks off without printing anything; so the result is the same if it was to fail without printing
anything. -/
theorem sameResult_iff (raw : String) :
    (∀ otherwise, (∃ level, Settings.logLevel otherwise (some raw) = .ok level) ↔
      Settings.Readable raw) ∧
    (∀ host : Host, 4 ≤ host.depth → 0 < host.shown →
      ((∀ program, (execute (.ofInput program (some raw)) host).SameResult
        (execute (.ofInput program none) host)) ↔
      ∃ level, Settings.logLevel Settings.defaultLevel (some raw) = .ok level ∧
        Settings.debugLevel < level)) ∧
    ∀ (host : Host) (inv : Invocation),
      let logged := execute { inv with logLevel := some raw } host
      let plain := execute { inv with logLevel := none } host
      (∀ level, Settings.logLevel Settings.defaultLevel (some raw) = .ok level →
        (inv.Loggable host level → ∃ lines, logged = { plain with err := lines ++ plain.err }) ∧
        (¬ inv.Loggable host level → logged.exit = .status 1 ∧
          (∃ lines, logged.err = lines ++ "Error: maximum recursion depth exceeded\n") ∧
          ∃ more, plain.out = logged.out ++ more)) ∧
      (¬ Settings.Readable raw →
        logged = ⟨"", "", .crash (.logLevel .unreadableNumber)⟩ ∧
        (logged.SameResult plain ↔ plain.out = "" ∧ plain.exit.code = 1)) := by
  refine ⟨fun otherwise => Settings.exists_logLevel_iff otherwise,
    fun host hdepth hshown => forall_sameResult_iff hdepth hshown,
    fun host inv => ⟨fun level hlevel => ?_, fun h => ?_⟩⟩
  · exact ⟨execute_of_loggable inv host hlevel, execute_of_not_loggable inv host hlevel⟩
  · have hlogged := execute_of_not_readable inv host h
    refine ⟨hlogged, ?_⟩
    rw [hlogged, Report.SameResult, eq_comm, @eq_comm Nat]
    rfl

/-- The program that is a number succeeds. -/
theorem code_execute_number : (execute (.ofInput "1" none)).exit.code = 0 := by
  have hattempt : ((Session.new.attempt depthLimit "1").any fun o => o.result.toOption.any fun r =>
      r.value.showable && !r.value.isError && decide (r.value.inspectDepth ≤ ({} : Host).shown)) =
        true := by
    decide +kernel
  obtain ⟨o, r, ho, hran, hshow⟩ := Session.new.exists_ran_of_attempt "1" hattempt
  obtain ⟨⟨hshowable, hplain⟩, hflat⟩ :
      (r.value.showable = true ∧ r.value.isError = false) ∧
        r.value.inspectDepth ≤ ({} : Host).shown := by
    simpa using hshow
  have hresult : (run "1").result = .ok r.value := by
    rw [run, (Session.new.run_of_attempt "1" ho).1, hran]
    rfl
  have hsource : source (.ofInput "1" none) = .ok "1" := rfl
  have hreport : execute (.ofInput "1" none) = _ := execute_default _ {} hsource
  rw [hreport]
  exact code_report hresult hflat hshowable hplain

/-- With a superscript for its level the command fails, though the program would succeed. -/
theorem code_execute_superscript :
    ¬ ∀ program raw, (execute (.ofInput program (some raw))).SameResult
      (execute (.ofInput program none)) := by
  intro h
  have hunreadable : ¬ Settings.Readable "²" := by decide +kernel
  have hlogged : (execute (.ofInput "1" (some "²"))).exit.code = 1 :=
    congrArg (fun r => r.exit.code) (execute_of_not_readable (.ofInput "1" none) {} hunreadable)
  have hsame := (h "1" "²").2
  rw [hlogged, code_execute_number] at hsame
  cases hsame

end CommandLine
end Monkey
