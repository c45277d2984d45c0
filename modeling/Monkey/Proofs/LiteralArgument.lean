import Mathlib.Data.String.Basic
import Monkey.Proofs.Interruptions
import Monkey.Proofs.Literals
import Monkey.Proofs.Logging

/-!
# An argument that is itself the program

An argument that names neither a file nor a directory is taken for the program. To find
out that it names nothing it is looked up as a path, and a path that is too long cannot
even be looked up, and neither can one that leads through a directory which is closed to
the command: the command breaks off. Since a slash is also the sign for a division, what a
program is as a path has nothing to do with what it computes.

Whatever can be looked up is run. The command prints what the run prints, and the value
below it, or it says in one line why the text is no program. It does say so in one line,
because a message quotes the text with every line feed escaped. Only a value that nests
too deeply is not printed: there is less room for it than there was for the run.

## Main definitions

* `FileTree.LooksUp` — the parts of a path, and the directories where they are looked up.
* `FileTree.Overlong`, `FileTree.Refused` — the paths that cannot be looked up.
* `CommandLine.Answers` — the reports on a text that is taken for the program.

## Main results

* `ParseError.oneLine_message` — messages are one line.
* `FileTree.locate_eq_tooLong_iff`, `FileTree.locate_eq_denied_iff` — looking up fails for
  these paths and no others.
* `CommandLine.answers_execute_iff` — the arguments that are taken for the program.
-/

namespace Monkey

/-! ## Messages are one line -/

namespace Text

/-- A text without a line feed. -/
def OneLine (s : String) : Prop := '\n' ∉ s.toList

@[simp] theorem oneLine_append {s t : String} : OneLine (s ++ t) ↔ OneLine s ∧ OneLine t := by
  simp [OneLine]

/-- The digits of a number are those of its base. -/
theorem exists_digitChar_of_mem_toDigits {b n : Nat} (hb : 1 < b) {c : Char}
    (h : c ∈ Nat.toDigits b n) : ∃ d < b, c = Nat.digitChar d := by
  induction n using Nat.strongRecOn with
  | ind n ih =>
    rcases Nat.lt_or_ge n b with hlt | hge
    · rw [Nat.toDigits_of_lt_base hlt, List.mem_singleton] at h
      exact ⟨n, hlt, h⟩
    · rw [Nat.toDigits_of_base_le hb hge, List.mem_append, List.mem_singleton] at h
      rcases h with h | rfl
      · exact ih (n / b) (Nat.div_lt_self (by omega) hb) h
      · exact ⟨_, Nat.mod_lt n (by omega), rfl⟩

theorem newline_notMem_toDigits {b : Nat} (hb : 1 < b) (hle : b ≤ 16) (n : Nat) :
    '\n' ∉ Nat.toDigits b n := by
  intro h
  obtain ⟨d, hlt, hd⟩ := exists_digitChar_of_mem_toDigits hb h
  have hdigit : ∀ d < 16, '\n' ≠ Nat.digitChar d := by decide
  exact hdigit d (by omega) hd

theorem oneLine_render (n : Int) : OneLine (Numeral.render n) := by
  have hrepr (k : Nat) : OneLine k.repr := by
    rw [OneLine, show k.repr.toList = Nat.toDigits 10 k from String.toList_ofList]
    exact newline_notMem_toDigits (by decide) (by decide) k
  cases n with
  | ofNat k => exact hrepr k
  | negSucc k => exact oneLine_append.2 ⟨by simp [OneLine], hrepr (k + 1)⟩

theorem newline_notMem_numericEscape (n : Nat) : '\n' ∉ numericEscape n := by
  have hhex (width : Nat) : '\n' ∉ hex width n := by
    simp [hex, newline_notMem_toDigits]
  unfold numericEscape
  split
  · simp [hhex]
  · split <;> simp [hhex]

/-- No character is written with a line feed, unless that is the quotation mark. -/
theorem newline_notMem_escaped {quote : Char} (hquote : quote ≠ '\n') (c : Char) :
    '\n' ∉ escaped quote c := by
  unfold escaped
  split
  · next h => rcases h with rfl | rfl <;> simp [Ne.symm hquote]
  split
  · simp
  next hc =>
  split
  · simp
  split
  · simp
  split
  · simpa using fun h => hc h.symm
  · exact newline_notMem_numericEscape _

theorem oneLine_quoted (s : String) : OneLine (quoted s) := by
  have hquote : quoteFor s.toList ≠ '\n' := by
    unfold quoteFor
    split <;> decide
  simp only [OneLine, quoted, String.toList_ofList, List.mem_append, List.mem_cons,
    List.mem_flatMap, List.not_mem_nil, or_false, not_or, not_exists, not_and]
  exact ⟨⟨hquote.symm, fun c _ => newline_notMem_escaped hquote c⟩, hquote.symm⟩

theorem oneLine_firstLine (s : String) : OneLine (firstLine s) := by
  intro h
  rw [firstLine, String.toList_ofList] at h
  have hend := List.all_eq_true.1 List.all_takeWhile _ h
  simp [lineEnds] at hend

end Text

namespace ParseError

open Text

theorem oneLine_tokenMessage {kind : String} (hkind : OneLine kind) (text : String) (p : Position) :
    OneLine (tokenMessage kind text p) := by
  unfold tokenMessage
  simp only [oneLine_append, hkind, oneLine_quoted, oneLine_render]
  simp [OneLine]

theorem oneLine_summary (e : ParseError) : OneLine e.summary := by
  cases e with
  | unexpected t =>
    refine oneLine_tokenMessage ?_ t.text t.start
    cases t.kind <;> simp [OneLine, TokenKind.name]
  | unexpectedEnd p => exact oneLine_tokenMessage (by simp [OneLine]) "" p
  | unreadable c p => exact oneLine_firstLine _

/-- Whatever is in a text, why it is no program is said in one line. -/
theorem oneLine_message (e : ParseError) : OneLine e.message := by
  unfold message
  simp only [oneLine_append, oneLine_summary, oneLine_render]
  simp [OneLine]

end ParseError

/-! ## What cannot be looked up -/

deriving instance DecidableEq for Located

namespace FileTree
variable (tree : FileTree)

/-- The directory that a part of a path leads to from the directory `here`, if it can be looked up
there and is one. -/
def enter (here : List String) (part : String) : Option (List String) :=
  if here ∈ tree.closed then none
  else if part = ".." then some here.dropLast
  else if part.utf8ByteSize ≤ maxPartSize ∧ tree.isDirectory (here ++ [part]) then
    some (here ++ [part])
  else none

/-- When parts of a path are followed from the directory `here`, `part` is looked up in the
directory `there`. -/
inductive LooksUp : (here parts there : List String) → (part : String) → Prop
  | here {here parts : List String} {part : String} : LooksUp here (part :: parts) here part
  | through {here next parts there : List String} {first part : String} :
    tree.enter here first = some next → LooksUp next parts there part →
    LooksUp here (first :: parts) there part

/-- The directory that a path is followed from. -/
def start (path : String) : List String := if path.startsWith "/" then [] else tree.current

/-- A path that is too long to be looked up, as a whole or for one of its parts. -/
def Overlong (path : String) : Prop :=
  '\x00' ∉ path.toList ∧ (pathBound ≤ (normal path).utf8ByteSize ∨
    ∃ there part, tree.LooksUp (tree.start path) (parts path) there part ∧
      there ∉ tree.closed ∧ part ≠ ".." ∧ maxPartSize < part.utf8ByteSize)

/-- A path that is to be looked up in a closed directory. -/
def Refused (path : String) : Prop :=
  '\x00' ∉ path.toList ∧ (normal path).utf8ByteSize < pathBound ∧
    ∃ there part, tree.LooksUp (tree.start path) (parts path) there part ∧
      there ∈ tree.closed

variable {tree} {here : List String}

theorem not_looksUp_nil {there : List String} {part : String} :
    ¬ tree.LooksUp here [] there part := nofun

/-- The first part is looked up here, and every other one from where the first one leads. -/
theorem looksUp_cons {first part : String} {parts there : List String} :
    tree.LooksUp here (first :: parts) there part ↔ (there = here ∧ part = first) ∨
      ∃ next, tree.enter here first = some next ∧ tree.LooksUp next parts there part := by
  constructor
  · intro h
    cases h with
    | here => exact .inl ⟨rfl, rfl⟩
    | through hnext h => exact .inr ⟨_, hnext, h⟩
  · rintro (⟨rfl, rfl⟩ | ⟨next, hnext, h⟩)
    · exact .here
    · exact .through hnext h

/-- One step of following a path. Behind something that is no directory nothing is looked up. -/
theorem follow_cons (first : String) (parts : List String) : tree.follow here (first :: parts) =
    if here ∈ tree.closed then .denied
    else if first ≠ ".." ∧ maxPartSize < first.utf8ByteSize then .tooLong
    else match tree.enter here first with
      | some next => tree.follow next parts
      | none => match tree.fileAt? (here ++ [first]) with
        | some text => if parts.isEmpty then .file text else .absent
        | none => .absent := by
  rw [follow, enter]
  by_cases hclosed : here ∈ tree.closed
  · simp [hclosed]
  by_cases hup : first = ".."
  · simp [hclosed, hup]
  by_cases hlong : maxPartSize < first.utf8ByteSize
  · simp [hclosed, hup, hlong]
  have hshort : first.utf8ByteSize ≤ maxPartSize := Nat.le_of_not_lt hlong
  by_cases hdir : tree.isDirectory (here ++ [first]) = true
  · simp [hclosed, hup, hlong, hdir, hshort]
  · simp only [hclosed, hup, hlong, hdir]
    cases tree.fileAt? (here ++ [first]) <;> simp [hclosed, hup]

/-- Whether a part with some property is looked up when a path is followed: the first one, or one
that is looked up behind it. -/
theorem exists_looksUp_cons {P : List String → String → Prop} {first : String}
    {parts : List String} :
    (∃ there part, tree.LooksUp here (first :: parts) there part ∧ P there part) ↔ P here first ∨
      ∃ next, tree.enter here first = some next ∧
        ∃ there part, tree.LooksUp next parts there part ∧ P there part := by
  constructor
  · rintro ⟨there, part, h, hP⟩
    rcases looksUp_cons.1 h with ⟨rfl, rfl⟩ | ⟨next, hnext, h⟩
    · exact .inl hP
    · exact .inr ⟨next, hnext, there, part, h, hP⟩
  · rintro (hP | ⟨next, hnext, there, part, h, hP⟩)
    · exact ⟨here, first, .here, hP⟩
    · exact ⟨there, part, .through hnext h, hP⟩

theorem follow_eq_tooLong_iff {parts : List String} : tree.follow here parts = .tooLong ↔
    ∃ there part, tree.LooksUp here parts there part ∧ there ∉ tree.closed ∧ part ≠ ".." ∧
      maxPartSize < part.utf8ByteSize := by
  induction parts generalizing here with
  | nil => simp [follow, not_looksUp_nil]
  | cons first parts ih =>
    rw [exists_looksUp_cons, follow_cons]
    by_cases hclosed : here ∈ tree.closed
    · simp [hclosed, enter]
    · by_cases hlong : first ≠ ".." ∧ maxPartSize < first.utf8ByteSize
      · simp [hclosed, hlong]
      · rw [if_neg hclosed, if_neg hlong]
        cases hnext : tree.enter here first with
        | some next => simp [ih, hlong]
        | none =>
          generalize tree.fileAt? (here ++ [first]) = found
          cases found with
          | none => simp [hlong]
          | some text => cases parts <;> simp [hlong]

theorem follow_eq_denied_iff {parts : List String} : tree.follow here parts = .denied ↔
    ∃ there part, tree.LooksUp here parts there part ∧ there ∈ tree.closed := by
  induction parts generalizing here with
  | nil => simp [follow, not_looksUp_nil]
  | cons first parts ih =>
    rw [exists_looksUp_cons, follow_cons]
    by_cases hclosed : here ∈ tree.closed
    · simp [hclosed]
    · by_cases hlong : first ≠ ".." ∧ maxPartSize < first.utf8ByteSize
      · have hnone : tree.enter here first = none := by
          simp [enter, hclosed, hlong.1, Nat.not_le.2 hlong.2]
        simp [hclosed, hlong, hnone]
      · rw [if_neg hclosed, if_neg hlong]
        cases hnext : tree.enter here first with
        | some next => simp [ih, hclosed]
        | none =>
          generalize tree.fileAt? (here ++ [first]) = found
          cases found with
          | none => simp [hclosed]
          | some text => cases parts <;> simp [hclosed]

/-- Looking up fails exactly for the paths that are too long, or lead to a part that is. -/
theorem locate_eq_tooLong_iff {path : String} :
    tree.locate path = .tooLong ↔ tree.Overlong path := by
  unfold locate Overlong start
  by_cases hnul : '\x00' ∈ path.toList
  · simp [hnul]
  · by_cases hlong : pathBound ≤ (normal path).utf8ByteSize
    · simp [hnul, hlong]
    · simp [hnul, hlong, follow_eq_tooLong_iff]

/-- Looking up is refused exactly for the paths that lead into a closed directory. -/
theorem locate_eq_denied_iff {path : String} :
    tree.locate path = .denied ↔ tree.Refused path := by
  unfold locate Refused start
  by_cases hnul : '\x00' ∈ path.toList
  · simp [hnul]
  · by_cases hlong : pathBound ≤ (normal path).utf8ByteSize
    · simp [hnul, hlong, Nat.not_lt.2 hlong]
    · simp [hnul, hlong, Nat.lt_of_not_le hlong, follow_eq_denied_iff]

/-- A text without a slash is a path of one part, if it does not name the current directory. -/
theorem parts_of_noSlash {path : String} (hslash : '/' ∉ path.toList) (hempty : path ≠ "")
    (hdot : path ≠ ".") : parts path = [path] := by
  have hsingle : path.splitToList (· == '/') = [path] := by
    rw [String.splitToList_of_valid, List.splitOnP_eq_singleton]
    · simp
    · exact fun c hc => beq_eq_false_iff_ne.2 fun h => hslash (h ▸ hc)
  simp [parts, hsingle, hempty, hdot]

/-- Such a text cannot be looked up in any directory, if it is longer than parts may be. -/
theorem overlong_of_noSlash {path : String} (hopen : tree.start path ∉ tree.closed)
    (hnul : '\x00' ∉ path.toList) (hslash : '/' ∉ path.toList)
    (hlong : maxPartSize < path.utf8ByteSize) : tree.Overlong path := by
  have hne (short : String) (hshort : short.utf8ByteSize ≤ maxPartSize) : path ≠ short := by
    rintro rfl
    omega
  refine ⟨hnul, .inr ⟨_, path, ?_, hopen, hne ".." (by decide), hlong⟩⟩
  rw [parts_of_noSlash hslash (hne "" (by decide)) (hne "." (by decide))]
  exact .here

end FileTree

/-! ## The report -/

namespace CommandLine

/-- What is reported on a text that is taken for the program. It prints what the run of the text
prints and then the value, and the exit status says whether that is an error; or it complains in one
line that the text is no program. Nothing else is written but what is to be logged. -/
inductive Answers (host : Host) (inv : Invocation) (t : String) : Report → Prop
  | value {level : Int} {v : Value} :
    Settings.logLevel Settings.defaultLevel inv.logLevel = .ok level →
    (run t host.depth).result = .ok v → v.showable = true →
    Answers host inv t ⟨(run t host.depth).output ++ v.inspect ++ "\n",
      logLines host level (run t host.depth).notes, .status (if v.isError then 1 else 0)⟩
  | complaint {level : Int} {e : ParseError} {line : String} :
    Settings.logLevel Settings.defaultLevel inv.logLevel = .ok level →
    Source.parse t = .error (.malformed e) → Text.OneLine line →
    Answers host inv t ⟨"", logLines host level [] ++ "Error: " ++ line ++ "\n", .status 1⟩

variable {host : Host} {inv : Invocation} {t : String} {level : Int}

/-- The command does not break off with an answer. -/
theorem Answers.exit_ne_crash {r : Report} (h : Answers host inv t r) (c : Crash) :
    r.exit ≠ .crash c := by
  cases h <;> simp

/-- An answer to a program prints more than the run does. -/
theorem Answers.length_output_lt {r : Report} (h : Answers host inv t r) {program : Node}
    (hparse : Source.parse t = .ok program) : (run t host.depth).output.length < r.out.length := by
  cases h with
  | value hlevel hresult hshow =>
    have hline : "\n".length = 1 := rfl
    simp only [String.length_append, hline]
    omega
  | complaint hlevel hmalformed hline => simp [hparse] at hmalformed

/-- A value that nests too deeply to be shown breaks the command off. -/
theorem report_of_deep {sub : Submission Value} {v : Value} (hresult : sub.result = .ok v)
    (hdeep : host.shown < v.inspectDepth) : report host level sub =
      ⟨sub.output, logLines host level sub.notes, .crash (.rejection (.failure .depthExceeded))⟩ := by
  have hdisplay : host.display v = .error .depthExceeded := if_pos hdeep
  rw [report, hresult]
  simp [hdisplay]

section Running
variable (hlevel : Settings.logLevel Settings.defaultLevel inv.logLevel = .ok level)
  (hliteral : Source.parse t ≠ .error .literalTooLong)
  (hrun : Session.new.Completes host.depth t)
  (hshown : ∀ v, (run t host.depth).result = .ok v → v.showable = true)
include hlevel hliteral hrun hshown

/-- The report on the run of a text is an answer, if the run comes to an end, no number is met that
has too many digits, and the value does not nest too deeply. -/
theorem answers_report
    (hflat : ∀ v, (run t host.depth).result = .ok v → v.inspectDepth ≤ host.shown) :
    Answers host inv t (report host level (run t host.depth)) := by
  cases hparse : Source.parse t with
  | error e =>
    cases e with
    | literalTooLong => exact absurd hparse hliteral
    | malformed e =>
      have hrejected : run t host.depth = ⟨.error (.source (.malformed e)), "", [], .new⟩ := by
        rw [run, Session.run, Session.withSource, hparse]
      rw [hrejected]
      exact .complaint hlevel hparse e.oneLine_message
  | ok program =>
    obtain ⟨r, hr, -⟩ := Session.exists_ran_of_completes hparse (Session.sorted_after []) hrun
    have hresult : (run t host.depth).result = .ok r.value :=
      Session.new.result_withSource t hparse hr fun _ r => r.value
    have hdisplay : host.display r.value = .ok r.value.inspect :=
      Host.display_of_showable (hflat _ hresult) (hshown _ hresult)
    have hreport : report host level (run t host.depth) =
        ⟨(run t host.depth).output ++ r.value.inspect ++ "\n",
          logLines host level (run t host.depth).notes,
          .status (if r.value.isError then 1 else 0)⟩ := by
      simp [report, hresult, hdisplay]
    rw [hreport]
    exact .value hlevel hresult (hshown _ hresult)

/-- What is reported on a text that is run with its notes logged is an answer exactly if all of them
can be logged and the value does not nest too deeply. -/
theorem answers_report_iff :
    Answers host inv t (report host level (run t host.depth (logNote host level))) ↔
      CanLog host level t ∧
        ∀ v, (run t host.depth).result = .ok v → v.inspectDepth ≤ host.shown := by
  obtain ⟨-, hwhole, hshort⟩ := run_logged host level t
  by_cases hlog : CanLog host level t
  · rw [hwhole hlog]
    refine ⟨fun h => ⟨hlog, fun v hv => ?_⟩,
      fun h => answers_report hlevel hliteral hrun hshown h.2⟩
    refine Nat.le_of_not_lt fun hdeep => ?_
    rw [report_of_deep hv hdeep] at h
    exact h.exit_ne_crash _ rfl
  · refine iff_of_false (fun h => ?_) fun h => hlog h.1
    cases hparse : Source.parse t with
    | error e =>
      -- a text that is no program takes no notes
      refine hlog fun n hn => ?_
      rw [run, Session.run, Session.withSource, hparse] at hn
      cases hn
    | ok program =>
      obtain ⟨hfailed, more, hmore⟩ := hshort hlog
      have hlonger := h.length_output_lt hparse
      rw [report, hfailed, hmore, String.length_append] at hlonger
      dsimp only at hlonger
      omega

end Running

/-- A single argument is looked up. -/
theorem source_argument (hargs : inv.arguments = [t]) (hdash : t ≠ "-") :
    source inv = match inv.locate t with
      | .file text => .ok (String.ofList (Text.unifyNewlines text.toList))
      | .directory => .error (.crash .directory)
      | .tooLong => .error (.crash (.lookup .tooLong))
      | .denied => .error (.crash (.lookup .denied))
      | .absent => .ok t := by
  unfold source
  rw [hargs]
  split
  · next h => cases h
  · next h => exact absurd (List.head_eq_of_cons_eq h) hdash
  · next arg h =>
    obtain rfl := List.head_eq_of_cons_eq h
    rfl
  · next h => cases h

/-- A single argument that names neither a file nor a directory is taken for the program exactly if
it can be looked up as a path, the log level can be read, all notes can be logged at it, and the
value does not nest too deeply. It is meant to be a text whose run comes to an end, and with which no
number is met that has too many digits. If it cannot be looked up the command writes nothing and
breaks off. If the value nests too deeply it breaks off after the run. -/
theorem answers_execute_iff {tree : FileTree} (hargs : inv.arguments = [t]) (hdash : t ≠ "-")
    (hlocate : inv.locate = tree.locate) (hfile : ∀ text, tree.locate t ≠ .file text)
    (hdirectory : tree.locate t ≠ .directory)
    (hliteral : Source.parse t ≠ .error .literalTooLong)
    (hrun : Session.new.Completes host.depth t)
    (hshown : ∀ v, (run t host.depth).result = .ok v → v.showable = true) :
    (Answers host inv t (execute inv host) ↔
      (∃ level, Settings.logLevel Settings.defaultLevel inv.logLevel = .ok level ∧
        CanLog host level t) ∧ ¬ tree.Overlong t ∧ ¬ tree.Refused t ∧
      ∀ v, (run t host.depth).result = .ok v → v.inspectDepth ≤ host.shown) ∧
    ∀ level, Settings.logLevel Settings.defaultLevel inv.logLevel = .ok level →
      (tree.Overlong t → execute inv host = ⟨"", "", .crash (.lookup .tooLong)⟩) ∧
      (tree.Refused t → execute inv host = ⟨"", "", .crash (.lookup .denied)⟩) ∧
      (¬ tree.Overlong t → ¬ tree.Refused t → CanLog host level t →
        ∀ v, (run t host.depth).result = .ok v → host.shown < v.inspectDepth →
          execute inv host = ⟨(run t host.depth).output,
            logLines host level (run t host.depth).notes,
            .crash (.rejection (.failure .depthExceeded))⟩) := by
  have hsource := source_argument hargs hdash
  rw [hlocate] at hsource
  rw [← FileTree.locate_eq_tooLong_iff, ← FileTree.locate_eq_denied_iff]
  unfold execute
  cases hlevel : Settings.logLevel Settings.defaultLevel inv.logLevel with
  | error e =>
    refine ⟨iff_of_false (fun h => h.exit_ne_crash _ rfl) ?_, fun _ h => by cases h⟩
    rintro ⟨⟨_, h, -⟩, -⟩
    cases h
  | ok level =>
    have hlogged : (∃ level', Except.ok level = (.ok level' : Except Settings.LevelError Int) ∧
        CanLog host level' t) ↔ CanLog host level t := by simp
    rw [hlogged]
    generalize tree.locate t = located at hsource hfile hdirectory ⊢
    dsimp only
    rw [hsource]
    cases located with
    | file text => exact absurd rfl (hfile text)
    | directory => exact absurd rfl hdirectory
    | tooLong =>
      refine ⟨iff_of_false (fun h => h.exit_ne_crash _ rfl) fun h => h.2.1 rfl, fun _ _ => ?_⟩
      exact ⟨fun _ => rfl, fun h => (by cases h), fun h => absurd rfl h⟩
    | denied =>
      refine ⟨iff_of_false (fun h => h.exit_ne_crash _ rfl) fun h => h.2.2.1 rfl, fun _ _ => ?_⟩
      exact ⟨fun h => (by cases h), fun _ => rfl, fun _ h => absurd rfl h⟩
    | absent =>
      refine ⟨?_, fun level' hlevel' => ⟨fun h => (by cases h), fun h => (by cases h), ?_⟩⟩
      · simpa using answers_report_iff hlevel hliteral hrun hshown
      · obtain rfl := Except.ok.inj hlevel'
        intro _ _ hlog v hv hdeep
        dsimp only
        rw [(run_logged host level t).2.1 hlog]
        exact report_of_deep hv hdeep

/-- What the command with one argument is given in a new directory without files. -/
def Invocation.ofArgument (t : String) : Invocation :=
  { arguments := [t], input := "", locate := (FileTree.ofFiles []).locate, logLevel := none }

/-- A program that calls nothing and comes to a value with a text that nests a little comes to an
end, without meeting a number that has too many digits or a value that nests too deeply. -/
theorem legible_of_calls
    (hvalue : ((Session.new.attempt depthLimit t).any fun o => o.result.toOption.any fun r =>
      r.value.showable && decide (r.value.inspectDepth ≤ ({} : Host).shown)) = true)
    (hcalls : ∀ w ∈ Session.new.visits depthLimit t, w.isCall = false) :
    Source.parse t ≠ .error .literalTooLong ∧ Session.new.Completes depthLimit t ∧
      ∀ v, (run t).result = .ok v → v.showable = true ∧ v.inspectDepth ≤ ({} : Host).shown := by
  obtain ⟨o, r, hattempt, hresult, hshow⟩ := Session.new.exists_ran_of_attempt t hvalue
  refine ⟨fun hparse => ?_, ⟨fun o' ho' hdepth => ?_, fun w hw hshows => ?_⟩, fun v hv => ?_⟩
  · rw [Session.attempt, hparse] at hattempt
    cases hattempt
  · obtain rfl := Option.some.inj (hattempt.symm.trans ho')
    exact absurd (hresult.symm.trans hdepth) (by simp)
  · exact absurd (hshows.isCall.symm.trans (hcalls w hw)) (by simp)
  · have hrun := (Session.new.run_of_attempt t hattempt).1
    rw [hresult] at hrun
    obtain rfl := Except.ok.inj (hrun.symm.trans hv)
    simpa using hshow

/-- At the level that is set by default every note can be logged. -/
theorem canLog_default (host : Host) (t : String) : CanLog host Settings.defaultLevel t :=
  fun n _ => loggable_of_lt host (by decide) n

/-- A quotient is a path of two parts, the first of which names nothing. -/
theorem answers_execute_quotient :
    ¬ (FileTree.ofFiles []).Overlong "84/2" ∧ ¬ (FileTree.ofFiles []).Refused "84/2" ∧
      Session.new.Completes depthLimit "84/2" ∧
      Answers {} (.ofArgument "84/2") "84/2" (execute (.ofArgument "84/2")) := by
  have hlocate : (FileTree.ofFiles []).locate "84/2" = .absent := by decide +kernel
  have hlong : ¬ (FileTree.ofFiles []).Overlong "84/2" := by
    rw [← FileTree.locate_eq_tooLong_iff, hlocate]
    decide
  have hopen : ¬ (FileTree.ofFiles []).Refused "84/2" := by
    rw [← FileTree.locate_eq_denied_iff, hlocate]
    decide
  obtain ⟨hliteral, hcompletes, hshown⟩ : Source.parse "84/2" ≠ .error .literalTooLong ∧
      Session.new.Completes depthLimit "84/2" ∧
      ∀ v, (run "84/2").result = .ok v → v.showable = true ∧
        v.inspectDepth ≤ ({} : Host).shown :=
    legible_of_calls (by decide +kernel) (by decide +kernel)
  refine ⟨hlong, hopen, hcompletes, (answers_execute_iff rfl (by decide) rfl ?_ ?_ hliteral
    hcompletes fun v hv => (hshown v hv).1).1.2
    ⟨⟨_, rfl, canLog_default {} "84/2"⟩, hlong, hopen, fun v hv => (hshown v hv).2⟩⟩
  · simp [hlocate]
  · simp [hlocate]

/-- A text of some letters and nothing else. -/
def letters (k : Nat) : String := String.ofList (List.replicate k 'a')

theorem notMem_letters {c : Char} (h : c ≠ 'a') (k : Nat) : c ∉ (letters k).toList := by
  rw [letters, String.toList_ofList, List.mem_replicate]
  exact fun hc => h hc.2

/-- Between its quotation marks a text of 254 letters is a program. With 256 characters that is too
long for a part of a path. -/
theorem crash_execute_letters :
    ¬ ∀ (t : String) (tree : FileTree) (inv : Invocation), inv.arguments = [t] → t ≠ "-" →
      inv.locate = tree.locate → inv.logLevel = none → (∀ text, tree.locate t ≠ .file text) →
      tree.locate t ≠ .directory → Source.parse t ≠ .error .literalTooLong →
      Session.new.Completes depthLimit t → (∀ v, (run t).result = .ok v → v.showable = true) →
      Answers {} inv t (execute inv) := by
  intro h
  obtain ⟨t, ht⟩ : ∃ t, (Node.str (letters 254)).render = t := ⟨_, rfl⟩
  have hchars {c : Char} (hletter : c ≠ 'a') (hquote : c ≠ '"') : c ∉ t.toList := by
    simp [← ht, Node.render, notMem_letters hletter, hquote]
  have hparse : Source.parse t = .ok (.program [.exprStmt (.str (letters 254))]) := by
    rw [← ht]
    refine Source.parse_literal (Node.literal_iff.2 ⟨notMem_letters (by decide) 254, ?_⟩)
    simp [Node.children, Node.operands, Node.listed]
  have hlong : FileTree.maxPartSize < t.utf8ByteSize := by
    rw [← ht]
    decide +kernel
  have hlocate : (FileTree.ofFiles []).locate t = .tooLong :=
    FileTree.locate_eq_tooLong_iff.2 (FileTree.overlong_of_noSlash List.not_mem_nil
      (hchars (by decide) (by decide)) (hchars (by decide) (by decide)) hlong)
  have hdash : t ≠ "-" := fun hdash => hchars (c := '-') (by decide) (by decide) (by simp [hdash])
  obtain ⟨hliteral, hcompletes, hshown⟩ : Source.parse t ≠ .error .literalTooLong ∧
      Session.new.Completes depthLimit t ∧ ∀ v, (run t).result = .ok v → v.showable = true ∧
        v.inspectDepth ≤ ({} : Host).shown := by
    refine legible_of_calls ?_ ?_
    · rw [Session.attempt, hparse]
      decide +kernel
    · rw [Session.visits, hparse]
      decide +kernel
  have hsource : source (.ofArgument t) = .error (.crash (.lookup .tooLong)) := by
    rw [source_argument rfl hdash]
    simp only [Invocation.ofArgument, hlocate]
  have hcrash : (execute (.ofArgument t)).exit = .crash (.lookup .tooLong) := by
    unfold execute
    rw [hsource]
    rfl
  refine (h t (FileTree.ofFiles []) (.ofArgument t) rfl hdash rfl rfl ?_ ?_ hliteral
    hcompletes fun v hv => (hshown v hv).1).exit_ne_crash _ hcrash
  · simp [hlocate]
  · simp [hlocate]

end CommandLine
end Monkey
