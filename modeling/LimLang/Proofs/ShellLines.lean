import LimLang.Proofs.ShellHistory
import LimLang.Proofs.StatementCuts

/-! # A program typed into a shell

The lines of a rendered program are given to a shell one by one.  The shell holds lines back as long as
they leave a bracket open, and so it cuts the program between its statements: what it adds to its
session is one statement after the other, each with its tokens where they stand in the program
(`Shell.adds_statements`).

To say so, a shell is put on record (`Shell.Record`): what the additions to its session came to.  The
record is kept by a copy of `Shell.takeLine` and changes nothing about the shell.  While a statement is
typed the shell is in a state that is known from its lines alone (`Shell.Awaits`), whatever became of
the statements before.
-/
namespace LimLang

namespace Shell

open Session (Copies Part)

/-! ## Additions on record -/

/-- **A shell on record.** -/
structure Record where
  shell : Shell
  /-- What the additions to the session came to, in order: a program, or what stopped them. -/
  added : List (Except Stop Node)

namespace Record

/-- An action of a shell that goes on record. -/
abbrev RecordM := EStateM Stop Record

/-- The shell of a record. -/
def bare : Part Record Shell where
  view := shell
  put r shell := { r with shell }
  view_put _ _ := rfl

/-- Adds a text to the session; what comes of it is noted down. -/
def add (text : String) (firstLine : Int) : RecordM Node := fun r =>
  match inSession (Session.add text firstLine) r.shell with
  | .ok program shell => .ok program { shell, added := r.added ++ [.ok program] }
  | .error stop shell => .error stop { shell, added := r.added ++ [.error stop] }

/-- Runs a complete text and writes the value it yields. -/
def execute (text : String) (firstLine : Int) : RecordM Unit := do
  let _ ← add text firstLine
  bare.unnoted do
    inSession Session.run
    showResult

/-- Takes a line of source text. -/
def takeLine (line : String) : RecordM Unit := do
  bare.unnoted (modify fun shell =>
    { shell with
      lineCount := shell.lineCount + 1
      firstLine := if shell.pending = "" then (shell.lineCount + 1 : Nat) else shell.firstLine })
  let shell ← bare.unnoted get
  let (text, more) := Session.joinLine line shell.pending
  if more then bare.unnoted (set { shell with pending := text, continuing := true })
  else
    bare.unnoted (set { shell with pending := "", continuing := false })
    execute text shell.firstLine

/-- Runs an action under the guard of the session's reporter. -/
def guarded (action : RecordM Unit) : RecordM Unit := fun r =>
  match action r with
  | .ok () r => .ok () r
  | .error stop r => bare.unnoted (Shell.guarded (throw stop)) r

/-- The record after a line of source text, whatever became of it. -/
def after (r : Record) (line : String) : Record :=
  Session.leaves (guarded (takeLine line)) r

/-- The record of a shell before any line. -/
def opening (shell : Shell) : Record where
  shell := shell
  added := []

/-! ### Keeping a record changes nothing -/

theorem copies_add (text : String) (firstLine : Int) :
    Copies shell (inSession (Session.add text firstLine)) (add text firstLine) := by
  intro r
  unfold add
  cases inSession (Session.add text firstLine) r.shell <;> rfl

theorem copies_takeLine (line : String) : Copies shell (Shell.takeLine line) (takeLine line) := by
  refine (bare.copies_unnoted _).bind fun _ => ?_
  refine (bare.copies_unnoted _).bind fun shell => ?_
  rcases Session.joinLine line shell.pending with ⟨text, more⟩
  cases more with
  | true => exact bare.copies_unnoted _
  | false =>
    refine (bare.copies_unnoted _).bind fun _ => ?_
    exact (copies_add text shell.firstLine).bind fun _ => bare.copies_unnoted _

theorem copies_guarded {x : ShellM Unit} {y : RecordM Unit} (h : Copies shell x y) :
    Copies shell (Shell.guarded x) (guarded y) := by
  intro r
  unfold guarded
  have hx := h r
  cases hy : y r with
  | ok a r' =>
    rw [hy] at hx
    simp only [Shell.guarded, hx, Session.shown]
  | error stop r' =>
    rw [hy] at hx
    have hthrow : Shell.guarded (throw stop) r'.shell = _ := bare.copies_unnoted _ r'
    show Shell.guarded x r.shell = Session.shown bare.view _
    rw [← hthrow]
    simp only [Shell.guarded, hx, Session.shown]
    rfl

/-- **Keeping a record changes nothing.** -/
theorem shell_after (r : Record) (line : String) : (r.after line).shell = r.shell.after line :=
  (copies_guarded (copies_takeLine line)).view_leaves r

theorem shell_foldl_after (lines : List String) (r : Record) :
    (lines.foldl after r).shell = lines.foldl Shell.after r.shell := by
  induction lines generalizing r with
  | nil => rfl
  | cons line lines ih => rw [List.foldl_cons, List.foldl_cons, ih, shell_after]

end Record

/-! ## One line -/

/-- An action that leaves a session on its host. -/
def StaysOnHost {α : Type} (x : SessionM α) : Prop :=
  ∀ s, Outcome x s (fun _ t => t.host = s.host) fun _ t => t.host = s.host

theorem StaysOnHost.bind {α β : Type} {x : SessionM α} {f : α → SessionM β} (h : StaysOnHost x)
    (hf : ∀ a, StaysOnHost (f a)) : StaysOnHost (x >>= f) := by
  intro s
  rw [Outcome.bind_iff]
  refine (h s).mono (fun a t ht => ?_) fun _ _ ht => ht
  exact (hf a t).mono (fun _ _ hu => hu.trans ht) fun _ _ hu => hu.trans ht

theorem staysOnHost_runProgram (program : Node) : StaysOnHost (Session.runProgram program) := by
  intro s
  unfold Session.runProgram
  simp only [Outcome.bind_iff, Outcome.get_iff]
  split
  · rfl
  · split <;> rfl

theorem staysOnHost_runAll (programs : List Node) : StaysOnHost (Session.runAll programs) := by
  induction programs with
  | nil => exact fun _ => rfl
  | cons program programs ih =>
    exact StaysOnHost.bind (fun _ => rfl) fun _ => (staysOnHost_runProgram program).bind fun _ => ih

theorem staysOnHost_run : StaysOnHost Session.run := by
  intro s
  unfold Outcome
  cases hlimit : s.chosenLimit with
  | error crash => simp only [Session.run, hlimit]
  | ok limit =>
    have hall := staysOnHost_runAll s.queue { s with depthLimit := limit }
    unfold Outcome at hall
    split at hall
    · next hrun => simpa only [Session.run, hlimit, hrun] using hall
    · next hrun => simpa only [Session.run, hlimit, hrun] using hall

theorem staysOnHost_pop : StaysOnHost Session.pop := by
  intro s
  unfold Session.pop
  simp only [Outcome.bind_iff, Outcome.get_iff]
  cases s.results.getLast? <;> rfl

/-- An action that leaves all of a shell but its session as it is, and the session on its host. -/
def SessionOnly {α : Type} (x : ShellM α) : Prop :=
  ∀ shell, ∃ s, s.host = shell.session.host ∧ Session.leaves x shell = { shell with session := s }

theorem sessionOnly_inSession {α : Type} {action : SessionM α} (h : StaysOnHost action) :
    SessionOnly (inSession action) := by
  intro shell
  refine ⟨Session.leaves action shell.session, Session.leaves_of_outcome (h shell.session), ?_⟩
  unfold Session.leaves inSession
  cases action shell.session <;> rfl

theorem SessionOnly.bind {α β : Type} {x : ShellM α} {f : α → ShellM β} (h : SessionOnly x)
    (hf : ∀ a, SessionOnly (f a)) : SessionOnly (x >>= f) := by
  intro shell
  obtain ⟨s, hhost, hs⟩ := h shell
  unfold Session.leaves at hs ⊢
  cases hx : x shell with
  | ok a t =>
    rw [hx] at hs
    obtain ⟨s', hhost', hs'⟩ := hf a t
    unfold Session.leaves at hs'
    rw [show t = _ from hs] at hs' hhost'
    rw [bind_of_ok hx, show t = _ from hs, hs']
    exact ⟨s', hhost'.trans hhost, rfl⟩
  | error stop t =>
    rw [hx] at hs
    rw [bind_of_error hx]
    exact ⟨s, hhost, hs⟩

theorem sessionOnly_showResult : SessionOnly showResult := by
  have hnothing : ∀ {α : Type} {x : ShellM α}, (∀ shell, Session.leaves x shell = shell) →
      SessionOnly x := fun h shell => ⟨shell.session, rfl, h shell⟩
  unfold showResult
  refine SessionOnly.bind (hnothing fun _ => rfl) fun shell => ?_
  dsimp only
  split
  · refine (sessionOnly_inSession staysOnHost_pop).bind fun value => ?_
    split
    · exact sessionOnly_inSession fun _ => rfl
    · exact hnothing fun _ => rfl
  · exact hnothing fun _ => rfl

namespace Record

variable {r : Record} {line text : String}

/-- The guard writes at most. -/
theorem leaves_guarded (x : RecordM Unit) (r : Record) :
    ∃ w, Session.leaves (guarded x) r =
      { Session.leaves x r with shell := (Session.leaves x r).shell.answered w } := by
  cases hx : x r with
  | ok a r' =>
    have hguard : guarded x r = .ok () r' := by simp only [guarded, hx]
    refine ⟨r'.shell.session.world, ?_⟩
    simp only [Session.leaves, hguard, hx]
    rfl
  | error stop r' =>
    have hguard : guarded x r = bare.unnoted (Shell.guarded (throw stop)) r' := by simp only [guarded, hx]
    obtain ⟨w, hw⟩ := Shell.leaves_guarded (throw stop) r'.shell
    have hend : Session.leaves (bare.unnoted (Shell.guarded (throw stop))) r' =
        { r' with shell := _ } := bare.leaves_unnoted _ r'
    rw [show bare.view r' = r'.shell from rfl, hw] at hend
    refine ⟨w, ?_⟩
    unfold Session.leaves at hend ⊢
    rw [hguard, hend, hx]
    rfl

theorem add_of_ok {firstLine : Int} {program : Node} {t : Session}
    (h : Session.add text firstLine r.shell.session = .ok program t) :
    add text firstLine r =
      .ok program { shell := { r.shell with session := t }, added := r.added ++ [.ok program] } := by
  unfold add
  rw [inSession_ok h]

theorem takeLine_more (h : Session.joinLine line r.shell.pending = (text, true)) :
    takeLine line r = .ok () { r with shell := r.shell.counted text } := by
  unfold takeLine counted
  rw [bind_of_ok (show bare.unnoted _ r = .ok _ _ from rfl),
    bind_of_ok (show bare.unnoted get _ = .ok _ _ from rfl)]
  dsimp only [bare]
  rw [h, decide_eq_true (ne_empty_of_joinLine h)]
  rfl

theorem takeLine_complete (h : Session.joinLine line r.shell.pending = (text, false)) :
    takeLine line r = execute text r.shell.nextFirst { r with shell := r.shell.counted "" } := by
  unfold takeLine
  rw [bind_of_ok (show bare.unnoted _ r = .ok _ _ from rfl),
    bind_of_ok (show bare.unnoted get _ = .ok _ _ from rfl)]
  dsimp only [bare]
  rw [h]
  rfl

/-- A line that leaves a bracket open is held back. -/
theorem after_more (h : Session.joinLine line r.shell.pending = (text, true)) :
    r.after line = { r with shell := r.shell.counted text } := by
  unfold after guarded Session.leaves
  simp only [takeLine_more h]

/-- **A line that completes a text** adds it to the session, and nothing else.  The shell is then ready
for the next text, whatever becomes of this one. -/
theorem after_complete (h : Session.joinLine line r.shell.pending = (text, false)) {program : Node}
    {t : Session} (hadd : Session.add text r.shell.nextFirst r.shell.session = .ok program t) :
    ∃ s, s.host = t.host ∧ r.after line =
      { shell := { r.shell.counted "" with session := s }, added := r.added ++ [.ok program] } := by
  -- What comes after the addition leaves all but the session alone, and so does the guard.
  have hrest : SessionOnly (do inSession Session.run; showResult) :=
    (sessionOnly_inSession staysOnHost_run).bind fun _ => sessionOnly_showResult
  obtain ⟨s, hhost, hs⟩ := hrest { r.shell.counted "" with session := t }
  have hadded := add_of_ok (r := { r with shell := r.shell.counted "" }) hadd
  have hleaves : Session.leaves (takeLine line) r =
      { shell := { r.shell.counted "" with session := s }, added := r.added ++ [.ok program] } := by
    have hunnoted : Session.leaves (bare.unnoted do inSession Session.run; showResult)
        { shell := { r.shell.counted "" with session := t }, added := r.added ++ [.ok program] } =
          { shell := _, added := r.added ++ [.ok program] } := bare.leaves_unnoted _ _
    rw [show bare.view _ = { r.shell.counted "" with session := t } from rfl, hs] at hunnoted
    unfold Session.leaves at hunnoted ⊢
    rw [takeLine_complete h, execute, bind_of_ok hadded]
    exact hunnoted
  obtain ⟨w, hw⟩ := leaves_guarded (takeLine line) r
  rw [hleaves] at hw
  exact ⟨{ s with world := w }, hhost, hw⟩

end Record

/-! ## Many lines -/

/-- The text of some lines. -/
def textOf (lines : List String) : String :=
  String.join (lines.map (· ++ "\n"))

theorem textOf_concat (lines : List String) (line : String) :
    textOf (lines ++ [line]) = textOf lines ++ line ++ "\n" := by
  simp [textOf, String.append_assoc]

theorem textOf_eq_empty_iff {lines : List String} : textOf lines = "" ↔ lines = [] := by
  rcases List.eq_nil_or_concat lines with rfl | ⟨init, line, rfl⟩
  · exact ⟨fun _ => rfl, fun _ => rfl⟩
  · rw [List.concat_eq_append, textOf_concat]
    refine ⟨fun h => ?_, fun h => absurd h (by simp)⟩
    have hlength := congrArg String.length h
    simp at hlength

/-- **A shell that holds back `lines`**, the first of them being the one after line `count`. -/
structure Awaits (host : Host) (count : Nat) (lines : List String) (shell : Shell) : Prop where
  host_eq : shell.session.host = host
  lineCount : shell.lineCount = count + lines.length
  pending : shell.pending = textOf lines
  continuing : shell.continuing = decide (lines ≠ [])
  nextFirst : shell.nextFirst = count + 1

namespace Awaits

variable {host : Host} {count : Nat} {lines : List String} {shell : Shell}

theorem initial (opened : Session) : Awaits opened.host 0 [] { session := opened } :=
  ⟨rfl, rfl, rfl, rfl, rfl⟩

theorem pending_eq_empty_iff (h : shell.Awaits host count lines) : shell.pending = "" ↔ lines = [] := by
  rw [h.pending, textOf_eq_empty_iff]

theorem prompt_eq_iff (h : shell.Awaits host count lines) : shell.prompt = ". " ↔ shell.pending ≠ "" := by
  rw [Ne, h.pending_eq_empty_iff, prompt, h.continuing]
  by_cases hlines : lines = [] <;> simp [hlines]

theorem joinLine (h : shell.Awaits host count lines) (line : String) :
    Session.joinLine line shell.pending = (textOf (lines ++ [line]),
      decide (0 < Session.openBrackets (textOf (lines ++ [line])))) := by
  rw [textOf_concat, h.pending]
  rfl

/-- One line more is held back. -/
theorem more (h : shell.Awaits host count lines) (line : String) :
    (shell.counted (textOf (lines ++ [line]))).Awaits host count (lines ++ [line]) := by
  have hne : textOf (lines ++ [line]) ≠ "" := fun h => by simpa using textOf_eq_empty_iff.1 h
  refine ⟨h.host_eq, ?_, rfl, ?_, ?_⟩
  · show shell.lineCount + 1 = _
    rw [h.lineCount, List.length_append, List.length_singleton, Nat.add_assoc]
  · show decide (textOf (lines ++ [line]) ≠ "") = _
    rw [decide_eq_true hne, decide_eq_true (by simp)]
  · rw [Shell.nextFirst, if_neg (show (shell.counted (textOf (lines ++ [line]))).pending ≠ "" from hne)]
    exact h.nextFirst

/-- The lines held back, and one more, are a text. -/
theorem complete (h : shell.Awaits host count lines) {s : Session} (hs : s.host = host) :
    Awaits host (count + lines.length + 1) [] { shell.counted "" with session := s } := by
  refine ⟨hs, ?_, rfl, rfl, ?_⟩
  · show shell.lineCount + 1 = _
    rw [h.lineCount]
    rfl
  · show ((shell.lineCount + 1 + 1 : Nat) : Int) = _
    rw [h.lineCount]
    rfl

end Awaits

/-- Lines that leave a bracket open, each of them, are held back. -/
theorem Record.foldl_held {r : Record} {host : Host} {count : Nat} (hr : r.shell.Awaits host count [])
    {lines : List String} (h : ∀ i, 0 < i → i ≤ lines.length →
      0 < Session.openBrackets (textOf (lines.take i))) :
    (lines.foldl after r).shell.Awaits host count lines ∧ (lines.foldl after r).added = r.added := by
  induction lines using List.reverseRecOn with
  | nil => exact ⟨hr, rfl⟩
  | append_singleton lines line ih =>
    have hbefore := ih fun i hpos hle => by
      have := h i hpos (by rw [List.length_append]; omega)
      rwa [List.take_append_of_le_length hle] at this
    have hopen := h (lines ++ [line]).length (by simp) (Nat.le_refl _)
    rw [List.take_length] at hopen
    obtain ⟨hshell, hadded⟩ := hbefore
    have hjoin := hshell.joinLine line
    rw [decide_eq_true hopen] at hjoin
    rw [List.foldl_concat, Record.after_more hjoin]
    exact ⟨hshell.more line, hadded⟩

/-! ## The lines of a text -/

/-- The lines of a text. -/
def linesOf (text : String) : List String :=
  (Source.splitLines text.toList).map String.ofList

theorem flatMap_splitLines (cs : List Char) :
    (Source.splitLines cs).flatMap (· ++ ['\n']) = cs ++ ['\n'] := by
  induction cs with
  | nil => rfl
  | cons c cs ih =>
    by_cases hc : c = '\n'
    · rw [Source.splitLines, if_pos hc, List.flatMap_cons, ih, hc]
      rfl
    · rw [Source.splitLines, if_neg hc]
      cases hlines : Source.splitLines cs with
      | nil =>
        have hlength := Source.length_splitLines cs
        rw [hlines] at hlength
        cases hlength
      | cons line lines =>
        rw [hlines, List.flatMap_cons] at ih
        rw [List.flatMap_cons, List.cons_append, List.cons_append, ih, List.cons_append]

theorem textOf_map (lines : List (List Char)) :
    textOf (lines.map String.ofList) = String.ofList (lines.flatMap (· ++ ['\n'])) := by
  refine String.toList_injective ?_
  simp [textOf, String.toList_join, List.flatMap_def, Function.comp_def]

theorem textOf_linesOf (text : String) : textOf (linesOf text) = text ++ "\n" := by
  refine String.toList_injective ?_
  rw [linesOf, textOf_map, flatMap_splitLines]
  simp

/-- Lines, as a text, end with a newline. -/
theorem exists_flatMap {lines : List (List Char)} (h : lines ≠ []) :
    ∃ cs, lines.flatMap (· ++ ['\n']) = cs ++ ['\n'] := by
  rcases List.eq_nil_or_concat lines with rfl | ⟨init, line, rfl⟩
  · exact absurd rfl h
  · refine ⟨init.flatMap (· ++ ['\n']) ++ line, ?_⟩
    simp

/-- **The first lines of a text that no newline cuts** leave a bracket open. -/
theorem openBrackets_take {text : String} (h : Uncut text.toList) {i : Nat} (hpos : 0 < i)
    (hlt : i < (linesOf text).length) :
    0 < Session.openBrackets (textOf ((linesOf text).take i)) := by
  rw [linesOf, List.length_map] at hlt
  have hfirst : (Source.splitLines text.toList).take i ≠ [] := by
    rw [Ne, List.take_eq_nil_iff]
    rintro (hzero | hnil)
    · omega
    · rw [hnil] at hlt
      cases hlt
  have hlast : (Source.splitLines text.toList).drop i ≠ [] := by
    rw [Ne, List.drop_eq_nil_iff]
    omega
  obtain ⟨cs, hcs⟩ := exists_flatMap hfirst
  obtain ⟨more, hmore⟩ := exists_flatMap hlast
  have hall := flatMap_splitLines text.toList
  rw [← List.take_append_drop i (Source.splitLines text.toList), List.flatMap_append, hcs, hmore,
    ← List.append_assoc] at hall
  have htext : text.toList = cs ++ '\n' :: more := by
    rw [← List.append_cancel_right hall]
    simp
  rw [htext] at h
  rw [linesOf, ← List.map_take, textOf_map, hcs]
  exact Source.openBrackets_pos h

theorem openBrackets_linesOf {text : String} (h : Uncut text.toList) :
    Session.openBrackets (textOf (linesOf text)) = 0 := by
  rw [linesOf, textOf_map, flatMap_splitLines]
  exact Source.openBrackets_eq_zero h

/-! ## Statements -/

theorem length_linesOf_pos (text : String) : 0 < (linesOf text).length := by
  rw [linesOf, List.length_map, Source.length_splitLines]
  omega

/-- Where the lines of statements end: before the first of them, or behind it and some of the others. -/
theorem exists_length_cons {i : Nat} {statement : Node} {statements : List Node} :
    (∃ j, i = (((statement :: statements).take j).flatMap fun s => linesOf s.render).length) ↔
      i = 0 ∨ ∃ j, i = (linesOf statement.render).length +
        ((statements.take j).flatMap fun s => linesOf s.render).length := by
  refine ⟨?_, ?_⟩
  · rintro ⟨j, rfl⟩
    cases j with
    | zero => exact .inl rfl
    | succ j => exact .inr ⟨j, by rw [List.take_succ_cons, List.flatMap_cons, List.length_append]⟩
  · rintro (rfl | ⟨j, rfl⟩)
    · exact ⟨0, rfl⟩
    · exact ⟨j + 1, by rw [List.take_succ_cons, List.flatMap_cons, List.length_append]⟩

namespace Record

/-- While the lines of `statements` are typed, the shell has none held back just where one of the
statements ends. -/
def Pauses (r : Record) (statements : List Node) : Prop :=
  let lines := statements.flatMap fun s => linesOf s.render
  ∀ i ≤ lines.length, ∃ host first held,
    ((lines.take i).foldl after r).shell.Awaits host first held ∧
    (held = [] ↔ ∃ j, i = ((statements.take j).flatMap fun s => linesOf s.render).length)

variable {r : Record} {host : Host} {count : Nat} (hr : r.shell.Awaits host count [])
include hr

section Statement
variable {text : String} (htext : Uncut text.toList)
include htext

/-- While a statement is typed, its lines are held back. -/
theorem foldl_take {i : Nat} (hlt : i < (linesOf text).length) :
    (((linesOf text).take i).foldl after r).shell.Awaits host count ((linesOf text).take i) ∧
      (((linesOf text).take i).foldl after r).added = r.added := by
  refine foldl_held hr fun j hpos hle => ?_
  rw [List.length_take] at hle
  rw [List.take_take, Nat.min_eq_left (by omega)]
  exact openBrackets_take htext hpos (by omega)

/-- **A statement that is typed** is added when its last line is taken. -/
theorem foldl_statement {program : Node}
    (hparse : Source.parse { text := text.toList ++ ['\n'], firstLine := count + 1 } host.limits =
      .ok { program, errors := [], warnings := [] }) :
    ((linesOf text).foldl after r).shell.Awaits host (count + (linesOf text).length) [] ∧
      ((linesOf text).foldl after r).added = r.added ++ [.ok program] := by
  have hpos := length_linesOf_pos text
  obtain ⟨hshell, hadded⟩ := foldl_take hr htext (show (linesOf text).length - 1 < _ by omega)
  rcases List.eq_nil_or_concat (linesOf text) with hnil | ⟨init, line, hlines⟩
  · rw [hnil] at hpos
    cases hpos
  rw [List.concat_eq_append] at hlines
  have hinit : (linesOf text).take ((linesOf text).length - 1) = init := by simp [hlines]
  rw [hinit] at hshell hadded
  have hjoin := hshell.joinLine line
  rw [← hlines, openBrackets_linesOf htext, decide_eq_false (by omega), textOf_linesOf] at hjoin
  have hnumbered : Source.parse
      { text := (text ++ "\n").toList, firstLine := (init.foldl after r).shell.nextFirst }
      (init.foldl after r).shell.session.host.limits =
        .ok { program, errors := [], warnings := [] } := by
    rw [hshell.nextFirst, hshell.host_eq, String.toList_append]
    exact hparse
  obtain ⟨s, hhost, hs⟩ := after_complete hjoin (Session.add_wellFormed hnumbered rfl)
  rw [hlines, List.foldl_concat, hs, hadded, List.length_append, List.length_singleton]
  exact ⟨hshell.complete (hhost.trans hshell.host_eq), rfl⟩

end Statement

theorem pauses_cons {statement : Node} (hst : Uncut statement.render.toList) {statements : List Node}
    (h : ((linesOf statement.render).foldl after r).Pauses statements) :
    r.Pauses (statement :: statements) := by
  intro i hi
  rw [exists_length_cons]
  rw [List.flatMap_cons, List.length_append] at hi
  have hpos := length_linesOf_pos statement.render
  by_cases hlt : i < (linesOf statement.render).length
  · -- In the middle of the first statement.
    rw [List.flatMap_cons, List.take_append_of_le_length (Nat.le_of_lt hlt)]
    refine ⟨host, count, _, (foldl_take hr hst hlt).1, ?_⟩
    rw [List.take_eq_nil_iff]
    refine ⟨?_, ?_⟩
    · rintro (rfl | hnil)
      · exact .inl rfl
      · rw [hnil] at hpos
        cases hpos
    · rintro (rfl | ⟨j, rfl⟩)
      · exact .inl rfl
      · omega
  · obtain ⟨k, rfl⟩ : ∃ k, i = (linesOf statement.render).length + k :=
      Nat.exists_eq_add_of_le (Nat.le_of_not_lt hlt)
    obtain ⟨host, first, held, hawaits, hheld⟩ := h k (by omega)
    rw [List.flatMap_cons, List.take_length_add_append, List.foldl_append]
    refine ⟨host, first, held, hawaits, hheld.trans ⟨?_, ?_⟩⟩
    · rintro ⟨j, rfl⟩
      exact .inr ⟨j, rfl⟩
    · rintro (hzero | ⟨j, hj⟩)
      · omega
      · exact ⟨j, by omega⟩

/-- **Statements that are typed** are added one by one, each as it is read in the text of them all, and
lines are held back between their ends. -/
theorem foldl_statements {statements : List Node}
    (hfits : ∀ s ∈ statements, s.Fits Vocabulary.oneLine .statement) (hdigits : 19 ≤ host.limits.digits)
    (hnesting : Node.levelsAll statements ≤ host.limits.nesting) {source : Source}
    (htext : source.text = statements.flatMap fun s => s.render.toList ++ ['\n'])
    (hfirst : source.firstLine = count + 1) :
    ∃ nodes t, Parse.program host.limits (Parse.initial source.tokens source.endToken) =
        .ok (.program nodes) t ∧
      ((statements.flatMap fun s => linesOf s.render).foldl after r).added =
        r.added ++ nodes.map (fun node => .ok (.program [node])) ∧
      r.Pauses statements := by
  induction statements generalizing r count source with
  | nil =>
    refine ⟨[], _, Source.program_of_nil htext, (List.append_nil _).symm, fun i hi => ?_⟩
    obtain rfl : i = 0 := Nat.le_zero.1 hi
    exact ⟨host, count, [], hr, fun _ => ⟨0, rfl⟩, fun _ => rfl⟩
  | cons statement statements ih =>
    obtain ⟨hst, hsts⟩ := List.forall_mem_cons.1 hfits
    obtain ⟨hlevels, hothers⟩ := Nat.max_le.1 hnesting
    have huncut : Uncut statement.render.toList := hst.uncut (by decide)
    let s : Source := { text := statement.render.toList, firstLine := count + 1 }
    let rest := statements.flatMap fun s => s.render.toList ++ ['\n']
    have hjoin : source = s.join rest := by
      obtain ⟨text, firstLine⟩ := source
      obtain rfl : firstLine = count + 1 := hfirst
      rw [show text = _ from htext]
      simp [Source.join, s, rest]
    obtain ⟨node, hpiece, hcons⟩ := Source.program_cons (s := s) hst.standard rfl hdigits hlevels
    obtain ⟨hshell, hadded⟩ := foldl_statement hr huncut hpiece
    have hbehind : (s.behind rest).firstLine =
        (count + (linesOf statement.render).length : Nat) + 1 := by
      rw [linesOf, List.length_map, Source.length_splitLines]
      simp only [Source.behind, s]
      omega
    obtain ⟨nodes, t, hrun, hall, hpauses⟩ := ih hshell hsts hothers rfl hbehind
    refine ⟨node :: nodes, t, ?_, ?_, pauses_cons hr huncut hpauses⟩
    · rw [hjoin]
      exact hcons rest nodes t hrun
    · rw [List.flatMap_cons, List.foldl_append, hall, hadded, List.map_cons, List.append_assoc]
      rfl

end Record

/-! ## Programs -/

section Rendered
variable {statements : List Node} (hne : statements ≠ [])
include hne

/-- The lines of a program are those of its statements. -/
theorem linesOf_render :
    linesOf (Node.program statements).render = statements.flatMap fun s => linesOf s.render := by
  induction statements with
  | nil => exact absurd rfl hne
  | cons statement statements ih =>
    by_cases hlast : statements = []
    · rw [hlast, Node.render_single, List.flatMap_singleton]
    · rw [List.flatMap_cons, ← ih hlast, linesOf, Node.toList_render_cons statement hlast,
        Source.splitLines_append, List.map_append]
      rfl

theorem flatMap_render :
    (statements.flatMap fun s => s.render.toList ++ ['\n']) =
      (Node.program statements).render.toList ++ ['\n'] := by
  induction statements with
  | nil => exact absurd rfl hne
  | cons statement statements ih =>
    by_cases hlast : statements = []
    · rw [hlast, Node.render_single, List.flatMap_singleton]
    · rw [List.flatMap_cons, ih hlast, Node.toList_render_cons statement hlast]
      simp

end Rendered

/-- **A program that is typed is cut between its statements.**  The lines of a rendered program are
given to a shell one by one; it is enough that as many levels of nesting are allowed as the program has.
Then the program as a whole is read back without anything wrong or suspicious.  For each statement the
session is added to once, and what is returned is that statement alone, as it is read in the program as
a whole, with its tokens where they stand there.  The shell asks for a continuation, and holds text
back, after those lines that do not end a statement. -/
theorem adds_statements (p : Node) (hp : p.Fits Vocabulary.oneLine .program) (hne : p.statements ≠ [])
    (opened : Session) (hdigits : 19 ≤ opened.host.limits.digits)
    (hnesting : p.levels ≤ opened.host.limits.nesting) :
    let source : Source := { text := p.render.toList }
    let lines := linesOf p.render
    let record := lines.foldl Record.after (.opening { session := opened })
    let fed (i : Nat) : Shell := (lines.take i).foldl after { session := opened }
    ∃ whole, source.parse opened.host.limits = .ok { program := whole, errors := [], warnings := [] } ∧
      whole.same p ∧ whole.statements.length = p.statements.length ∧
      record.shell = lines.foldl after { session := opened } ∧
      record.added = whole.statements.map (fun st => .ok (.program [st])) ∧
      ∀ i ≤ lines.length, ((fed i).prompt = ". " ↔ (fed i).pending ≠ "") ∧
        ((fed i).pending ≠ "" ↔
          ¬ ∃ j, i = ((p.statements.take j).flatMap fun st => linesOf st.render).length) := by
  intro source lines record fed
  obtain ⟨statements, rfl, hfits⟩ : ∃ statements, p = .program statements ∧
      ∀ st ∈ statements, st.Fits Vocabulary.oneLine .statement := by
    cases hp with
    | program h => exact ⟨_, rfl, h⟩
  replace hne : statements ≠ [] := hne
  obtain ⟨nodes, halike, hrun⟩ :=
    Source.program_of_levels (s := source) hp.standard rfl hdigits hnesting
  obtain ⟨he, hw⟩ := Source.faultless_of_render (s := source) hp.standard rfl
  -- The lines end with a newline, which the text of the program lacks.
  have hended := Source.program_join [] he hw hrun rfl
  rw [Source.program_of_nil (s := source.behind []) rfl] at hended
  obtain ⟨nodes', t, hrun', hadded, hpauses⟩ := Record.foldl_statements
    (show (Record.opening { session := opened }).shell.Awaits opened.host 0 [] from .initial opened)
    hfits hdigits hnesting (show (source.join []).text = _ from (flatMap_render hne).symm) rfl
  obtain rfl : nodes' = nodes := by
    rw [hended] at hrun'
    injection hrun' with hnodes
    injection hnodes with hnodes
    rw [← hnodes]
    exact List.append_nil nodes
  rw [Record.Pauses, ← linesOf_render hne] at hpauses
  rw [← linesOf_render hne] at hadded
  refine ⟨.program nodes', Source.parse_faultless he hw hrun rfl, halike.1,
    Node.length_eq_of_sameAll halike.1, Record.shell_foldl_after lines _, hadded, fun i hi => ?_⟩
  obtain ⟨host, first, held, hawaits, hheld⟩ := hpauses i hi
  rw [Record.shell_foldl_after] at hawaits
  exact ⟨hawaits.prompt_eq_iff, not_congr (hawaits.pending_eq_empty_iff.trans hheld)⟩

/-- A function over three lines, and a call of it. -/
theorem adds_statements_function : ∃ (p whole : Node) (opened : Session),
    p.render = "fn f() int \x7b\nreturn 1\n\x7d\nf()" ∧ p.Fits Vocabulary.oneLine .program ∧
      p.statements ≠ [] ∧ opened.host = .standard ∧ p.levels = 3 ∧
      Source.parse { text := p.render.toList } opened.host.limits =
        .ok { program := whole, errors := [], warnings := [] } ∧
      whole.statements.length = 2 ∧
      ((linesOf p.render).foldl Record.after (.opening { session := opened })).added =
        whole.statements.map (fun st => .ok (.program [st])) ∧
      ∀ i ≤ 4, (((linesOf p.render).take i).foldl after { session := opened }).prompt = ". " ↔
        i = 1 ∨ i = 2 := by
  let t : Token := { kind := .illegal, text := "" }
  let function : Node := .function t "f" [] (some "int") (.block t [.returnValue t (.int t 1)])
  let call : Node := .expression t (.call t (.ident { token := t, name := "f" }) [])
  let p : Node := .program [function, call]
  have hf : Vocabulary.IsName "f" := ⟨'f', [], rfl, rfl, rfl, rfl⟩
  have hp : p.Fits Vocabulary.oneLine .program := by
    refine .program ?_
    simp only [List.forall_mem_cons]
    refine ⟨.function hf (by simp) ?_ (.block ?_), .expression (.call (.ident ⟨hf, rfl⟩) (by simp)),
      by simp⟩
    · intro type htype
      obtain rfl := Option.mem_some_iff.1 htype
      exact ⟨.int, .inl rfl⟩
    · rw [List.forall_mem_singleton]
      exact .returnValue (.int (by simp [Vocabulary.oneLine, Vocabulary.standard, MachineInt.bound]))
  have hfunction : function.render = "fn f() int \x7b\nreturn 1\n\x7d" := by
    simp only [function, Node.render, Node.renderAll, Node.signature, Node.resultText,
      Ident.declarations]
    decide
  have hcall : call.render = "f()" := by
    simp only [call, Node.render, Node.renderAll]
    decide
  have hrender : p.render = "fn f() int \x7b\nreturn 1\n\x7d\nf()" := by
    rw [Node.render_program, List.map_cons, List.map_singleton, hfunction, hcall]
    decide
  have hlines : (linesOf function.render).length = 3 ∧ (linesOf call.render).length = 1 := by
    rw [hfunction, hcall]
    decide
  let opened := Session.initial {} Session.terminal true none
  have hlevels : p.levels = 3 := rfl
  obtain ⟨whole, hwhole, -, hlength, -, hadded, hprompt⟩ :=
    adds_statements p hp (List.cons_ne_nil _ _) opened (by decide) (by rw [hlevels]; decide)
  refine ⟨p, whole, opened, hrender, hp, List.cons_ne_nil _ _, rfl, hlevels, hwhole, hlength, hadded,
    fun i hi => ?_⟩
  have hboundary : (∃ j, i = ((p.statements.take j).flatMap fun st => linesOf st.render).length) ↔
      i = 0 ∨ i = 3 ∨ i = 4 := by
    rw [show p.statements = [function, call] from rfl, exists_length_cons, hlines.1]
    have hlast : ∀ j, (([call].take (j + 1)).flatMap fun st => linesOf st.render).length = 1 := by
      intro j
      rw [List.take_succ_cons, List.take_nil, List.flatMap_singleton, hlines.2]
    refine or_congr_right ⟨?_, ?_⟩
    · rintro ⟨_ | j, hj⟩
      · exact .inl hj
      · exact .inr (by rw [hj, hlast])
    · rintro (h | h)
      · exact ⟨0, h⟩
      · exact ⟨1, by rw [h, hlast]⟩
  obtain ⟨hasks, hends⟩ := hprompt i (by rw [hrender]; exact hi)
  rw [hasks, hends, hboundary]
  omega

end Shell

end LimLang
