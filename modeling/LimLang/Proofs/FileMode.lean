import LimLang.Interpreter
import LimLang.Proofs.Output
import LimLang.Proofs.ReportOrder
import LimLang.Proofs.Reporting
import LimLang.Proofs.SessionSteps

/-! # Interpreting a file

What the interpreter writes when it is called with the name of a file, and how it ends.  A malformed
program is reported and never evaluated; of any other the interpreter writes the warnings, what the
program writes, and the error it ends with if it does.

A session on a file comes down to adding the file's text and running what was added
(`Session.interpret_eq`); what an evaluation writes does not depend on the warnings written before
it (`eval_appends`).
-/
namespace LimLang

/-! ## The command line -/

/-- Only what starts with a dash may be an option. -/
theorem Argument.ofString_of_head {path : String} (h : path.toList.head? ≠ some '-') :
    ofString path = .plain :=
  if_pos h

/-- A name that is not understood as an option is the file to interpret. -/
theorem Options.read_file {path : String} (h : Argument.ofString path = .plain) :
    read [path] = .run { file := some path } := by
  have hdash : path ≠ "--" := by
    rintro rfl
    have : Argument.ofString "--" = .ambiguous := rfl
    rw [this] at h
    cases h
  have hany : ([path].takeWhile (· ≠ "--")).any
      (fun argument => Argument.ofString argument = .ambiguous) = false := by
    simp [hdash, h]
  unfold read
  rw [hany, if_neg Bool.false_ne_true]
  unfold readFrom
  split
  · next heq => cases heq
  · next heq => exact absurd (List.cons.inj heq).1 hdash
  · next heq =>
    obtain ⟨rfl, rfl⟩ := List.cons.inj heq
    simp only [h]
    rfl

/-! ## The session -/

namespace Session

theorem readFile_run {files : Files} {path : String} {bytes : List UInt8} {cs : List Char}
    (hzero : '\x00' ∉ path.toList) (hfile : files path = some bytes)
    (hdecode : Text.decode bytes = .ok cs) (s : Session) :
    readFile files path s = .ok (String.ofList (Text.unifyLineEnds cs)) s := by
  rw [← Outcome.run_iff]
  unfold readFile
  have hcontains : path.toList.contains '\x00' = false := by simpa using hzero
  simp only [hcontains, hfile, hdecode]
  exact ⟨rfl, rfl⟩

section Interpret
variable {files : Files} {s : Session} {bytes : List UInt8} {cs : List Char} {parsed : Parsed}
  (hterminal : s.path ≠ terminal) (hzero : '\x00' ∉ s.path.toList)
  (hfile : files s.path = some bytes) (hdecode : Text.decode bytes = .ok cs)
include hterminal hzero hfile hdecode

/-- **A session on a readable file** adds the text of the file, and runs what was added unless that
fails. -/
theorem interpret_eq :
    interpret files false s =
      (do
        let _ ← add (String.ofList (Text.unifyLineEnds cs)) 1
        run) s := by
  have hread := readFile_run hzero hfile hdecode s
  have hload : load files false s =
      (do let _ ← add (String.ofList (Text.unifyLineEnds cs)) 1 : SessionM Unit) s := by
    unfold load
    show (if s.path ≠ terminal then _ else _ : SessionM Unit) s = _
    rw [if_pos hterminal]
    exact bind_of_ok hread _
  show EStateM.bind (load files false) (fun _ => run) s = _
  unfold EStateM.bind
  rw [hload]
  simp only [bind, EStateM.bind]
  cases add (String.ofList (Text.unifyLineEnds cs)) 1 s <;> rfl

variable (hparse : Source.parse { text := Text.unifyLineEnds cs } s.host.limits = .ok parsed)
include hparse

/-- **A malformed file is complained about and nothing is run.** -/
theorem interpret_malformed (he : parsed.errors ≠ []) :
    interpret files false s =
      .error (.complaint (.unparsable s.path parsed.errors)) (s.warned parsed) := by
  rw [interpret_eq hterminal hzero hfile hdecode]
  exact bind_of_error (add_malformed (by rwa [String.toList_ofList]) he) _

/-- The program of any other file is run, behind what was waiting. -/
theorem interpret_wellFormed (he : parsed.errors = []) :
    interpret files false s =
      run { s.warned parsed with queue := s.queue ++ [parsed.program] } := by
  rw [interpret_eq hterminal hzero hfile hdecode]
  exact bind_of_ok (add_wellFormed (by rwa [String.toList_ofList]) he) _

end Interpret

/-- Running one program that waits, under the usual limit.  The session writes what an evaluation
writes in a new world behind what it wrote before. -/
theorem run_eval {s : Session} {program : Node} {value : Value} {w : World} {text : String}
    (hq : s.queue = [program]) (hl : s.limit = none) (hw : s.world = World.initial.preceded text)
    (heval : evaluate s.host (max s.depthLimit runningLimit) program World.initial = .ok value w) :
    run s = (match value with
      | .error message =>
          .error (.ofComplaint (Complaint.runtime message))
            { s with world := w.preceded text, queue := [] }
      | .null => .ok () { s with world := w.preceded text, queue := [] }
      | value =>
          .ok () { s with
            world := w.preceded text
            queue := []
            results := s.results ++ [value] }) := by
  have hlimit : s.chosenLimit = .ok (max s.depthLimit runningLimit) := by
    unfold chosenLimit
    rw [hl]
  have hrun : evaluate s.host (max s.depthLimit runningLimit) program s.world =
      .ok value (w.preceded text) := by
    unfold evaluate at heval ⊢
    rw [hw, eval_appends, heval]
    rfl
  rw [run_single hq hlimit, hrun]
  cases value <;> rfl

end Session

/-! ## The report -/

theorem Source.pairwise_errors {source : Source} {limits : Limits} {parsed : Parsed}
    (h : source.parse limits = .ok parsed) :
    parsed.errors.Pairwise fun a b => a.line < b.line ∨ a.line = b.line ∧ a.start ≤ b.start := by
  unfold Source.parse at h
  split at h
  · obtain rfl := Except.ok.inj h
    exact Diagnostic.pairwise_inOrder _
  · cases h

/-- Nothing but getting too deep keeps a program that was parsed from coming to a result. -/
theorem Source.evaluates_of_parse {source : Source} {limits : Limits} {parsed : Parsed}
    (hparse : source.parse limits = .ok parsed) (host : Host) (limit : Nat)
    (hdeep : ∀ w, Session.evaluate host limit parsed.program World.initial ≠ .error .tooDeep w) :
    ∃ value w, Session.evaluate host limit parsed.program World.initial = .ok value w := by
  have hfits := Source.fits_of_parse (Vocabulary.anything_has fun _ => True)
    (fun _ _ => trivial) hparse
  have hyields := Eval.program_yields (host.room limit) (host.evaluationDepth limit) hfits
    World.globalScope World.sound_initial
  unfold Eval.Yields Outcome at hyields
  split at hyields
  · next value w hrun => exact ⟨value, w, hrun⟩
  · next crash w hrun =>
    rw [hyields.1] at hrun
    exact (hdeep w hrun).elim

namespace Interpreter

section Report
variable [Painter]

/-- Diagnostics about the text called `path`, each on lines of its own. -/
def listed (path : String) (severity : Severity) (ds : List Diagnostic) : String :=
  String.join (ds.map fun d => d.shown path false severity ++ "\n")

/-- A session on a file ends with a complaint: the complaint is written, and the exit status says
so. -/
theorem conclude_complaint {s : Session} {path : String} (hr : s.reporter = { path := path })
    (c : Complaint) :
    conclude s (some (.complaint c)) =
      { output := s.world.output ++
          (listed path .error c.details ++ c.summary.shown path false .error ++ "\n")
        stop := some (.exit (.code 1)) } := by
  unfold conclude
  dsimp only
  rw [hr]
  rfl

/-- A call with the name of a file reports how a session on that file ends. -/
theorem call_eq_conclude (host : Host) (files : Files) (lines : List String) {path : String}
    (hname : Argument.ofString path = .plain) :
    call false files lines [path] host =
      (match Session.interpret files false (Session.initial {} path false none host) with
      | .ok () s => conclude s none
      | .error stop s => conclude s (some stop)) := by
  unfold call
  rw [Options.read_file hname]
  rfl

/-- **The report on a file**, on any host and without colours.  The file is there, can be decoded, and
its text can be parsed at all; its name is neither an option nor that of the terminal.  If there are
errors in the text, nothing is evaluated, and the report lists the warnings, the errors in the order of
their places, and their number.  Otherwise, unless evaluation gets too deep, it lists the warnings and
what the program writes, and the error that the program ends with, if it does. -/
theorem call_file (host : Host) (files : Files) (lines : List String) (path : String)
    (bytes : List UInt8) (cs : List Char) (parsed : Parsed) (hname : Argument.ofString path = .plain)
    (hterminal : path ≠ Session.terminal) (hzero : '\x00' ∉ path.toList)
    (hfile : files path = some bytes) (hdecode : Text.decode bytes = .ok cs)
    (hparse : Source.parse { text := Text.unifyLineEnds cs } host.limits = .ok parsed) :
    let warnings := listed path .warning parsed.warnings
    let opened := Session.initial {} path false none host
    let evaluation := Session.evaluate host (max host.ambientLimit Session.runningLimit) parsed.program
      World.initial
    (parsed.errors ≠ [] →
      parsed.errors.Pairwise
        (fun a b => a.line < b.line ∨ a.line = b.line ∧ a.start ≤ b.start) ∧
      (∃ stop, Session.interpret files false opened =
        .error stop { opened with world := { World.initial with output := warnings } }) ∧
      call false files lines [path] host =
        { output := warnings ++ listed path .error parsed.errors ++
            Complaint.countText path parsed.errors.length ++ "\n"
          stop := some (.exit (.code 1)) }) ∧
    (parsed.errors = [] → (∀ w, evaluation ≠ .error .tooDeep w) →
      ∃ value w, evaluation = .ok value w ∧ call false files lines [path] host = (match value with
        | .error message =>
            { output := warnings ++ w.output ++ "error: " ++ message ++ "\n"
              stop := some (.exit (.code 1)) }
        | _ => { output := warnings ++ w.output, stop := none })) := by
  intro warnings opened evaluation
  have hwarned : opened.warned parsed =
      { opened with world := { World.initial with output := warnings } } := by
    show ({ opened with world := { World.initial with output := "" ++ warnings } } : Session) = _
    rw [String.empty_append]
  have hreport := call_eq_conclude host files lines hname
  refine ⟨fun he => ?_, fun he hdeep => ?_⟩
  · have hstop : Session.interpret files false opened =
        .error (.complaint (.unparsable path parsed.errors))
          { opened with world := { World.initial with output := warnings } } := by
      rw [← hwarned]
      exact Session.interpret_malformed (s := opened) hterminal hzero hfile hdecode hparse he
    refine ⟨Source.pairwise_errors hparse, ⟨_, hstop⟩, ?_⟩
    rw [hreport, hstop]
    dsimp only
    rw [conclude_complaint rfl, Complaint.unparsable_shown]
    simp only [Complaint.unparsable, String.append_assoc]
  · obtain ⟨value, w, heval⟩ := Source.evaluates_of_parse hparse _ _ hdeep
    let queued : Session := { opened.warned parsed with queue := [parsed.program] }
    have hrun : Session.interpret files false opened = Session.run queued :=
      Session.interpret_wellFormed (s := opened) hterminal hzero hfile hdecode hparse he
    -- What the session has written so far is in front of what an evaluation in a new world writes.
    have hworld : queued.world = World.initial.preceded warnings := by
      show (opened.warned parsed).world = _
      rw [hwarned]
      show ({ World.initial with output := warnings } : World) =
        { World.initial with output := warnings ++ "" }
      rw [String.append_empty]
    refine ⟨value, w, heval, ?_⟩
    rw [hreport, hrun, Session.run_eval rfl rfl hworld heval]
    cases value with
    | error message =>
      obtain ⟨c, hc, hdetails, hshown⟩ := Complaint.runtime_shown message path
      dsimp only
      rw [hc]
      show conclude _ (some (.complaint c)) = _
      rw [conclude_complaint rfl, hdetails, hshown]
      simp only [World.preceded, listed, List.map_nil, String.join_nil, String.empty_append,
        String.append_assoc]
    | _ => rfl

end Report

/-- A file that holds the name of a variable that was never declared. -/
theorem call_file_undeclared :
    call false (fun name => if name = "a" then some [0x78] else none) [] ["a"] =
      { output := "error: identifier not found: x\n", stop := some (.exit (.code 1)) } := by
  let x : Token := { kind := .ident, text := "x", line := 1 }
  let parsed : Parsed :=
    { program := .program [.expression x (.ident { token := x, name := "x" })]
      errors := Diagnostic.inOrder []
      warnings := [] }
  have hparse : Source.parse { text := Text.unifyLineEnds ['x'] } Host.standard.limits = .ok parsed :=
    rfl
  have heval : Session.evaluate .standard (max Host.standard.ambientLimit Session.runningLimit)
      parsed.program World.initial = .ok (.error "identifier not found: x") World.initial := rfl
  have hreport := call_file .standard (fun name => if name = "a" then some [0x78] else none) [] "a" [0x78]
    ['x'] parsed (Argument.ofString_of_head (by decide)) (by decide) (by decide) rfl rfl hparse
  obtain ⟨value, w, hvalue, hcall⟩ := hreport.2 (List.mergeSort_nil) (by rw [heval]; nofun)
  rw [heval] at hvalue
  obtain ⟨rfl, rfl⟩ : value = .error "identifier not found: x" ∧ w = World.initial := by
    injection hvalue with hv hw
    exact ⟨hv.symm, hw.symm⟩
  rw [hcall]
  rfl

/-- **A file whose name is an option is not interpreted.**  The file called `-h` can be read, holds
a well-formed program that writes nothing and comes to a result, and still something is written. -/
theorem call_file_help : ∃ (files : Files) (bytes : List UInt8) (cs : List Char) (parsed : Parsed),
    "-h" ≠ Session.terminal ∧ files "-h" = some bytes ∧ Text.decode bytes = .ok cs ∧
      Source.parse { text := Text.unifyLineEnds cs } Host.standard.limits = .ok parsed ∧
      parsed.warnings = [] ∧ parsed.errors = [] ∧
      Session.evaluate .standard (max Host.standard.ambientLimit Session.runningLimit)
        parsed.program World.initial = .ok .null World.initial ∧
      World.initial.output = "" ∧ (call false files [] ["-h"]).output ≠ "" := by
  let parsed : Parsed :=
    { program := .program [], errors := Diagnostic.inOrder [], warnings := [] }
  refine ⟨fun _ => some [], [], [], parsed, by decide, rfl, rfl, rfl, rfl, List.mergeSort_nil, rfl,
    rfl, ?_⟩
  show Options.usage ≠ ""
  decide

end Interpreter

end LimLang
