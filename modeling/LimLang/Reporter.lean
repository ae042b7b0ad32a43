import LimLang.Diagnostic

/-! # Reporting

The reporter writes diagnostics and decides what becomes of an action that stopped short.  A *fatal*
reporter ends the interpreter after a complaint.

`Reporter.guard` is what stands around every action: complaints, interrupts and too deep nesting are
written and go no further, an exit passes unchanged, and a fault is written as an internal error and
passes on.  Should the wording of a fault be no template, it is that failure which passes on instead.
-/
namespace LimLang

/-- What the interpreter ends with. -/
inductive ExitStatus where
  /-- Nothing is said about how it went. -/
  | silent
  | code (n : Int)
  | note (text : String)
  deriving DecidableEq, Repr

/-- **Why an action stopped short.** -/
inductive Stop where
  | complaint (complaint : Complaint)
  | crash (crash : Crash)
  /-- The user interrupted it. -/
  | interrupted
  /-- The interpreter is to end. -/
  | exit (status : ExitStatus)
  deriving DecidableEq, Repr

/-- Stopping with a complaint, or with the fault that kept it from being worded. -/
def Stop.ofComplaint : Except TemplateFault Complaint → Stop
  | .ok c => .complaint c
  | .error fault => .crash (.fault (.template fault))

/-- The name of the class of what stopped an action. -/
def Stop.label : Stop → String
  | .complaint c => c.summary.category.label
  | .crash .tooDeep => "RecursionError"
  | .crash (.fault fault) => fault.label
  | .interrupted => "KeyboardInterrupt"
  | .exit _ => "SystemExit"

/-- The complaint that stopped an action.  Nothing else has a line to be reported with. -/
def Stop.asComplaint : Stop → Except Fault Complaint
  | .complaint c => .ok c
  | stop => .error (.noSuchPart stop.label "line")

/-- **Who writes diagnostics, and how.** -/
structure Reporter where
  /-- Whether a complaint ends the interpreter. -/
  fatal : Bool := true
  /-- What the text under discussion is called. -/
  path : String := "<input>"
  /-- Whether the terminal has colours. -/
  colour : Bool := false
  /-- How the terminal sets texts off. -/
  [painter : Painter]

/-- What a reporter writes, and how the action goes on. -/
structure Report where
  /-- The text written. -/
  output : String
  /-- Why the action is still stopped short, if it is. -/
  stop : Option Stop
  deriving DecidableEq, Repr

namespace Reporter

/-- The full text of a diagnostic. -/
def format (r : Reporter) (d : Diagnostic) (severity : Severity) : String :=
  @Diagnostic.shown r.painter d r.path r.colour severity

/-- What is written for a warning. -/
def warn (r : Reporter) (d : Diagnostic) : String :=
  r.format d .warning ++ "\n"

/-- Writes a complaint, after the diagnostics it sums up. -/
def complain (r : Reporter) (c : Complaint) : Report where
  output :=
    String.join (c.details.map fun d => r.format d .error ++ "\n") ++ r.format c.summary .error ++ "\n"
  stop := if r.fatal then some (.exit (.code 1)) else none

/-- **Deals with an action that stopped short.** -/
def guard (r : Reporter) : Stop → Report
  | .complaint c => r.complain c
  | .interrupted => r.complain (.general [.plain "keyboard interrupt"])
  | .crash .tooDeep =>
      r.complain (.general [.plain "maximum recursion depth exceeded during evaluation"])
  | .exit status => { output := "", stop := some (.exit status) }
  | .crash (.fault fault) =>
      match Complaint.unknown fault with
      | .error failure => { output := "", stop := some (.crash (.fault (.template failure))) }
      | .ok complaint =>
          let report := r.complain complaint
          { report with stop := report.stop <|> some (.crash (.fault fault)) }

end Reporter

end LimLang
