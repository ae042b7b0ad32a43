import LimLang.Ansi
import LimLang.Options
import LimLang.Shell

/-! # The interpreter

What the interpreter does with a command line: it writes its usage, runs or shows a file, or holds a
conversation.  Everything it does is a function of the files there are and the lines that are typed;
its report says what was written and how it ended.
-/
namespace LimLang

namespace Session

/-- Writes the programs of a queue. -/
def writePrograms : List Node → SessionM Unit
  | [] => return ()
  | program :: programs => do
      match program.written (← get).host.ambientRoom with
      | .ok text => write (text ++ "\n")
      | .error crash => throw (.crash crash)
      writePrograms programs

/-- Loads the session's file and runs it, or shows it. -/
def interpret (files : Files) (showTree : Bool) : SessionM Unit := do
  load files false
  if showTree then writePrograms (← get).queue else run

end Session

namespace Shell

/-- A conversation: each line is taken after a prompt, and the end of the input is a line too. -/
def converse : List String → ShellM Unit
  | [] => do
      inSession (Session.write (← get).prompt)
      let _ ← feed "EOF"
  | line :: lines => do
      inSession (Session.write (← get).prompt)
      if ← feed line then return ()
      else converse lines

end Shell

namespace Interpreter

/-- Everything a session wrote, with the report on how it ended. -/
def conclude (session : Session) (stop : Option Stop) : Report :=
  match stop with
  | none => { output := session.world.output, stop := none }
  | some stop =>
      let report := session.reporter.guard stop
      { report with output := session.world.output ++ report.output }

/-- A session on a file. -/
def onFile (reporter : Reporter) (files : Files) (path : String) (options : Options)
    (host : Host := .standard) : Report :=
  match Session.interpret files options.showTree
      (Session.initial reporter path false options.limit host) with
  | .ok () session => conclude session none
  | .error stop session => conclude session (some stop)

/-- A fresh shell. -/
def newShell (reporter : Reporter) (limit : Option Int) (host : Host := .standard) : Shell where
  session := Session.initial reporter Session.terminal true limit host

/-- A conversation in a fresh shell. -/
def onTerminal (reporter : Reporter) (lines : List String) (options : Options)
    (host : Host := .standard) : Report :=
  let talk : ShellM Unit := do
    Shell.writeLine Shell.greeting
    Shell.converse lines
  match talk (newShell reporter options.limit host) with
  | .ok () shell => conclude shell.session none
  | .error stop shell => conclude shell.session (some stop)

/-- **The interpreter**, called with some arguments, on the files there are and the lines that are
typed. -/
def call [Painter] (colour : Bool) (files : Files) (lines arguments : List String)
    (host : Host := .standard) : Report :=
  match Options.read arguments with
  | .help => { output := Options.usage, stop := some (.exit (.code 0)) }
  | .misuse => { output := "", stop := some (.exit (.code 2)) }
  | .run options =>
      let reporter : Reporter := { colour := colour && !options.noColour }
      match options.file with
      | some path => onFile reporter files path options host
      | none => onTerminal reporter lines options host

end Interpreter

end LimLang
