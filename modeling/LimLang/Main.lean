import LimLang.Interpreter

/-! # The program

The outer layer of the interpreter: it reads files and lines, writes what the interpreter wrote, and
ends with its status.
-/
namespace LimLang.Terminal

/-- Whether what is written goes to a terminal that shows colours. -/
def hasColour : IO Bool := do
  let refused := (← IO.getEnv "NO_COLOR").isSome || (← IO.getEnv "ANSI_COLORS_DISABLED").isSome
  return !refused && (← (← IO.getStdout).isTty)

/-- The bytes of a file, if it can be read. -/
def readFile? (path : String) : IO (Option (List UInt8)) := do
  try
    return some (← IO.FS.readBinFile path).toList
  catch _ => return none

/-- Writes a text at once. -/
def write (text : String) : IO Unit := do
  let out ← IO.getStdout
  out.putStr text
  out.flush

/-- The status to end with. -/
def status (stop : Option Stop) : IO UInt32 := do
  match stop with
  | none => return 0
  | some (.exit .silent) => return 0
  | some (.exit (.code n)) => return n.toNat.toUInt32
  | some (.exit (.note text)) =>
      IO.eprintln text
      return 1
  | some (.crash (.fault fault)) =>
      IO.eprintln (fault.label ++ ": " ++ fault.detail)
      return 1
  | some _ => return 1

/-- Writes what a shell has written since the last time. -/
def flush (shell : Shell) : IO Shell := do
  write shell.session.world.output
  let world := { shell.session.world with output := "" }
  return { shell with session := { shell.session with world } }

/-- A conversation with the user. -/
partial def converse (shell : Shell) : IO (Option Stop) := do
  write shell.prompt
  let line ← (← IO.getStdin).getLine
  let line := if line.isEmpty then "EOF" else line
  match Shell.feed line shell with
  | .ok stop shell =>
      let shell ← flush shell
      if stop then return none else converse shell
  | .error stop shell =>
      let report := Interpreter.conclude shell.session (some stop)
      write report.output
      return report.stop

end LimLang.Terminal

open LimLang in
/-- Interprets a file, or starts the shell. -/
def main (arguments : List String) : IO UInt32 := do
  let colour ← Terminal.hasColour
  match Options.read arguments with
  | .run { file := none, limit, noColour, .. } =>
      let shell := Interpreter.newShell { colour := colour && !noColour } limit
      Terminal.write (Shell.greeting ++ "\n")
      Terminal.status (← Terminal.converse shell)
  | invocation =>
      let file :=
        match invocation with
        | .run options => options.file
        | _ => none
      let bytes ← Terminal.readFile? (file.getD "")
      let report := Interpreter.call colour (fun _ => bytes) [] arguments
      Terminal.write report.output
      Terminal.status report.stop
