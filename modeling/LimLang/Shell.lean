import LimLang.Session

/-! # The shell

A shell takes lines one by one.  A line that is a command (`help`, `exit`, `EOF`) is obeyed; every
other line is source text, joined to the lines before it as long as these leave a bracket open.  A
complete text is added to the session and run, and the value it yields is written.

Lines of source text are numbered through, so that diagnostics point at the line as it was typed.
-/
namespace LimLang

/-- **A shell.** -/
structure Shell where
  session : Session
  /-- The text that is not complete yet. -/
  pending : String := ""
  /-- The number of the first line of the pending text. -/
  firstLine : Int := 1
  /-- How many lines of source text were taken. -/
  lineCount : Nat := 0
  /-- Whether the next line continues a text. -/
  continuing : Bool := false

/-- An action of a shell. -/
abbrev ShellM := EStateM Stop Shell

namespace Shell

/-- What a shell says first. -/
def greeting : String :=
  "lim interpreter :: Python backend\nType '?' or 'help' for more information."

/-- What a shell says when asked for help. -/
def help : String :=
  "Welcome to the lim interpreter!\n\n"
    ++ "lim is a small statically-flavoured language with integers, booleans, strings, arrays and \n"
    ++ "first-class functions. Statements end at a newline or ';'.\n\n"
    ++ "Try it out by typing 'x := 5'. This binds 5 to the name 'x'. Next, define a function with \n"
    ++ "'fn double(int n) int \x7b return n * 2 \x7d' and call it with 'double(x)', giving 10. \n"
    ++ "Braces, brackets and parentheses left open continue onto the next line."

/-- What a shell writes before it takes a line. -/
def prompt (shell : Shell) : String :=
  if shell.continuing then ". " else "> "

/-- An action of the shell's session. -/
def inSession {α : Type} (action : SessionM α) : ShellM α := fun shell =>
  match action shell.session with
  | .ok a session => .ok a { shell with session }
  | .error stop session => .error stop { shell with session }

/-- Writes a line. -/
def writeLine (text : String) : ShellM Unit :=
  inSession (Session.write (text ++ "\n"))

/-- Runs a complete text and writes the value it yields. -/
def execute (text : String) (firstLine : Int) : ShellM Unit := do
  let _ ← inSession (Session.add text firstLine)
  inSession Session.run
  let session := (← get).session
  if !session.results.isEmpty then
    match (← inSession Session.pop).written session.host.ambientRoom with
    | .ok text => writeLine text
    | .error crash => throw (.crash crash)

/-- Takes a line of source text. -/
def takeLine (line : String) : ShellM Unit := do
  modify fun shell =>
    { shell with
      lineCount := shell.lineCount + 1
      firstLine := if shell.pending = "" then (shell.lineCount + 1 : Nat) else shell.firstLine }
  let shell ← get
  let (text, more) := Session.joinLine line shell.pending
  if more then set { shell with pending := text, continuing := true }
  else
    set { shell with pending := "", continuing := false }
    execute text shell.firstLine

/-- Runs an action under the guard of the session's reporter. -/
def guarded (action : ShellM Unit) : ShellM Unit := fun shell =>
  match action shell with
  | .ok () shell => .ok () shell
  | .error stop shell =>
      let report := shell.session.reporter.guard stop
      let session := { shell.session with world := shell.session.world.write report.output }
      match report.stop with
      | some stop => .error stop { shell with session }
      | none => .ok () { shell with session }

/-- What a line asks of the shell. -/
inductive Request where
  /-- Nothing; the line is blank. -/
  | nothing
  | help
  | exit
  /-- The input has ended. -/
  | endOfInput
  /-- To take a line of source text. -/
  | source (line : String)
  deriving DecidableEq, Repr

/-- **What a line asks for.**  Blanks around it do not count.  A command is recognised by the word the
line starts with, whatever follows; a question mark asks for help. -/
def Request.ofLine (line : String) : Request :=
  match Text.trim line.toList with
  | [] => .nothing
  | '?' :: _ => .help
  | cs =>
      match String.ofList (cs.takeWhile Lexeme.isWordChar) with
      | "help" => .help
      | "exit" => .exit
      | "EOF" => .endOfInput
      | _ => .source (String.ofList cs)

/-- **Takes a line**, and tells whether the shell is to end. -/
def feed (line : String) : ShellM Bool := do
  match Request.ofLine line with
  | .nothing => return false
  | .help =>
      writeLine help
      return false
  | .exit => return true
  | .endOfInput =>
      writeLine ""
      return true
  | .source line =>
      guarded (takeLine line)
      return false

end Shell

end LimLang
