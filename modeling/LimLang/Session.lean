import LimLang.Evaluation
import LimLang.Parse.Program
import LimLang.Reporter
import LimLang.Text.Utf8

/-! # Sessions

A session parses source texts and runs them in one world.  Programs that were added wait in a queue;
running takes them from the queue one by one and keeps the values of those that have one.  A program is
taken from the queue before it is evaluated, so none is run twice, and a malformed text never reaches
the queue.

How deep evaluation may be nested follows from a *depth limit*, which counts the interpreter's own
activations.  Outside of `Session.run` the limit is the ambient one; running raises it, or takes the
one the session was opened with, and restores the ambient limit afterwards.  A limit that cannot be set
leaves everything as it was.

What a depth limit comes to is a matter of the machine: it is told by the session's *host*.
-/
namespace LimLang

/-- **The machine that a session runs on**, as far as it bounds how deep things may be nested. -/
structure Host where
  /-- The limits on what can be parsed. -/
  limits : Limits
  /-- The depth limit while parsing and writing. -/
  ambientLimit : Nat
  /-- How many activations are in use when evaluation starts. -/
  activeDepth : Nat
  /-- How many evaluations may be nested in one another under a depth limit. -/
  evaluationDepth : Nat → Nat

namespace Host

/-- The room there is for writing under a depth limit. -/
def room (host : Host) (limit : Nat) : Room :=
  some (limit - host.activeDepth)

/-- The room there is for writing under the ambient limit. -/
def ambientRoom (host : Host) : Room :=
  host.room host.ambientLimit

end Host

/-- **A session.** -/
structure Session where
  /-- What it runs on. -/
  host : Host
  /-- Who writes its diagnostics. -/
  reporter : Reporter
  /-- What its texts are called. -/
  path : String
  /-- The depth limit for running, if one was asked for. -/
  limit : Option Int
  /-- The depth limit in force. -/
  depthLimit : Nat
  /-- Variables, and what was written. -/
  world : World
  /-- Programs that wait to be run. -/
  queue : List Node
  /-- The values of the programs run so far, except null. -/
  results : List Value

/-- The name of the text that is typed in. -/
def Session.terminal : String := "<in>"

/-- The least depth limit while running, unless another was asked for. -/
def Session.runningLimit : Nat := 10000

/-- The usual depth limit while parsing and writing. -/
def Session.ambientLimit : Nat := 1000

/-- How many activations are usually in use when evaluation starts. -/
def Session.activeDepth : Nat := 10

/-- How many evaluations may usually be nested in one another under a depth limit.  One evaluation
takes between one and two activations. -/
def Session.evaluationDepth (limit : Nat) : Nat :=
  (limit - activeDepth) * 7 / 10

/-- The usual host.  Its figures were measured. -/
def Host.standard : Host where
  limits := Limits.standard
  ambientLimit := Session.ambientLimit
  activeDepth := Session.activeDepth
  evaluationDepth := Session.evaluationDepth

/-- The room there usually is for writing. -/
def Session.ambientRoom : Room :=
  Host.standard.ambientRoom

/-- **An action of a session.**  What it did before it stopped short is kept. -/
abbrev SessionM := EStateM Stop Session

/-- What is found under a file name: the bytes of a file, or nothing that can be read. -/
abbrev Files := String → Option (List UInt8)

namespace Session

/-- A session in which nothing has happened.  An interactive session survives complaints. -/
def initial (reporter : Reporter) (path : String) (interactive : Bool) (limit : Option Int)
    (host : Host := .standard) : Session where
  host := host
  reporter := { reporter with path := path, fatal := reporter.fatal && !interactive }
  path := path
  limit := limit
  depthLimit := host.ambientLimit
  world := World.initial
  queue := []
  results := []

/-- Writes a text. -/
def write (text : String) : SessionM Unit :=
  modify fun s => { s with world := s.world.write text }

/-- Parses a text whose first line has the number `firstLine` and puts it into the queue. -/
def add (text : String) (firstLine : Int) : SessionM Node := do
  let source : Source := { text := text.toList, firstLine }
  let s ← get
  match source.parse s.host.limits with
  | .error crash => throw (.crash crash)
  | .ok parsed =>
      write (String.join (parsed.warnings.map s.reporter.warn))
      if parsed.errors.isEmpty then
        modify fun s => { s with queue := s.queue ++ [parsed.program] }
        return parsed.program
      else throw (.complaint (.unparsable s.path parsed.errors))

/-- Reads the text of a file. -/
def readFile (files : Files) (path : String) : SessionM String := do
  if path.toList.contains '\x00' then throw (.crash (.fault .zeroInName))
  match files path with
  | none => throw (.complaint (.unreadable path))
  | some bytes =>
      match Text.decode bytes with
      | .error fault => throw (.crash (.fault (.notText fault)))
      | .ok cs => return String.ofList (Text.unifyLineEnds cs)

/-- Adds the file that the session is named for.  The name of the terminal is no file name; only an
interactive session may have it. -/
def load (files : Files) (interactive : Bool) : SessionM Unit := do
  let path := (← get).path
  if path ≠ terminal then
    let text ← readFile files path
    let _ ← add text 1
  else if !interactive then
    throw (.complaint (.general [.plain "'<in>' is a reserved filename"]))

/-- Evaluates one program.  An error stops the session; a value other than null is kept. -/
def runProgram (program : Node) : SessionM Unit := do
  let s ← get
  match eval (s.host.room s.depthLimit) (s.host.evaluationDepth s.depthLimit) program
      World.globalScope s.world with
  | .error crash world =>
      set { s with world }
      throw (.crash crash)
  | .ok value world =>
      match value with
      | .error message =>
          set { s with world }
          throw (.ofComplaint (Complaint.runtime message))
      | .null => set { s with world }
      | value => set { s with world, results := s.results ++ [value] }

/-- Runs the programs of a queue in order, each of them taken from the queue first. -/
def runAll : List Node → SessionM Unit
  | [] => return ()
  | program :: programs => do
      modify fun s => { s with queue := programs }
      runProgram program
      runAll programs

/-- The depth limit to run under, or why it cannot be set: it must fit into 32 bits, be positive, and
leave room for what is already going on. -/
def chosenLimit (s : Session) : Except Crash Nat :=
  match s.limit with
  | none => .ok (max s.depthLimit runningLimit)
  | some limit =>
      if limit < -0x80000000 ∨ 0x80000000 ≤ limit then .error (.fault .limitTooLarge)
      else if limit < 1 then .error (.fault .limitTooLow)
      else if limit ≤ s.host.activeDepth then .error .tooDeep
      else .ok limit.toNat

/-- **Runs the queue.**  The depth limit in force before is restored, however it ends. -/
def run : SessionM Unit := fun s =>
  match s.chosenLimit with
  | .error crash => .error (.crash crash) s
  | .ok limit =>
      match runAll s.queue { s with depthLimit := limit } with
      | .ok () s' => .ok () { s' with depthLimit := s.depthLimit }
      | .error stop s' => .error stop { s' with depthLimit := s.depthLimit }

/-- Takes the latest result. -/
def pop : SessionM Value := do
  let s ← get
  match s.results.getLast? with
  | some value =>
      set { s with results := s.results.dropLast }
      return value
  | none => throw (.crash (.fault .noResult))

/-- Opening brackets less closing ones among the tokens of a text. -/
def openBrackets (text : String) : Int :=
  let source : Source := { text := text.toList }
  source.tokens.foldl
    (fun n t => if t.kind.isOpener then n + 1 else if t.kind.isCloser then n - 1 else n) 0

/-- Joins a line to what was typed before it, and tells whether brackets are still open. -/
def joinLine (line pending : String) : String × Bool :=
  let text := pending ++ line ++ "\n"
  (text, decide (0 < openBrackets text))

end Session

/-- The names of a scope, frame by frame, as they are written.  Each frame goes two activations
deeper. -/
def World.listed (w : World) (scope : Scope) (room : Room) : Except Crash String :=
  room.guard (2 * scope.length) none (w.listing scope)

end LimLang
