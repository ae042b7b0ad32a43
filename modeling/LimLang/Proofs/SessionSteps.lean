import LimLang.Proofs.SessionHistory

/-! # One text at a time

What a session does with one text: adding it comes down to parsing it, and running the one program
that waits comes down to evaluating it (`Session.concluded`).
-/
namespace LimLang

open EStateM (Result)

namespace Session

/-! ## Adding a text -/

/-- What adding a text writes first. -/
def warningText (s : Session) (parsed : Parsed) : String :=
  s.warningsText parsed.warnings

/-- The session after the warnings about a text have been written. -/
def warned (s : Session) (parsed : Parsed) : Session :=
  { s with world := s.world.write (s.warningText parsed) }

/-- The session after a text without errors was added. -/
def added (s : Session) (parsed : Parsed) : Session :=
  { s.warned parsed with queue := s.queue ++ [parsed.program] }

section Add
variable {text : String} {firstLine : Int}

/-- A text that cannot be parsed at all changes nothing. -/
theorem add_crash {s : Session} {crash : Crash}
    (hparse : Source.parse { text := text.toList, firstLine } s.host.limits = .error crash) :
    add text firstLine s = .error (.crash crash) s := by
  unfold add
  rw [bind_get]
  simp only [hparse]
  rfl

variable {s : Session} {parsed : Parsed}
  (hparse : Source.parse { text := text.toList, firstLine } s.host.limits = .ok parsed)
include hparse

/-- A text without errors is put into the queue. -/
theorem add_wellFormed (he : parsed.errors = []) :
    add text firstLine s = .ok parsed.program (s.added parsed) := by
  rw [← Outcome.run_iff]
  unfold add
  rw [Outcome.bind_iff, Outcome.get_iff]
  simp only [hparse, he]
  exact ⟨rfl, rfl⟩

/-- A text with errors is complained about. -/
theorem add_malformed (he : parsed.errors ≠ []) :
    add text firstLine s =
      .error (.complaint (.unparsable s.path parsed.errors)) (s.warned parsed) := by
  have hempty : parsed.errors.isEmpty = false := by simpa using he
  unfold add
  rw [bind_get]
  simp only [hparse]
  show (if parsed.errors.isEmpty then _ else _ : SessionM Node) (s.warned parsed) = _
  rw [hempty]
  rfl

end Add

/-! ## Running one program -/

/-- **What a session makes of an evaluation**: an error or a crash stops it, and a value other than
null is kept. -/
def concluded (s : Session) : Result Crash World Value → Result Stop Session Unit
  | .error crash world => .error (.crash crash) { s with world }
  | .ok (.error message) world => .error (.ofComplaint (Complaint.runtime message)) { s with world }
  | .ok .null world => .ok () { s with world }
  | .ok value world => .ok () { s with world, results := s.results ++ [value] }

theorem concluded_value (s : Session) {value : Value} (w : World) (hnull : value ≠ .null)
    (herror : ∀ message, value ≠ .error message) :
    s.concluded (.ok value w) = .ok () { s with world := w, results := s.results ++ [value] } := by
  cases value with
  | null => exact absurd rfl hnull
  | error message => exact absurd rfl (herror message)
  | _ => rfl

theorem runProgram_eq (program : Node) (s : Session) :
    runProgram program s = s.concluded (evaluate s.host s.depthLimit program s.world) := by
  unfold runProgram evaluate
  rw [bind_get]
  cases eval (s.host.room s.depthLimit) (s.host.evaluationDepth s.depthLimit) program World.globalScope
    s.world with
  | error crash w => rfl
  | ok value w => cases value <;> rfl

/-- **Running the one program that waits** evaluates it under the limit the session has for running. -/
theorem run_single {s : Session} {program : Node} (hq : s.queue = [program]) {limit : Nat}
    (hl : s.chosenLimit = .ok limit) :
    run s = concluded { s with queue := [] } (evaluate s.host limit program s.world) := by
  let taken : Session := { s with queue := [], depthLimit := limit }
  have hall : runAll s.queue { s with depthLimit := limit } = runProgram program taken := by
    rw [hq]
    show EStateM.bind (runProgram program) (fun _ => pure ()) taken = _
    unfold EStateM.bind
    cases runProgram program taken <;> rfl
  have hprogram : runProgram program taken = taken.concluded (evaluate s.host limit program s.world) :=
    runProgram_eq program taken
  unfold run
  rw [hl]
  dsimp only
  rw [hall, hprogram]
  -- The limit in force before is given back, however the evaluation ended.
  cases evaluate s.host limit program s.world with
  | error crash w => rfl
  | ok value w => cases value <;> rfl

/-- The evaluation of the program of a text, after the warnings about it were written. -/
def evaluation (s : Session) (limit : Nat) (parsed : Parsed) : Result Crash World Value :=
  evaluate s.host limit parsed.program (s.warned parsed).world

/-- **Running a text that was added to a session in which nothing waited** comes to evaluating its
program. -/
theorem run_added {s : Session} (hq : s.queue = []) {limit : Nat} (hl : s.chosenLimit = .ok limit)
    (parsed : Parsed) : run (s.added parsed) = s.concluded (s.evaluation limit parsed) := by
  have hqueue : (s.added parsed).queue = [parsed.program] := by
    show s.queue ++ _ = _
    rw [hq, List.nil_append]
  rw [run_single hqueue hl]
  show concluded { s.warned parsed with queue := [] } (s.evaluation limit parsed) = _
  rw [← hq]
  cases s.evaluation limit parsed with
  | error crash w => rfl
  | ok value w => cases value <;> rfl

end Session

end LimLang
