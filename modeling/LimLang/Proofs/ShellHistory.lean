import LimLang.Ansi
import LimLang.Proofs.Brackets
import LimLang.Proofs.SessionSteps
import LimLang.Shell

/-! # The history of a shell

A shell is given lines, and whatever becomes of one of them, the next is taken: a text may be
malformed, a program may end with an error or be nested too deep, and an internal error may even
escape.  After any of this the shell is in order (`Shell.InOrder`): it knows how many lines it has
taken, it holds back exactly the lines of the text that is not complete, and nothing is left over in
its session from the texts that were.

So what a shell writes after a line is about the text that the line completes and no other.  What a
complete text comes to is told by `Session.Answer`.
-/
namespace LimLang

open EStateM (Result)

/-! ## Complete texts -/

namespace Session

/-- **What a complete text comes to** in a session in which nothing waits: what stops it, if anything
does, and the world it leaves.  A value is written if and only if evaluating the program of the text
yields one. -/
inductive Answer (s : Session) (limit : Nat) (text : String) (firstLine : Int) :
    Option Stop → World → Prop
  | unparsed {crash : Crash}
      (hparse : Source.parse { text := text.toList, firstLine } s.host.limits = .error crash) :
      Answer s limit text firstLine (some (.crash crash)) s.world
  | malformed {parsed : Parsed}
      (hparse : Source.parse { text := text.toList, firstLine } s.host.limits = .ok parsed)
      (he : parsed.errors ≠ []) :
      Answer s limit text firstLine (some (.complaint (.unparsable s.path parsed.errors)))
        (s.warned parsed).world
  | crashed {parsed : Parsed} {crash : Crash} {w : World}
      (hparse : Source.parse { text := text.toList, firstLine } s.host.limits = .ok parsed)
      (he : parsed.errors = []) (heval : s.evaluation limit parsed = .error crash w) :
      Answer s limit text firstLine (some (.crash crash)) w
  | failed {parsed : Parsed} {message : String} {w : World}
      (hparse : Source.parse { text := text.toList, firstLine } s.host.limits = .ok parsed)
      (he : parsed.errors = []) (heval : s.evaluation limit parsed = .ok (.error message) w) :
      Answer s limit text firstLine (some (.ofComplaint (Complaint.runtime message))) w
  | silent {parsed : Parsed} {w : World}
      (hparse : Source.parse { text := text.toList, firstLine } s.host.limits = .ok parsed)
      (he : parsed.errors = []) (heval : s.evaluation limit parsed = .ok .null w) :
      Answer s limit text firstLine none w
  | unwritable {parsed : Parsed} {value : Value} {crash : Crash} {w : World}
      (hparse : Source.parse { text := text.toList, firstLine } s.host.limits = .ok parsed)
      (he : parsed.errors = []) (heval : s.evaluation limit parsed = .ok value w)
      (hnull : value ≠ .null) (herror : ∀ message, value ≠ .error message)
      (hwritten : value.written s.host.ambientRoom = .error crash) :
      Answer s limit text firstLine (some (.crash crash)) w
  | shown {parsed : Parsed} {value : Value} {form : String} {w : World}
      (hparse : Source.parse { text := text.toList, firstLine } s.host.limits = .ok parsed)
      (he : parsed.errors = []) (heval : s.evaluation limit parsed = .ok value w)
      (hnull : value ≠ .null) (herror : ∀ message, value ≠ .error message)
      (hwritten : value.written s.host.ambientRoom = .ok form) :
      Answer s limit text firstLine none (w.write (form ++ "\n"))

/-- A session in which nothing waits, under a limit for running that can be set. -/
structure Idle (limit : Nat) (s : Session) : Prop where
  limit : s.chosenLimit = .ok limit
  queue : s.queue = []
  results : s.results = []

end Session

namespace Shell

open Session (Answer)

/-- How an action of the shell ends that is stopped by `stop`, if by anything. -/
def ended : Option Stop → Shell → Result Stop Shell Unit
  | none, shell => .ok () shell
  | some stop, shell => .error stop shell

theorem inSession_ok {α : Type} {action : SessionM α} {shell : Shell} {a : α} {s : Session}
    (h : action shell.session = .ok a s) :
    inSession action shell = .ok a { shell with session := s } := by
  simp only [inSession, h]

theorem inSession_error {α : Type} {action : SessionM α} {shell : Shell} {stop : Stop} {s : Session}
    (h : action shell.session = .error stop s) :
    inSession action shell = .error stop { shell with session := s } := by
  simp only [inSession, h]

/-- Of the shell, an answer changes the world and nothing else. -/
def answered (shell : Shell) (w : World) : Shell :=
  { shell with session := { shell.session with world := w } }

/-- What is left to do once a program was run: its result is written, if there is one. -/
def showResult : ShellM Unit := do
  let session := (← get).session
  if !session.results.isEmpty then
    match (← inSession Session.pop).written session.host.ambientRoom with
    | .ok text => writeLine text
    | .error crash => throw (.crash crash)

theorem execute_eq (text : String) (firstLine : Int) :
    execute text firstLine = (do
      let _ ← inSession (Session.add text firstLine)
      inSession Session.run
      showResult) := rfl

theorem showResult_none {shell : Shell} (h : shell.session.results = []) :
    showResult shell = .ok () shell := by
  unfold showResult
  rw [bind_get, h]
  rfl

/-- The one result of a session is written, as far as it can be, and does not stay. -/
theorem showResult_single {shell : Shell} {value : Value} (h : shell.session.results = [value]) :
    showResult shell =
      match value.written shell.session.host.ambientRoom with
      | .ok form => .ok () { shell with session := { shell.session with
          world := shell.session.world.write (form ++ "\n"), results := [] } }
      | .error crash =>
        .error (.crash crash) { shell with session := { shell.session with results := [] } } := by
  have hpop : Session.pop shell.session = .ok value { shell.session with results := [] } := by
    unfold Session.pop
    rw [bind_get, h]
    rfl
  unfold showResult
  rw [bind_get, h]
  show (inSession Session.pop >>= _) shell = _
  rw [bind_of_ok (inSession_ok hpop)]
  cases value.written shell.session.host.ambientRoom <;> rfl

/-- **Executing a complete text** in an idle session comes to what is said of it, and leaves the
session idle. -/
theorem execute_answers (shell : Shell) {limit : Nat} (h : shell.session.Idle limit) (text : String)
    (firstLine : Int) :
    ∃ stop w, Answer shell.session limit text firstLine stop w ∧
      execute text firstLine shell = ended stop (shell.answered w) := by
  rw [execute_eq]
  cases hparse : Source.parse { text := text.toList, firstLine } shell.session.host.limits with
  | error crash =>
    exact ⟨_, _, .unparsed hparse, bind_of_error (inSession_error (Session.add_crash hparse)) _⟩
  | ok parsed =>
    by_cases he : parsed.errors = []
    · rw [bind_of_ok (inSession_ok (Session.add_wellFormed hparse he))]
      have hrun := Session.run_added h.queue h.limit parsed
      cases heval : shell.session.evaluation limit parsed with
      | error crash w =>
        rw [heval] at hrun
        exact ⟨_, _, .crashed hparse he heval, bind_of_error (inSession_error hrun) _⟩
      | ok value w =>
        rw [heval] at hrun
        by_cases hnull : value = .null
        · subst hnull
          refine ⟨_, _, .silent hparse he heval, ?_⟩
          rw [bind_of_ok (inSession_ok hrun)]
          exact showResult_none h.results
        · by_cases herror : ∃ message, value = .error message
          · obtain ⟨message, rfl⟩ := herror
            exact ⟨_, _, .failed hparse he heval, bind_of_error (inSession_error hrun) _⟩
          · rw [not_exists] at herror
            rw [Session.concluded_value _ _ hnull herror, h.results] at hrun
            rw [bind_of_ok (inSession_ok hrun), showResult_single rfl]
            cases hwritten : value.written shell.session.host.ambientRoom with
            | error crash =>
              refine ⟨_, _, .unwritable hparse he heval hnull herror hwritten, ?_⟩
              rw [← h.results]
              rfl
            | ok form =>
              refine ⟨_, _, .shown hparse he heval hnull herror hwritten, ?_⟩
              rw [← h.results]
              rfl
    · exact ⟨_, _, .malformed hparse he,
        bind_of_error (inSession_error (Session.add_malformed hparse he)) _⟩

/-! ## One line -/

/-- The number of the first line of the text that the next line belongs to. -/
def nextFirst (shell : Shell) : Int :=
  if shell.pending = "" then (shell.lineCount + 1 : Nat) else shell.firstLine

/-- The shell once the next line was counted, with `pending` held back. -/
def counted (shell : Shell) (pending : String) : Shell :=
  { shell with
    lineCount := shell.lineCount + 1
    firstLine := shell.nextFirst
    pending := pending
    continuing := decide (pending ≠ "") }

section TakeLine
variable {line text : String} {shell : Shell}

theorem ne_empty_of_joinLine {more : Bool} (h : Session.joinLine line shell.pending = (text, more)) :
    text ≠ "" := by
  rintro rfl
  have hjoin := congrArg (fun joined => joined.1.length) h
  simp [Session.joinLine] at hjoin

/-- A line that leaves a bracket open is held back. -/
theorem takeLine_more (h : Session.joinLine line shell.pending = (text, true)) :
    takeLine line shell = .ok () (shell.counted text) := by
  unfold takeLine counted
  rw [decide_eq_true (ne_empty_of_joinLine h), bind_modify, bind_get]
  dsimp only
  rw [h]
  rfl

/-- A line that leaves none open completes a text, which is executed. -/
theorem takeLine_complete (h : Session.joinLine line shell.pending = (text, false)) :
    takeLine line shell = execute text shell.nextFirst (shell.counted "") := by
  unfold takeLine
  rw [bind_modify, bind_get]
  dsimp only
  rw [h]
  rfl

end TakeLine

/-- **The shell after a line** of source text, whatever became of it. -/
def after (shell : Shell) (line : String) : Shell :=
  Session.leaves (guarded (takeLine line)) shell

/-- The guard writes at most. -/
theorem leaves_guarded (x : ShellM Unit) (shell : Shell) :
    ∃ w, Session.leaves (guarded x) shell = (Session.leaves x shell).answered w := by
  unfold Session.leaves
  cases hx : x shell with
  | ok a t =>
    refine ⟨t.session.world, ?_⟩
    simp only [guarded, hx]
    rfl
  | error stop t =>
    refine ⟨t.session.world.write (t.session.reporter.guard stop).output, ?_⟩
    simp only [guarded, hx]
    cases (t.session.reporter.guard stop).stop <;> rfl

/-- A line that is held back is counted, and that is all. -/
theorem after_more {line text : String} (shell : Shell)
    (h : Session.joinLine line shell.pending = (text, true)) : shell.after line = shell.counted text := by
  unfold after guarded Session.leaves
  simp only [takeLine_more h]

/-- **What a line does to an idle shell**: it is held back with those before it, or they are
executed together and gone. -/
theorem after_cases {shell : Shell} {limit : Nat} (h : shell.session.Idle limit) (line : String) :
    ∃ text w, (Session.joinLine line shell.pending = (text, true) ∧
        shell.after line = (shell.counted text).answered w) ∨
      (Session.joinLine line shell.pending = (text, false) ∧
        shell.after line = (shell.counted "").answered w) := by
  rcases hjoin : Session.joinLine line shell.pending with ⟨text, more⟩
  cases more with
  | true => exact ⟨text, shell.session.world, .inl ⟨rfl, after_more shell hjoin⟩⟩
  | false =>
    obtain ⟨w, hw⟩ := leaves_guarded (takeLine line) shell
    refine ⟨text, w, .inr ⟨rfl, ?_⟩⟩
    obtain ⟨stop, w', -, hexecute⟩ :=
      execute_answers (shell.counted "") h text shell.nextFirst
    rw [after, hw, Session.leaves, takeLine_complete hjoin, hexecute]
    cases stop <;> rfl

/-! ## Many lines -/

/-- **A shell in order** after some lines, on a session that was idle when it was opened. -/
structure InOrder (opened : Session) (lines : List String) (shell : Shell) : Prop where
  lineCount : shell.lineCount = lines.length
  continuing : shell.continuing = decide (shell.pending ≠ "")
  /-- What is held back are the lines from `firstLine` on, and they leave a bracket open. -/
  pending : shell.pending ≠ "" → ∃ first : Nat, shell.firstLine = first + 1 ∧ first < lines.length ∧
    shell.pending = String.join ((lines.drop first).map (· ++ "\n")) ∧
    0 < Session.openBrackets shell.pending
  session : ∃ w, shell.session = { opened with world := w }

namespace InOrder

variable {opened : Session} {limit : Nat} {lines : List String} {shell : Shell}

theorem idle (h : shell.InOrder opened lines) (hopened : opened.Idle limit) :
    shell.session.Idle limit := by
  obtain ⟨w, hw⟩ := h.session
  rw [hw]
  exact ⟨hopened.limit, hopened.queue, hopened.results⟩

theorem initial (opened : Session) : InOrder opened [] { session := opened } where
  lineCount := rfl
  continuing := rfl
  pending h := absurd rfl h
  session := ⟨opened.world, rfl⟩

/-- **One line keeps a shell in order.** -/
theorem after (h : shell.InOrder opened lines) (hopened : opened.Idle limit) (line : String) :
    (shell.after line).InOrder opened (lines ++ [line]) := by
  have hcount : shell.lineCount + 1 = (lines ++ [line]).length := by
    rw [h.lineCount, List.length_append, List.length_singleton]
  obtain ⟨opening, hsession⟩ := h.session
  obtain ⟨text, w, ⟨hjoin, hafter⟩ | ⟨hjoin, hafter⟩⟩ := after_cases (h.idle hopened) line
  · have hsession' : ((shell.counted text).answered w).session = { opened with world := w } := by
      show ({ shell.session with world := w } : Session) = _
      rw [hsession]
    obtain ⟨rfl, hmore⟩ := Prod.mk.inj hjoin
    rw [hafter]
    refine ⟨hcount, rfl, fun _ => ?_, w, hsession'⟩
    have hopen := of_decide_eq_true hmore
    -- The text goes on where one was pending, and starts with the line where none was.
    by_cases hpending : shell.pending = ""
    · refine ⟨lines.length, ?_, by simp, ?_, hopen⟩
      · show shell.nextFirst = _
        rw [nextFirst, if_pos hpending, h.lineCount]
        rfl
      · show shell.pending ++ line ++ "\n" = _
        rw [hpending, List.drop_left]
        simp
    · obtain ⟨first, hfirst, hlt, htext, -⟩ := h.pending hpending
      refine ⟨first, ?_, by simp; omega, ?_, hopen⟩
      · show shell.nextFirst = _
        rw [nextFirst, if_neg hpending, hfirst]
      · show shell.pending ++ line ++ "\n" = _
        rw [List.drop_append_of_le_length (Nat.le_of_lt hlt), htext]
        simp [String.append_assoc]
  · have hsession' : ((shell.counted "").answered w).session = { opened with world := w } := by
      show ({ shell.session with world := w } : Session) = _
      rw [hsession]
    rw [hafter]
    exact ⟨hcount, rfl, fun hne => absurd rfl hne, w, hsession'⟩

/-- **Lines keep a shell in order**, however many. -/
theorem foldl_after (hopened : opened.Idle limit) (h : shell.InOrder opened lines)
    (more : List String) : (more.foldl Shell.after shell).InOrder opened (lines ++ more) := by
  induction more generalizing lines shell with
  | nil =>
    rw [List.append_nil]
    exact h
  | cons line more ih =>
    have := ih (h.after hopened line)
    rwa [List.append_assoc] at this

end InOrder

/-- **What a shell looks like after any lines.**  It has counted them; it asks for a continuation just
if something is held back; what is held back are the latest lines, and more brackets are opened in
them than closed; and in its session nothing waits and no result is left.  From there, a line that is
held back leaves the session alone, and one that completes a text is answered by what that text comes
to. -/
theorem inOrder_after_lines (host : Host) (reporter : Reporter) (limit : Option Int)
    (ambient accepted : Nat) (lines : List String) :
    let opened : Session :=
      { Session.initial reporter Session.terminal true limit host with depthLimit := ambient }
    opened.chosenLimit = .ok accepted →
    let shell := lines.foldl after { session := opened }
    let tokens := Source.tokens { text := shell.pending.toList }
    shell.lineCount = lines.length ∧ (shell.prompt = ". " ↔ shell.pending ≠ "") ∧
      (shell.pending ≠ "" → ∃ first : Nat, shell.firstLine = first + 1 ∧ first < lines.length ∧
        shell.pending = String.join ((lines.drop first).map (· ++ "\n")) ∧
        (tokens.countP fun t => t.kind.isCloser) < tokens.countP fun t => t.kind.isOpener) ∧
      shell.session.queue = [] ∧ shell.session.results = [] ∧
      (∀ line text, Session.joinLine line shell.pending = (text, true) →
        ∃ t, takeLine line shell = .ok () t ∧ t.session = shell.session) ∧
      (∀ line text, Session.joinLine line shell.pending = (text, false) →
        ∃ stop w t, Answer shell.session accepted text shell.nextFirst stop w ∧
          takeLine line shell = ended stop t ∧ t.session = { shell.session with world := w }) := by
  intro opened haccepted shell tokens
  have hopened : opened.Idle accepted := ⟨haccepted, rfl, rfl⟩
  have h : shell.InOrder opened lines := (InOrder.initial opened).foldl_after hopened lines
  have hidle := h.idle hopened
  refine ⟨h.lineCount, ?_, fun hpending => ?_, hidle.queue, hidle.results, fun line text hjoin => ?_,
    fun line text hjoin => ?_⟩
  · unfold prompt
    rw [h.continuing]
    by_cases hpending : shell.pending = "" <;> simp [hpending]
  · obtain ⟨first, hfirst, hlt, htext, hopen⟩ := h.pending hpending
    refine ⟨first, hfirst, hlt, htext, ?_⟩
    have hbalance : 0 < Token.balance tokens := Session.openBrackets_eq shell.pending ▸ hopen
    unfold Token.balance at hbalance
    omega
  · exact ⟨_, takeLine_more hjoin, rfl⟩
  · obtain ⟨stop, w, hanswer, hexecute⟩ :=
      execute_answers (shell.counted "") hidle text shell.nextFirst
    exact ⟨stop, w, _, hanswer, (takeLine_complete hjoin).trans hexecute, rfl⟩

/-- A call is left open over two lines. -/
theorem inOrder_after_lines_call : ∃ (opened : Session) (shell : Shell),
    opened = { Session.initial {} Session.terminal true none with depthLimit := 1000 } ∧
      opened.chosenLimit = .ok Session.runningLimit ∧
      shell = ["print(", "1"].foldl after { session := opened } ∧ shell.lineCount = 2 ∧
      shell.prompt = ". " ∧ shell.pending = "print(\n1\n" ∧ shell.session.queue = [] ∧
      shell.session.results = [] := by
  obtain ⟨opened, hopened⟩ : ∃ opened : Session, opened =
    { Session.initial {} Session.terminal true none with depthLimit := 1000 } := ⟨_, rfl⟩
  have hlimit : opened.chosenLimit = .ok Session.runningLimit := by
    rw [hopened]
    rfl
  have h := inOrder_after_lines .standard {} none 1000 Session.runningLimit ["print(", "1"]
  rw [← hopened] at h
  obtain ⟨hcount, hprompt, -, hqueue, hresults, -⟩ := h hlimit
  -- Both lines are held back, so the shell is easily told.
  have hafter : ["print(", "1"].foldl after { session := opened } =
      (counted { session := opened } "print(\n").counted "print(\n1\n" := by
    have hfirst : Session.joinLine "print(" "" = ("print(\n", true) := by rfl
    have hsecond : Session.joinLine "1" "print(\n" = ("print(\n1\n", true) := by rfl
    rw [List.foldl_cons, List.foldl_cons, List.foldl_nil,
      after_more { session := opened } hfirst,
      after_more (counted { session := opened } "print(\n") hsecond]
  have hpending : (["print(", "1"].foldl after { session := opened }).pending = "print(\n1\n" := by
    rw [hafter]
    rfl
  exact ⟨opened, _, hopened, hlimit, rfl, hcount, hprompt.2 (by rw [hpending]; decide), hpending,
    hqueue, hresults⟩

end Shell

end LimLang
