import LimLang.Proofs.ParsedTrees
import LimLang.Proofs.Safety
import LimLang.Session

/-! # The history of a session

A session is called upon in any order, and any call may fail: a text may be malformed, a program may
end with an error or be nested too deep, the depth limit may be one that cannot be set.  Still every
program that was added is run once at most, and they are run in the order in which they were added.

To say so, a session is put *on record* (`Session.Record`): which programs the additions returned,
and which programs have been started.  The record is kept by a copy of `Session.run` that notes a
program down just before it evaluates it; what is kept changes nothing about the session
(`Record.session_after`).  That nothing else is evaluated is told by the world: it is what evaluating the
programs on record leads to (`Session.Evolved`).  What holds of the record after every call is
`Record.Orderly`.
-/
namespace LimLang

variable {V : Vocabulary}

/-- A well-formed program ends with data or an error, unless it is nested too deep, and leaves the
world sound in any case. -/
theorem Eval.program_yields (room : Room) (depth : Nat) {program : Node}
    (hp : program.Fits V .program) (scope : Scope) {w : World} (hw : w.Sound V) :
    Yields V (eval room depth program scope) w := by
  have hagree := eval_agrees room depth .program program scope w hp hw
  unfold Yields Outcome
  generalize eval room depth program scope w = r at hagree
  generalize direct room depth program scope w = r' at hagree
  cases hagree with
  | value hv hw' => exact ⟨.inl (hv.resolve_right fun h => by cases h.1), hw'⟩
  | fail hw' => exact ⟨.inr ⟨_, rfl⟩, hw'⟩
  | leave hp _ _ => cases hp
  | crash hw' => exact ⟨rfl, hw'⟩

namespace Session

/-! ## Calls -/

/-- **A call on a session.** -/
inductive Call where
  | add (text : String) (firstLine : Int)
  | run
  | pop
  deriving Repr

/-- The state that an action leaves, however it ends. -/
def leaves {ε σ α : Type} (x : EStateM ε σ α) (s : σ) : σ :=
  match x s with
  | .ok _ t => t
  | .error _ t => t

theorem leaves_of_outcome {ε σ α : Type} {x : EStateM ε σ α} {s : σ} {P : σ → Prop}
    (h : Outcome x s (fun _ t => P t) fun _ t => P t) : P (leaves x s) := by
  unfold Outcome at h
  unfold leaves
  split at h <;> simp_all only

/-- The session after a call. -/
def after (s : Session) : Call → Session
  | .add text firstLine => leaves (add text firstLine) s
  | .run => leaves run s
  | .pop => leaves pop s

/-! ## Copies

A record is kept by a copy of an action that works on more than the action does.  What the action works
on is a part of the record, shown by `view`.
-/

section Copies
variable {σ τ α β : Type} {view : τ → σ}

/-- How an action ended, as far as `view` shows it. -/
def shown (view : τ → σ) : EStateM.Result Stop τ α → EStateM.Result Stop σ α
  | .ok a r => .ok a (view r)
  | .error stop r => .error stop (view r)

/-- **`x` does what `y` does**, as far as `view` shows it. -/
def Copies (view : τ → σ) (x : EStateM Stop σ α) (y : EStateM Stop τ α) : Prop :=
  ∀ r, x (view r) = shown view (y r)

theorem Copies.bind {x : EStateM Stop σ α} {y : EStateM Stop τ α} {f : α → EStateM Stop σ β}
    {g : α → EStateM Stop τ β} (h : Copies view x y) (hf : ∀ a, Copies view (f a) (g a)) :
    Copies view (x >>= f) (y >>= g) := by
  intro r
  show EStateM.bind x f (view r) = shown view (EStateM.bind y g r)
  unfold EStateM.bind
  rw [h r]
  cases y r with
  | ok a r' => exact hf a r'
  | error stop r' => rfl

/-- What is only noted down is not shown. -/
theorem Copies.noting {x : EStateM Stop σ α} {y : EStateM Stop τ α} (h : Copies view x y)
    (f : τ → τ) (hf : ∀ r, view (f r) = view r) : Copies view x (do modify f; y) := by
  intro r
  have := h (f r)
  rw [hf] at this
  exact this

theorem Copies.view_leaves {x : EStateM Stop σ α} {y : EStateM Stop τ α} (h : Copies view x y)
    (r : τ) : view (leaves y r) = leaves x (view r) := by
  unfold leaves
  rw [h r]
  cases y r <;> rfl

/-- **A part of a record** that actions of its own work on. -/
structure Part (τ σ : Type) where
  view : τ → σ
  put : τ → σ → τ
  view_put (r : τ) (s : σ) : view (put r s) = s

namespace Part

/-- An action on a part of a record, of which nothing is noted down. -/
def unnoted (part : Part τ σ) (x : EStateM Stop σ α) : EStateM Stop τ α := fun r =>
  match x (part.view r) with
  | .ok a s => .ok a (part.put r s)
  | .error stop s => .error stop (part.put r s)

theorem copies_unnoted (part : Part τ σ) (x : EStateM Stop σ α) :
    Copies part.view x (part.unnoted x) := by
  intro r
  unfold unnoted
  cases x (part.view r) <;> simp only [shown, part.view_put]

theorem leaves_unnoted (part : Part τ σ) (x : EStateM Stop σ α) (r : τ) :
    leaves (part.unnoted x) r = part.put r (leaves x (part.view r)) := by
  simp only [leaves, unnoted]
  cases x (part.view r) <;> rfl

theorem unnoted_iff {part : Part τ σ} {x : EStateM Stop σ α} {r : τ} {ok : α → τ → Prop}
    {halt : Stop → τ → Prop} :
    Outcome (part.unnoted x) r ok halt ↔
      Outcome x (part.view r) (fun a s => ok a (part.put r s))
        (fun stop s => halt stop (part.put r s)) := by
  unfold Outcome unnoted
  cases x (part.view r) <;> rfl

end Part

end Copies

/-! ## The record -/

/-- **A session on record.** -/
structure Record where
  session : Session
  /-- The programs that additions returned, in order. -/
  added : List Node
  /-- The programs whose evaluation was started, in order. -/
  started : List Node

namespace Record

/-- An action of a session that goes on record. -/
abbrev RecordM := EStateM Stop Record

/-- The session of a record. -/
def bare : Part Record Session where
  view := session
  put r s := { r with session := s }
  view_put _ _ := rfl

/-- Runs the programs of a queue; each is noted down when its evaluation is about to start. -/
def runAll : List Node → RecordM Unit
  | [] => return ()
  | program :: programs => do
      bare.unnoted (modify fun s => { s with queue := programs })
      modify fun r => { r with started := r.started ++ [program] }
      bare.unnoted (runProgram program)
      runAll programs

/-- Runs the queue. -/
def run : RecordM Unit := fun r =>
  match r.session.chosenLimit with
  | .error crash => .error (.crash crash) r
  | .ok limit =>
      match runAll r.session.queue { r with session := { r.session with depthLimit := limit } } with
      | .ok () r' =>
          .ok () { r' with session := { r'.session with depthLimit := r.session.depthLimit } }
      | .error stop r' =>
          .error stop { r' with session := { r'.session with depthLimit := r.session.depthLimit } }

/-- Adds a text; the program that is returned is noted down. -/
def add (text : String) (firstLine : Int) : RecordM Node := do
  let program ← bare.unnoted (Session.add text firstLine)
  modify fun r => { r with added := r.added ++ [program] }
  return program

/-- The record after a call. -/
def after (r : Record) : Call → Record
  | .add text firstLine => leaves (add text firstLine) r
  | .run => leaves run r
  | .pop => leaves (bare.unnoted pop) r

/-- The record of a session in which nothing has happened. -/
def opening (s : Session) : Record where
  session := s
  added := []
  started := []

/-! ### Keeping a record changes nothing -/

theorem copies_runAll (programs : List Node) :
    Copies session (Session.runAll programs) (runAll programs) := by
  induction programs with
  | nil => exact fun _ => rfl
  | cons program programs ih =>
    refine (bare.copies_unnoted _).bind fun _ => ?_
    refine Copies.noting ?_ _ fun _ => rfl
    exact (bare.copies_unnoted _).bind fun _ => ih

theorem copies_run : Copies session Session.run run := by
  intro r
  unfold Session.run run
  cases r.session.chosenLimit with
  | error crash => rfl
  | ok limit =>
    simp only [copies_runAll r.session.queue
      { r with session := { r.session with depthLimit := limit } }]
    generalize runAll _ _ = result
    cases result <;> rfl

theorem copies_add (text : String) (firstLine : Int) :
    Copies session (Session.add text firstLine) (add text firstLine) := by
  intro r
  refine (bare.copies_unnoted (Session.add text firstLine) r).trans ?_
  show _ = shown session (EStateM.bind (bare.unnoted (Session.add text firstLine)) _ r)
  unfold EStateM.bind
  cases bare.unnoted (Session.add text firstLine) r <;> rfl

/-- **Keeping a record changes nothing.** -/
theorem session_after (r : Record) (call : Call) :
    (r.after call).session = r.session.after call := by
  cases call with
  | add text firstLine => exact (copies_add text firstLine).view_leaves r
  | run => exact copies_run.view_leaves r
  | pop => exact (bare.copies_unnoted pop).view_leaves r

theorem session_foldl_after (calls : List Call) (r : Record) :
    (calls.foldl after r).session = calls.foldl Session.after r.session := by
  induction calls generalizing r with
  | nil => rfl
  | cons call calls ih => rw [List.foldl_cons, List.foldl_cons, ih, session_after]

end Record

/-! ## What one call keeps -/

/-- **What holds of a session at all times**: its world is sound, the programs that wait are
well-formed, and the results are data other than null. -/
structure Sound (V : Vocabulary) (s : Session) : Prop where
  world : s.world.Sound V
  queue : ∀ program ∈ s.queue, program.Fits V .program
  results : ∀ value ∈ s.results, value.Sound V ∧ value ≠ .null

/-- What is written about warnings. -/
def warningsText (s : Session) (warnings : List Diagnostic) : String :=
  String.join (warnings.map s.reporter.warn)

/-- A call of `add` either puts the program it returns at the end of the queue or stops short.
Otherwise it writes warnings at most. -/
theorem add_outcome (text : String) (firstLine : Int) (s : Session) :
    Outcome (add text firstLine) s
      (fun program t => program.Fits Vocabulary.anything .program ∧ ∃ warnings,
        t = { s with
          world := s.world.write (s.warningsText warnings)
          queue := s.queue ++ [program] })
      (fun _ t => ∃ warnings, t = { s with world := s.world.write (s.warningsText warnings) }) := by
  unfold add
  simp only [Outcome.bind_iff, Outcome.get_iff]
  split
  · have hunwritten : s.world.write (s.warningsText []) = s.world := by
      show ({ s.world with output := s.world.output ++ "" } : World) = _
      rw [String.append_empty]
    refine ⟨[], ?_⟩
    rw [hunwritten]
  · next parsed hparse =>
    have hfits := Source.fits_of_parse (Vocabulary.anything_has fun _ => True)
      (fun _ _ => trivial) hparse
    simp only [Outcome.bind_iff, write, Outcome.modify_iff]
    split
    · exact ⟨hfits, parsed.warnings, rfl⟩
    · exact ⟨parsed.warnings, rfl⟩

/-- Evaluates a program under a depth limit, where everything starts. -/
def evaluate (host : Host) (limit : Nat) (program : Node) : Eval Value :=
  eval (host.room limit) (host.evaluationDepth limit) program World.globalScope

/-- Evaluating a sound session's program leaves the session sound.  The world is what the evaluation
leaves, and results may be added. -/
theorem runProgram_outcome {s : Session} (hs : s.Sound V) {program : Node}
    (hp : program.Fits V .program) :
    let kept (t : Session) := t.Sound V ∧ ∃ results,
      t = { s with world := leaves (evaluate s.host s.depthLimit program) s.world, results }
    Outcome (runProgram program) s (fun _ t => kept t) fun _ t => kept t := by
  intro kept
  have hyields := Eval.program_yields (s.host.room s.depthLimit) (s.host.evaluationDepth s.depthLimit)
    hp World.globalScope hs.world
  unfold runProgram
  simp only [Outcome.bind_iff, Outcome.get_iff]
  unfold Eval.Yields Outcome at hyields
  split at hyields
  · next value w hrun =>
    obtain ⟨hv, hw⟩ := hyields
    have hleaves : leaves (evaluate s.host s.depthLimit program) s.world = w := by
      unfold leaves evaluate
      rw [hrun]
    rw [hrun]
    dsimp only
    split
    · exact ⟨⟨hw, hs.queue, hs.results⟩, s.results, by rw [hleaves]⟩
    · exact ⟨⟨hw, hs.queue, hs.results⟩, s.results, by rw [hleaves]⟩
    · next hne hnull =>
      refine ⟨⟨hw, hs.queue, fun v hm => ?_⟩, s.results ++ [value], by rw [hleaves]⟩
      rcases List.mem_append.1 hm with hm | hm
      · exact hs.results v hm
      · rw [List.mem_singleton.1 hm]
        refine ⟨hv.resolve_right ?_, hnull⟩
        rintro ⟨message, he⟩
        exact hne message he
  · next crash w hrun =>
    have hleaves : leaves (evaluate s.host s.depthLimit program) s.world = w := by
      unfold leaves evaluate
      rw [hrun]
    rw [hrun]
    exact ⟨⟨hyields.2, hs.queue, hs.results⟩, s.results, by rw [hleaves]⟩

/-- **What evaluating programs in order leads to**, from the world that a session was opened with and
under the limit it has for running.  Nothing else happens to the world than that warnings are
written. -/
inductive Evolved (opened : Session) : List Node → World → Prop
  | opening : Evolved opened [] opened.world
  | warned {programs : List Node} {w : World} (h : Evolved opened programs w)
      (warnings : List Diagnostic) : Evolved opened programs (w.write (opened.warningsText warnings))
  | evaluated {programs : List Node} {w : World} (h : Evolved opened programs w) {limit : Nat}
      (hlimit : opened.chosenLimit = .ok limit) (program : Node) :
      Evolved opened (programs ++ [program]) (leaves (evaluate opened.host limit program) w)

namespace Record

variable {opened : Session} {limit : Nat}

/-- **What holds of a record at all times**, for a session that was opened as `opened` and is now under
the depth limit `limit`: the programs started and those that wait are, in this order, the programs that
were added, and the world is what evaluating the programs started leads to. -/
structure Orderly (opened : Session) (limit : Nat) (r : Record) : Prop where
  in_order : r.started ++ r.session.queue = r.added
  sound : r.session.Sound Vocabulary.anything
  evolved : Evolved opened r.started r.session.world
  settings : ∃ world queue results,
    r.session = { opened with depthLimit := limit, world, queue, results }

/-- Each round of the loop moves one program from the queue to those started. -/
theorem runAll_orderly (hlimit : opened.chosenLimit = .ok limit) (programs : List Node) {r : Record}
    (hr : r.Orderly opened limit) (hq : r.session.queue = programs) :
    Outcome (runAll programs) r (fun _ t => t.Orderly opened limit)
      fun _ t => t.Orderly opened limit := by
  induction programs generalizing r with
  | nil => exact hr
  | cons program programs ih =>
    obtain ⟨horder, hsound, hevolved, world, queue, results, hsettings⟩ := hr
    rw [hq] at horder
    have hfits := hsound.queue
    rw [hq, List.forall_mem_cons] at hfits
    -- The program has left the queue and is noted down when its evaluation starts.
    have htaken : Session.Sound Vocabulary.anything { r.session with queue := programs } :=
      ⟨hsound.world, hfits.2, hsound.results⟩
    have hmoved : r.started ++ [program] ++ programs = r.added := by
      rw [← horder, List.append_assoc, List.singleton_append]
    have hhost : r.session.host = opened.host := by rw [hsettings]
    have hdepth : r.session.depthLimit = limit := by rw [hsettings]
    have hnext : Evolved opened (r.started ++ [program])
        (leaves (evaluate r.session.host r.session.depthLimit program) r.session.world) := by
      rw [hhost, hdepth]
      exact hevolved.evaluated hlimit program
    unfold runAll
    simp only [Outcome.bind_iff, Part.unnoted_iff, Outcome.modify_iff]
    refine (runProgram_outcome htaken hfits.1).mono ?_ ?_
    · rintro _ _ ⟨hs, results, rfl⟩
      exact ih ⟨hmoved, hs, hnext, _, _, _, by rw [hsettings]; rfl⟩ rfl
    · rintro _ _ ⟨hs, results, rfl⟩
      exact ⟨hmoved, hs, hnext, _, _, _, by rw [hsettings]; rfl⟩

/-- The depth limit plays no part in the order. -/
theorem Orderly.limited {r : Record} (hr : r.Orderly opened limit) (other : Nat) :
    Orderly opened other { r with session := { r.session with depthLimit := other } } := by
  obtain ⟨horder, ⟨hworld, hqueue, hresults⟩, hevolved, world, queue, results, hsettings⟩ := hr
  exact ⟨horder, ⟨hworld, hqueue, hresults⟩, hevolved, world, queue, results, by rw [hsettings]⟩

/-- The limit for running stays the one that the session was opened with. -/
theorem Orderly.chosenLimit_eq {r : Record} (hr : r.Orderly opened opened.depthLimit) :
    r.session.chosenLimit = opened.chosenLimit := by
  obtain ⟨world, queue, results, hsettings⟩ := hr.settings
  rw [hsettings]
  rfl

theorem run_orderly {r : Record} (hr : r.Orderly opened opened.depthLimit) :
    Outcome run r (fun _ t => t.Orderly opened opened.depthLimit)
      fun _ t => t.Orderly opened opened.depthLimit := by
  have hdepth : r.session.depthLimit = opened.depthLimit := by
    obtain ⟨world, queue, results, hsettings⟩ := hr.settings
    rw [hsettings]
  unfold Outcome run
  cases hlimit : r.session.chosenLimit with
  | error crash => exact hr
  | ok limit =>
    have hrun := runAll_orderly (hr.chosenLimit_eq ▸ hlimit) r.session.queue (hr.limited limit) rfl
    unfold Outcome at hrun
    dsimp only at hrun ⊢
    rw [hdepth]
    split at hrun
    · next heq =>
      rw [heq]
      exact hrun.limited _
    · next heq =>
      rw [heq]
      exact hrun.limited _

theorem add_orderly (text : String) (firstLine : Int) {r : Record} (hr : r.Orderly opened limit) :
    Outcome (add text firstLine) r (fun _ t => t.Orderly opened limit)
      fun _ t => t.Orderly opened limit := by
  obtain ⟨horder, ⟨hworld, hqueue, hresults⟩, hevolved, world, queue, results, hsettings⟩ := hr
  have hreporter : r.session.reporter = opened.reporter := by rw [hsettings]
  have hwarned : ∀ warnings,
      Evolved opened r.started (r.session.world.write (r.session.warningsText warnings)) := by
    intro warnings
    rw [warningsText, hreporter]
    exact hevolved.warned warnings
  unfold add
  simp only [Outcome.bind_iff, Part.unnoted_iff, Outcome.modify_iff, Outcome.pure_iff]
  refine (add_outcome text firstLine r.session).mono ?_ ?_
  · rintro program _ ⟨hp, warnings, rfl⟩
    refine ⟨?_, ⟨hworld, ?_, hresults⟩, hwarned warnings, _, _, _, by rw [hsettings]; rfl⟩
    · show r.started ++ (r.session.queue ++ [program]) = r.added ++ [program]
      rw [← horder, List.append_assoc]
    · intro other ho
      rcases List.mem_append.1 ho with ho | ho
      · exact hqueue other ho
      · rw [List.mem_singleton.1 ho]
        exact hp
  · rintro _ _ ⟨warnings, rfl⟩
    exact ⟨horder, ⟨hworld, hqueue, hresults⟩, hwarned warnings, _, _, _, by rw [hsettings]; rfl⟩

theorem pop_orderly {r : Record} (hr : r.Orderly opened limit) :
    Outcome (bare.unnoted pop) r (fun _ t => t.Orderly opened limit)
      fun _ t => t.Orderly opened limit := by
  obtain ⟨horder, ⟨hworld, hqueue, hresults⟩, hevolved, world, queue, results, hsettings⟩ := hr
  unfold pop
  simp only [Part.unnoted_iff, Outcome.bind_iff, Outcome.get_iff]
  split
  · refine ⟨horder, ⟨hworld, hqueue, fun value hv => ?_⟩, hevolved, world, queue,
      r.session.results.dropLast, ?_⟩
    · exact hresults value (List.dropLast_subset _ hv)
    · show ({ r.session with results := r.session.results.dropLast } : Session) = _
      rw [hsettings]
  · exact ⟨horder, ⟨hworld, hqueue, hresults⟩, hevolved, world, queue, results, hsettings⟩

/-- **Every call keeps the order.** -/
theorem Orderly.after {r : Record} (hr : r.Orderly opened opened.depthLimit) (call : Call) :
    (r.after call).Orderly opened opened.depthLimit := by
  cases call with
  | add text firstLine => exact leaves_of_outcome (add_orderly text firstLine hr)
  | run => exact leaves_of_outcome (run_orderly hr)
  | pop => exact leaves_of_outcome (pop_orderly hr)

theorem Orderly.foldl_after (calls : List Call) {r : Record}
    (hr : r.Orderly opened opened.depthLimit) :
    (calls.foldl Record.after r).Orderly opened opened.depthLimit := by
  induction calls generalizing r with
  | nil => exact hr
  | cons call calls ih => exact ih (hr.after call)

end Record

/-- Running gives the depth limit back, however it ends. -/
theorem depthLimit_after_run (s : Session) : (s.after .run).depthLimit = s.depthLimit := by
  unfold after leaves run
  cases s.chosenLimit with
  | error crash => rfl
  | ok limit =>
    dsimp only
    cases runAll s.queue { s with depthLimit := limit } <;> rfl

/-- **Programs are run once, and in the order in which they were added.**  After any calls on a new
session, on whatever host and whatever became of them: what is on record is the session itself; the
programs started so far, followed by those that wait, are the programs that additions returned; the world
is what evaluating the programs started leads to, and nothing else was evaluated; and the results are
data other than null.  From there, an addition that fails changes nothing but what is written, a run
under a limit that cannot be set changes nothing at all, and no run changes the limit in force. -/
theorem runs_in_order (host : Host) (reporter : Reporter) (path : String) (interactive : Bool)
    (limit : Option Int) (ambient : Nat) (calls : List Call) :
    let opened := { initial reporter path interactive limit host with depthLimit := ambient }
    let s := calls.foldl after opened
    let r := calls.foldl Record.after (Record.opening opened)
    r.session = s ∧ r.started ++ s.queue = r.added ∧ Evolved opened r.started s.world ∧
      (∀ value ∈ s.results, value.isData ∧ value ≠ .null) ∧
      (∀ text firstLine stop t, add text firstLine s = .error stop t →
        ∃ output, t = { s with world := { s.world with output := output } }) ∧
      (∀ crash, s.chosenLimit = .error crash → run s = .error (.crash crash) s) ∧
      (s.after .run).depthLimit = s.depthLimit := by
  intro opened s r
  have hopening : (Record.opening opened).Orderly opened opened.depthLimit :=
    ⟨rfl, ⟨World.sound_initial, List.forall_mem_nil _, List.forall_mem_nil _⟩, .opening, _, _, _, rfl⟩
  have hsession : r.session = s := Record.session_foldl_after calls (Record.opening opened)
  have horderly : r.Orderly opened opened.depthLimit := hopening.foldl_after calls
  obtain ⟨horder, hsound, hevolved, -⟩ := horderly
  rw [hsession] at horder hsound hevolved
  refine ⟨hsession, horder, hevolved, ?_, ?_, ?_, depthLimit_after_run s⟩
  · exact fun value hv => ⟨(hsound.results value hv).1.isData, (hsound.results value hv).2⟩
  · intro text firstLine stop t hadd
    have houtcome := add_outcome text firstLine s
    unfold Outcome at houtcome
    rw [hadd] at houtcome
    obtain ⟨warnings, rfl⟩ := houtcome
    exact ⟨_, rfl⟩
  · intro crash hlimit
    unfold run
    rw [hlimit]

end Session

end LimLang
