import LimLang.Proofs.Refinement

/-! # Evaluation is safe

No error, no returned value and no absence of a value ever gets among the data: not into a frame,
not into an array, not into the arguments of a call.  Expressions and programs never yield a
returned value or nothing at all, and what is returned is data.  Evaluation of well-formed programs
crashes for no reason but that it is nested too deep.

All this is to hold at every point of an evaluation, so evaluation is *watched*.  A watched
evaluator looks at the whole world when the evaluation of a node begins and when it ends, at the
value it ends with, and at what every call is given, and raises an alarm if anything is amiss.  What
it looks for can be computed.  On well-formed programs it does exactly what the evaluator does, so
there is never an alarm.
-/
namespace LimLang

open EStateM (Result)

variable {V : Vocabulary} {place : Place}

/-! ## What is looked for -/

namespace Value

mutual

/-- Data at every depth: neither the value nor anything inside it is a signal or absent. -/
def isData : Value → Bool
  | array _ elements => allData elements
  | returned _ _ | error _ | absent => false
  | int _ | bool _ | string _ | null | function _ _ | builtin _ => true

/-- Several values that are data. -/
def allData : List Value → Bool
  | [] => true
  | value :: values => value.isData && allData values

end

theorem allData_of_forall {values : List Value} (h : ∀ v ∈ values, v.isData) : allData values := by
  induction values with
  | nil => rw [allData]
  | cons v values ih =>
    obtain ⟨hv, hs⟩ := List.forall_mem_cons.1 h
    rw [allData, hv, ih hs]
    rfl

theorem Sound.isData {value : Value} (h : value.Sound V) : value.isData := by
  induction h with
  | array _ ih => rw [Value.isData, allData_of_forall ih]
  | _ => rw [Value.isData]

end Value

/-- All frames hold data. -/
def World.holdsData (w : World) : Bool :=
  w.frames.all fun frame => frame.all fun binding => binding.2.isData

theorem World.Sound.holdsData {w : World} (h : w.Sound V) : w.holdsData := by
  rw [World.holdsData, Array.all_eq_true']
  intro frame hf
  rw [List.all_eq_true]
  exact fun binding hb => (h frame hf binding hb).isData

/-- What a node may yield.  Only a statement may have no value or yield a returned value, and what
is returned is data. -/
def Node.mayYield (node : Node) : Value → Bool
  | .absent => node.isStatement
  | .returned _ value => node.isStatement && value.isData
  | .error _ => true
  | value => value.isData

theorem Node.Fits.isStatement {node : Node} (h : node.Fits V place) (hp : place.mayLeave) :
    node.isStatement := by
  induction h with
  | branches _ ih => exact ih rfl
  | elseIf _ ih => exact ih rfl
  | _ => first | rfl | cases hp

/-! ## Watching -/

namespace Eval

/-- What a watched evaluation crashes with when something is amiss. -/
def alarm : Crash :=
  .fault (.other "alarm" "")

/-- Evaluates a node, with a look at the world before, and at the world and the value after. -/
def watch (evaluate : Node → Scope → Eval Value) (node : Node) (scope : Scope) : Eval Value := do
  if (← get).holdsData then
    let value ← evaluate node scope
    if (← get).holdsData && node.mayYield value then return value else throw alarm
  else throw alarm

/-- Calls a function, with a look at the function, the arguments and the world. -/
def watchCall (apply : Value → List Value → Eval Value) (function : Value) (arguments : List Value) :
    Eval Value := do
  if (← get).holdsData && function.isData && Value.allData arguments then apply function arguments
  else throw alarm

end Eval

/-- **Watched evaluation**: every evaluation inside it and every call is watched too. -/
def watchedEval (room : Room) : Nat → Node → Scope → Eval Value
  | 0, _, _ => throw .tooDeep
  | depth + 1, node, scope =>
      Eval.watch (Eval.node (Eval.watchCall (Eval.call room (watchedEval room depth)))
        (watchedEval room depth)) node scope

theorem mayYield_of_agree {node : Node} {v : Value} {w : World} {r : Result Exit World Value}
    (h : node.Fits V place) (hagree : Agree V place (.ok v w) r) : node.mayYield v := by
  cases hagree with
  | value hv _ =>
    rcases hv with hv | ⟨rfl, rfl⟩
    · have hdata := hv.isData
      cases hv <;> exact hdata
    · exact h.isStatement rfl
  | fail _ => rfl
  | leave hp hv _ =>
    rw [Node.mayYield, h.isStatement hp, hv.isData]
    rfl

section Watching

variable {evaluate : Node → Scope → Eval Value} {execute : Node → Scope → Direct Value}
  {apply : Value → List Value → Eval Value} {perform : Value → List Value → Direct Value}

/-- Watching an evaluator changes nothing. -/
theorem watch_agrees (hE : AgreeOnTrees V evaluate execute) :
    AgreeOnTrees V (Eval.watch evaluate) execute := by
  intro place node scope w h hw
  have hagree := hE place node scope w h hw
  have hwatch : Eval.watch evaluate node scope w = evaluate node scope w := by
    show (if w.holdsData then _ else _ : Eval Value) w = _
    rw [if_pos hw.holdsData]
    show EStateM.bind (evaluate node scope) _ w = _
    unfold EStateM.bind
    cases hrun : evaluate node scope w with
    | error crash w' => rfl
    | ok v w' =>
      -- The agreement with exits says what the place admits, which is what is looked for.
      rw [hrun] at hagree
      have hlook : (w'.holdsData && node.mayYield v) = true := by
        rw [hagree.sound_ok.holdsData, mayYield_of_agree h hagree]
        rfl
      show (if w'.holdsData && node.mayYield v then _ else _ : Eval Value) w' = _
      rw [if_pos hlook]
      rfl
  rw [hwatch]
  exact hagree

/-- Watching calls changes nothing. -/
theorem watchCall_agrees (hA : AgreeOnCalls V apply perform) :
    AgreeOnCalls V (Eval.watchCall apply) perform := by
  intro function arguments w hf ha hw
  have hlook : (w.holdsData && function.isData && Value.allData arguments) = true := by
    rw [hw.holdsData, hf.isData, Value.allData_of_forall fun v hv => (ha v hv).isData]
    rfl
  have hwatch : Eval.watchCall apply function arguments w = apply function arguments w := by
    show (if w.holdsData && function.isData && Value.allData arguments then _ else _ :
      Eval Value) w = _
    rw [if_pos hlook]
  rw [hwatch]
  exact hA function arguments w hf ha hw

end Watching

theorem watchedEval_agrees (room : Room) (depth : Nat) :
    AgreeOnTrees V (watchedEval room depth) (direct room depth) := by
  induction depth with
  | zero =>
    intro place node scope w _ hw
    exact .crash hw
  | succ depth ih => exact watch_agrees (node_agrees ih (watchCall_agrees (call_agrees room ih)))

/-- What the evaluator does is determined by what happens with exits. -/
theorem Agree.unique {r s : Result Crash World Value} {r' : Result Exit World Value}
    (h : Agree V place r r') (h' : Agree V place s r') : r = s := by
  cases h <;> cases h' <;> rfl

/-- **How a program may end**: with data or an error, or because it is nested too deep, and in any
case in a world that holds data. -/
def EndsSafely : Result Crash World Value → Prop
  | .ok value w => (value.isData ∨ ∃ message, value = .error message) ∧ w.holdsData
  | .error crash w => crash = .tooDeep ∧ w.holdsData

/-- **Evaluation is safe.**  From an empty world, after any well-formed programs, the world holds
data; the next well-formed program is evaluated without an alarm and ends safely. -/
theorem eval_safe (w : World) (hw : w.Reachable V) (program : Node) (hp : program.Fits V .program)
    (room : Room) (depth : Nat) :
    w.holdsData ∧
      watchedEval room depth program World.globalScope w =
        eval room depth program World.globalScope w ∧
      EndsSafely (eval room depth program World.globalScope w) := by
  have hagree := eval_agrees room depth .program program World.globalScope w hp hw.sound
  have hwatched := watchedEval_agrees room depth .program program World.globalScope w hp hw.sound
  refine ⟨hw.sound.holdsData, hwatched.unique hagree, ?_⟩
  generalize eval room depth program World.globalScope w = r at hagree
  generalize direct room depth program World.globalScope w = r' at hagree
  cases hagree with
  | value hv hw' =>
    have hv := hv.resolve_right fun hp => by cases hp.1
    exact ⟨.inl hv.isData, hw'.holdsData⟩
  | fail hw' => exact ⟨.inr ⟨_, rfl⟩, hw'.holdsData⟩
  | leave hp _ _ => cases hp
  | crash hw' => exact ⟨rfl, hw'.holdsData⟩

/-- After `x` is bound: a call that returns from a branch, in an array of which another element
fails. -/
theorem eval_safe_branch : ∃ (w : World) (program : Node),
    w.Reachable Vocabulary.standard ∧ program.Fits Vocabulary.standard .program ∧
      w.bindings World.globalScope ≠ [] ∧ w.holdsData ∧
      watchedEval none 20 program World.globalScope w = eval none 20 program World.globalScope w ∧
      EndsSafely (eval none 20 program World.globalScope w) := by
  let t : Token := { kind := .illegal, text := "" }
  let x : Ident := { token := t, name := "x" }
  let f : Ident := { token := t, name := "f" }
  let earlier : Node := .program [.declare t .int x (.ident { token := t, name := "print" })]
  let body : Node := .block t [.ifThen t (.bool t true) (.block t [.returnValue t (.ident x)])]
  let program : Node := .program [.function t "f" [] none body,
    .expression t (.array t [.call t (.ident f) [], .unary t "-" (.null t)])]
  have hx : Vocabulary.standard.varName x := ⟨⟨'x', [], rfl, rfl, rfl, rfl⟩, rfl⟩
  have hf : Vocabulary.IsName "f" := ⟨'f', [], rfl, rfl, rfl, rfl⟩
  have hprint : Vocabulary.IsName "print" := ⟨'p', ['r', 'i', 'n', 't'], rfl, rfl, rfl, rfl⟩
  have hearlier : earlier.Fits Vocabulary.standard .program :=
    .program (by simpa [earlier] using .declare hx (.ident ⟨hprint, rfl⟩))
  have hbody : body.Fits Vocabulary.standard .body := by
    refine .block ?_
    rw [List.forall_mem_singleton]
    refine .branches (.ifThen .bool (.block ?_))
    rw [List.forall_mem_singleton]
    exact .returnValue (.ident hx)
  have harray : ∀ e ∈ [Node.call t (.ident f) [], .unary t "-" (.null t)],
      e.Fits Vocabulary.standard .expression := by
    simp only [List.forall_mem_cons]
    exact ⟨.call (.ident ⟨hf, rfl⟩) (by simp), .unary (by simp [Vocabulary.standard]) .null, by simp⟩
  have hp : program.Fits Vocabulary.standard .program := by
    refine .program ?_
    simp only [List.forall_mem_cons]
    exact ⟨.function hf (by simp) (by simp [Vocabulary.standard]) hbody,
      .expression (.array harray), by simp⟩
  let w : World := World.initial.bind World.globalScope "x" (.builtin .print)
  have hrun : eval none 3 earlier World.globalScope World.initial = .ok .null w := rfl
  have hw : w.Reachable Vocabulary.standard := .run .initial hearlier hrun
  have hbound : w.bindings World.globalScope ≠ [] := by
    simp [w, World.bindings, World.bind, World.initial, World.globalScope, World.frame, Frame.sorted,
      Frame.bind]
  exact ⟨w, program, hw, hp, hbound, eval_safe w hw program hp none 20⟩

end LimLang
