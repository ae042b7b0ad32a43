import LimLang.Proofs.Exits
import LimLang.Proofs.SoundValues

/-! # Errors and returned values stand for exits

On well-formed trees and in sound worlds the evaluator and the semantics with exits do the same.
Where one fails, the other yields the error; where one is left with a value, the other yields the
returned value; and both end in the same world, with the same text written.  What a place admits
comes along: an expression has a value and is never left, a program neither.

The two are related step by step.  `Agree` relates how a node ends in each, and `node_agrees`
derives the relation for a node from the relation for the nodes inside it and for calls, which is
all that an evaluation rests on.  It is about any pair of evaluators and ways to call, so the same
step serves an evaluator that is watched.  The semantics with exits puts its steps together in another
way than evaluation does, so this is no correspondence between evaluations.
-/
namespace LimLang

open EStateM (Result)

variable {V : Vocabulary} {place : Place}

/-- A place from which a function or a program can be left. -/
def Place.mayLeave : Place → Bool
  | .statement | .chain | .link | .body => true
  | .expression | .program => false

/-- The values that a node in a place may have: data, and for a statement none at all. -/
def Place.Admits (V : Vocabulary) (place : Place) (value : Value) : Prop :=
  value.Sound V ∨ place = .statement ∧ value = .absent

/-- **How a node in a place ends**, in the evaluator and with exits. -/
inductive Agree (V : Vocabulary) (place : Place) :
    Result Crash World Value → Result Exit World Value → Prop
  | value {v : Value} {w : World} (hv : place.Admits V v) (hw : w.Sound V) :
      Agree V place (.ok v w) (.ok v w)
  | fail {message : String} {w : World} (hw : w.Sound V) :
      Agree V place (.ok (.error message) w) (.error (.fail message) w)
  | leave {id : Nat} {v : Value} {w : World} (hp : place.mayLeave) (hv : v.Sound V)
      (hw : w.Sound V) : Agree V place (.ok (.returned id v) w) (.error (.leave id v) w)
  | crash {w : World} (hw : w.Sound V) :
      Agree V place (.error .tooDeep w) (.error (.crash .tooDeep) w)

/-- How a list of expressions ends, in the evaluator and with exits. -/
inductive AgreeList (V : Vocabulary) :
    Result Crash World (Except String (List Value)) → Result Exit World (List Value) → Prop
  | values {vs : List Value} {w : World} (hvs : ∀ v ∈ vs, v.Sound V) (hw : w.Sound V) :
      AgreeList V (.ok (.ok vs) w) (.ok vs w)
  | fail {message : String} {w : World} (hw : w.Sound V) :
      AgreeList V (.ok (.error message) w) (.error (.fail message) w)
  | crash {w : World} (hw : w.Sound V) :
      AgreeList V (.error .tooDeep w) (.error (.crash .tooDeep) w)

/-- Evaluators that agree on well-formed trees. -/
def AgreeOnTrees (V : Vocabulary) (evaluate : Node → Scope → Eval Value)
    (execute : Node → Scope → Direct Value) : Prop :=
  ∀ (place : Place) (node : Node) (scope : Scope) (w : World), node.Fits V place → w.Sound V →
    Agree V place (evaluate node scope w) (execute node scope w)

/-- Ways to call that agree on data. -/
def AgreeOnCalls (V : Vocabulary) (apply : Value → List Value → Eval Value)
    (perform : Value → List Value → Direct Value) : Prop :=
  ∀ (function : Value) (arguments : List Value) (w : World), function.Sound V →
    (∀ v ∈ arguments, v.Sound V) → w.Sound V →
    Agree V .expression (apply function arguments w) (perform function arguments w)

namespace Agree

variable {x : Eval Value} {y : Direct Value} {w : World} {v : Value}

theorem data (hv : v.Sound V) (hw : w.Sound V) : Agree V place (.ok v w) (.ok v w) :=
  .value (.inl hv) hw

/-- **What an expression is part of goes on with its value, or ends as it does.** -/
theorem bind {k : Value → Eval Value} {g : Value → Direct Value}
    (h : Agree V .expression (x w) (y w)) (herror : ∀ m, k (.error m) = pure (.error m))
    (hdata : ∀ v w', v.Sound V → w'.Sound V → Agree V place (k v w') (g v w')) :
    Agree V place ((x >>= k) w) ((y >>= g) w) := by
  show Agree V place (EStateM.bind x k w) (EStateM.bind y g w)
  unfold EStateM.bind
  generalize x w = r at h
  generalize y w = r' at h
  cases h with
  | value hv hw =>
    rcases hv with hv | ⟨hp, -⟩
    · exact hdata _ _ hv hw
    · cases hp
  | fail hw =>
    -- The evaluator looks at the value, finds the error and hands it on.
    show Agree V place (k (.error _) _) _
    rw [herror]
    exact .fail hw
  | leave hp _ _ => cases hp
  | crash hw => exact .crash hw

/-- What a list of expressions is part of goes on with their values, or ends as they do. -/
theorem bindList {xs : Eval (Except String (List Value))} {ys : Direct (List Value)}
    {k : Except String (List Value) → Eval Value} {g : List Value → Direct Value}
    (h : AgreeList V (xs w) (ys w)) (herror : ∀ m, k (.error m) = pure (.error m))
    (hdata : ∀ vs w', (∀ v ∈ vs, v.Sound V) → w'.Sound V →
      Agree V place (k (.ok vs) w') (g vs w')) :
    Agree V place ((xs >>= k) w) ((ys >>= g) w) := by
  show Agree V place (EStateM.bind xs k w) (EStateM.bind ys g w)
  unfold EStateM.bind
  generalize xs w = r at h
  generalize ys w = r' at h
  cases h with
  | values hvs hw => exact hdata _ _ hvs hw
  | fail hw =>
    show Agree V place (k (.error _) _) _
    rw [herror]
    exact .fail hw
  | crash hw => exact .crash hw

/-- An operation on data. -/
theorem operation (h : Eval.Yields V x w) : Agree V place (x w) (Direct.operation x w) := by
  unfold Direct.operation
  unfold Eval.Yields Outcome at h
  cases hx : x w with
  | ok v w' =>
    rw [hx] at h
    obtain ⟨hv | ⟨message, rfl⟩, hw⟩ := h
    · cases hv
      case array h => exact .data (.array h) hw
      case function h => exact .data (.function h) hw
      all_goals exact .data (by constructor) hw
    · exact .fail hw
  | error crash w' =>
    rw [hx] at h
    obtain ⟨rfl, hw⟩ := h
    exact .crash hw

/-- What always has a value may stand wherever a function can be left from. -/
theorem relax {other : Place} {r : Result Crash World Value} {r' : Result Exit World Value}
    (h : Agree V other r r') (ho : other ≠ .statement) (hp : place.mayLeave) :
    Agree V place r r' := by
  cases h with
  | value hv hw =>
    rcases hv with hv | ⟨hs, -⟩
    · exact .data hv hw
    · exact absurd hs ho
  | fail hw => exact .fail hw
  | leave _ hv hw => exact .leave hp hv hw
  | crash hw => exact .crash hw

theorem ite {p : Prop} [Decidable p] {x' : Eval Value} {y' : Direct Value}
    (h : Agree V place (x w) (y w)) (h' : Agree V place (x' w) (y' w)) :
    Agree V place ((if p then x else x') w) ((if p then y else y') w) := by
  split
  · exact h
  · exact h'

/-- **A body that is left has the value it is left with.**  The evaluator unwraps the value once. -/
theorem catchLeave {k : Value → Eval Value} (h : Agree V .body (x w) (y w))
    (hreturned : ∀ id v, k (.returned id v) = pure v) (herror : ∀ m, k (.error m) = pure (.error m))
    (hdata : ∀ v, v.Sound V → k v = pure v) :
    Agree V place ((x >>= k) w) (Direct.catchLeave y w) := by
  show Agree V place (EStateM.bind x k w) _
  unfold EStateM.bind Direct.catchLeave
  generalize x w = r at h
  generalize y w = r' at h
  cases h with
  | @value v w' hv hw =>
    rcases hv with hv | ⟨hp, -⟩
    · show Agree V place (k v w') _
      rw [hdata v hv]
      exact .data hv hw
    · cases hp
  | fail hw =>
    show Agree V place (k (.error _) _) _
    rw [herror]
    exact .fail hw
  | leave _ hv hw =>
    show Agree V place (k (.returned _ _) _) _
    rw [hreturned]
    exact .data hv hw
  | crash hw => exact .crash hw

end Agree

/-- The values of expressions in front of which there is one more. -/
def Eval.consValue (v : Value) (xs : Eval (Except String (List Value))) :
    Eval (Except String (List Value)) := do
  match ← xs with
  | .ok values => return .ok (v :: values)
  | .error message => return .error message

/-- One value in front of others. -/
theorem AgreeList.cons {v : Value} {w : World} (hv : v.Sound V)
    {xs : Eval (Except String (List Value))} {ys : Direct (List Value)}
    (h : AgreeList V (xs w) (ys w)) :
    AgreeList V (Eval.consValue v xs w) ((do return v :: (← ys) : Direct (List Value)) w) := by
  show AgreeList V (EStateM.bind xs _ w) (EStateM.bind ys _ w)
  unfold EStateM.bind
  generalize xs w = r at h
  generalize ys w = r' at h
  cases h with
  | values hvs hw => exact .values (List.forall_mem_cons.2 ⟨hv, hvs⟩) hw
  | fail hw => exact .fail hw
  | crash hw => exact .crash hw

section Step

variable {evaluate : Node → Scope → Eval Value} {execute : Node → Scope → Direct Value}
  {apply : Value → List Value → Eval Value} {perform : Value → List Value → Direct Value}
  {scope : Scope} {w : World}

/-- Expressions one after another. -/
theorem list_agrees (hE : AgreeOnTrees V evaluate execute) {nodes : List Node}
    (h : ∀ n ∈ nodes, n.Fits V .expression) (hw : w.Sound V) :
    AgreeList V (Eval.list (evaluate · scope) nodes w) (Direct.list (execute · scope) nodes w) := by
  induction nodes generalizing w with
  | nil => exact .values (by simp) hw
  | cons n nodes ih =>
    obtain ⟨hn, hs⟩ := List.forall_mem_cons.1 h
    have hfirst := hE .expression n scope w hn hw
    show AgreeList V (EStateM.bind (evaluate n scope) _ w) (EStateM.bind (execute n scope) _ w)
    unfold EStateM.bind
    generalize evaluate n scope w = r at hfirst
    generalize execute n scope w = r' at hfirst
    cases hfirst with
    | value hv hw' =>
      have hv := hv.resolve_right fun hp => by cases hp.1
      have hrest := (ih hs hw').cons hv
      cases hv <;> exact hrest
    | fail hw' => exact .fail hw'
    | leave hp _ _ => cases hp
    | crash hw' => exact .crash hw'

/-- Statements one after another.  The first that fails or leaves is the last. -/
theorem block_agrees (hE : AgreeOnTrees V evaluate execute) {nodes : List Node}
    (h : ∀ n ∈ nodes, n.Fits V .statement) {last : Value} (hlast : Place.statement.Admits V last)
    (hw : w.Sound V) :
    Agree V .body (Eval.block (evaluate · scope) last nodes w)
      (Direct.sequence (execute · scope) last nodes w) := by
  induction nodes generalizing last w with
  | nil =>
    rcases hlast with hlast | ⟨-, rfl⟩
    · have hvalue : Agree V .body (.ok last w) (.ok last w) := .data hlast hw
      cases hlast <;> exact hvalue
    · exact .data .null hw
  | cons n nodes ih =>
    obtain ⟨hn, hs⟩ := List.forall_mem_cons.1 h
    have hfirst := hE .statement n scope w hn hw
    show Agree V .body (EStateM.bind (evaluate n scope) _ w) (EStateM.bind (execute n scope) _ w)
    unfold EStateM.bind
    generalize evaluate n scope w = r at hfirst
    generalize execute n scope w = r' at hfirst
    cases hfirst with
    | value hv hw' =>
      have hrest := ih hs hv hw'
      rcases hv with hv | ⟨-, rfl⟩
      · cases hv <;> exact hrest
      · exact hrest
    | fail hw' => exact .fail hw'
    | leave _ hv hw' => exact .leave rfl hv hw'
    | crash hw' => exact .crash hw'

/-- A chain of branches. -/
theorem branches_agrees (hE : AgreeOnTrees V evaluate execute) {node : Node}
    (h : node.Fits V place) (hp : place = .chain ∨ place = .link) (hw : w.Sound V) :
    Agree V place (Eval.branches (evaluate · scope) node w)
      (Direct.branches (execute · scope) node w) := by
  have hleave : place.mayLeave := by rcases hp with rfl | rfl <;> rfl
  induction h generalizing w with
  | ifThen hc hb =>
    refine (hE .expression _ scope w hc hw).bind (fun _ => rfl) fun v w' hv hw' => ?_
    have hbody := (hE .body _ scope w' hb hw').relax (by decide) hleave
    have hchoice := hbody.ite (p := v.isTruthy) (.data .null hw')
    cases hv <;> exact hchoice
  | ifElse hc hb _ _ _ ihn =>
    refine (hE .expression _ scope w hc hw).bind (fun _ => rfl) fun v w' hv hw' => ?_
    have hbody := (hE .body _ scope w' hb hw').relax (by decide) hleave
    have hnext := (ihn (.inr rfl) hw' rfl).relax (by decide) hleave
    have hchoice := hbody.ite (p := v.isTruthy) hnext
    cases hv <;> exact hchoice
  | otherwise hb => exact (hE .body _ scope w hb hw).relax (by decide) hleave
  | elseIf _ ih => exact (ih (.inl rfl) hw rfl).relax (by decide) hleave
  | _ => rcases hp with hp | hp <;> cases hp

/-- A call: the arguments are bound in a scope of their own, and the body is left for good. -/
theorem call_agrees (room : Room) (hE : AgreeOnTrees V evaluate execute) :
    AgreeOnCalls V (Eval.call room evaluate) (Direct.call room execute) := by
  intro function arguments w hf ha hw
  cases hf with
  | @function id closure hbody =>
    unfold Eval.call Direct.call
    by_cases hlength : arguments.length = closure.parameters.length
    · simp only [if_pos hlength]
      refine Agree.catchLeave (hE .body _ _ _ hbody (hw.enclosed.bindParameters ha))
        (fun _ _ => rfl) (fun _ => rfl) fun v hv => ?_
      cases hv <;> rfl
    · simp only [if_neg hlength]
      exact .fail hw
  | builtin => exact Agree.operation (Eval.callBuiltin_yields room _ ha hw)
  | _ => exact .fail hw

/-- **One node.**  If the evaluators agree on the nodes inside it and the ways to call agree, it
ends in both alike. -/
theorem node_agrees (hE : AgreeOnTrees V evaluate execute) (hA : AgreeOnCalls V apply perform) :
    AgreeOnTrees V (Eval.node apply evaluate) (Direct.node perform execute) := by
  intro place node scope w h hw
  -- The nodes inside are settled by `hE`; the induction is only for chains, which stand in three places.
  induction h with
  | ident _ => exact .operation (Eval.identifier_yields scope _ hw)
  | int _ => exact .data .int hw
  | bool => exact .data .bool hw
  | string _ => exact .data .string hw
  | null => exact .data .null hw
  | array hes _ =>
    refine Agree.bindList (list_agrees hE hes hw) (fun _ => rfl) fun vs w' hvs hw' => ?_
    exact .data (.array hvs) (hw'.fresh _)
  | unary _ hr _ =>
    refine (hE .expression _ scope w hr hw).bind (fun _ => rfl) fun v w' hv hw' => ?_
    split
    · cases hv
    · exact .operation (Eval.unary_yields _ hv hw')
  | binary _ hl hr _ _ =>
    refine (hE .expression _ scope w hl hw).bind (fun _ => rfl) fun u w' hu hw' => ?_
    split
    · cases hu
    · refine (hE .expression _ scope w' hr hw').bind (fun _ => rfl) fun v w'' hv hw'' => ?_
      split
      · cases hv
      · exact .operation (Eval.binary_yields _ hu hv hw'')
  | call hf hes _ _ =>
    refine (hE .expression _ scope w hf hw).bind (fun _ => rfl) fun f w' hf hw' => ?_
    split
    · cases hf
    · exact .bindList (list_agrees hE hes hw') (fun _ => rfl)
        fun vs w'' hvs hw'' => hA f vs w'' hf hvs hw''
  | index hl hp _ _ =>
    refine (hE .expression _ scope w hl hw).bind (fun _ => rfl) fun u w' hu hw' => ?_
    split
    · cases hu
    · refine (hE .expression _ scope w' hp hw').bind (fun _ => rfl) fun v w'' hv hw'' => ?_
      split
      · cases hv
      · exact .operation (Eval.index_yields hu hv hw'')
  | declare _ hv _ =>
    refine (hE .expression _ scope w hv hw).bind (fun _ => rfl) fun v w' hv hw' => ?_
    split
    · cases hv
    · exact .value (.inr ⟨rfl, rfl⟩) (hw'.bind hv)
  | declareArray _ _ hv _ =>
    refine (hE .expression _ scope w hv hw).bind (fun _ => rfl) fun v w' hv hw' => ?_
    split
    · cases hv
    · exact .data hv (hw'.bind hv)
  | bareReturn => exact .leave rfl .null (hw.fresh _)
  | returnValue hv _ =>
    refine (hE .expression _ scope w hv hw).bind (fun _ => rfl) fun v w' hv hw' => ?_
    split
    · cases hv
    · exact .leave rfl hv (hw'.fresh _)
  | expression hv _ => exact (hE .expression _ scope w hv hw).relax (by decide) rfl
  | function _ _ _ hb _ =>
    exact .value (.inr ⟨rfl, rfl⟩) ((hw.fresh _).bind (.function hb))
  | branches _ ih => exact ih.relax (by decide) rfl
  | ifThen hc hb _ _ => exact branches_agrees hE (.ifThen hc hb) (.inl rfl) hw
  | ifElse hc hb hn _ _ _ => exact branches_agrees hE (.ifElse hc hb hn) (.inl rfl) hw
  | otherwise hb _ => exact branches_agrees hE (.otherwise hb) (.inr rfl) hw
  | elseIf _ ih => exact ih.relax (by decide) rfl
  | block hs _ => exact block_agrees hE hs (.inr ⟨rfl, rfl⟩) hw
  | program hs _ =>
    -- The only difference between a program and a block is who is left.
    show Agree V .program (Eval.program (evaluate · scope) .absent _ w) _
    rw [Eval.program_eq_block _ _ (by simp)]
    refine (block_agrees hE hs (.inr ⟨rfl, rfl⟩) hw).catchLeave (fun _ _ => rfl) (fun _ => rfl)
      fun v hv => ?_
    cases hv <;> rfl

end Step

/-- **The evaluator and the semantics with exits agree**, however deep evaluation may be nested. -/
theorem eval_agrees (room : Room) (depth : Nat) :
    AgreeOnTrees V (eval room depth) (direct room depth) := by
  induction depth with
  | zero =>
    intro place node scope w _ hw
    exact .crash hw
  | succ depth ih => exact node_agrees ih (call_agrees room ih)

/-! ## What comes after an exit -/

/-- A value that stands for an exit. -/
def Value.isSignal : Value → Bool
  | error _ | returned _ _ => true
  | _ => false

/-- After a statement that fails or returns, nothing is evaluated. -/
theorem block_append {evaluate : Node → Eval Value} {last v : Value} {statements : List Node}
    (rest : List Node) {w w' : World} (hlast : !last.isSignal) (hv : v.isSignal)
    (h : Eval.block evaluate last statements w = .ok v w') :
    Eval.block evaluate last (statements ++ rest) w = .ok v w' := by
  induction statements generalizing last w with
  | nil =>
    -- Without statements there is no exit.
    cases last with
    | error _ => cases hlast
    | returned _ _ => cases hlast
    | _ =>
      cases h
      cases hv
  | cons n statements ih =>
    change EStateM.bind (evaluate n) _ w = _ at h
    show EStateM.bind (evaluate n) _ w = _
    unfold EStateM.bind at h ⊢
    cases hn : evaluate n w with
    | error crash w₁ =>
      rw [hn] at h
      cases h
    | ok u w₁ =>
      rw [hn] at h
      cases u with
      | error message => exact h
      | returned id value => exact h
      | _ => exact ih rfl h

theorem Eval.consValue_eq_error {v : Value} {xs : Eval (Except String (List Value))}
    {message : String} {w w' : World} :
    Eval.consValue v xs w = .ok (.error message) w' ↔ xs w = .ok (.error message) w' := by
  show EStateM.bind xs _ w = _ ↔ _
  unfold EStateM.bind
  cases xs w with
  | error crash w₁ => simp
  | ok values w₁ =>
    cases values with
    | error m => exact Iff.rfl
    | ok vs => constructor <;> intro h <;> cases h

/-- To the right of an expression that fails, nothing is evaluated. -/
theorem list_append {evaluate : Node → Eval Value} {nodes : List Node} (rest : List Node)
    {message : String} {w w' : World} (h : Eval.list evaluate nodes w = .ok (.error message) w') :
    Eval.list evaluate (nodes ++ rest) w = .ok (.error message) w' := by
  induction nodes generalizing w w' with
  | nil => cases h
  | cons n nodes ih =>
    change EStateM.bind (evaluate n) _ w = _ at h
    show EStateM.bind (evaluate n) _ w = _
    unfold EStateM.bind at h ⊢
    cases hn : evaluate n w with
    | error crash w₁ =>
      rw [hn] at h
      cases h
    | ok u w₁ =>
      rw [hn] at h
      have hrest : ∀ v, Eval.consValue v (Eval.list evaluate nodes) w₁ = .ok (.error message) w' →
          Eval.consValue v (Eval.list evaluate (nodes ++ rest)) w₁ = .ok (.error message) w' :=
        fun v hv => Eval.consValue_eq_error.2 (ih (Eval.consValue_eq_error.1 hv))
      cases u with
      | error m => exact h
      | _ => exact hrest _ h

/-! ## Programs -/

/-- **The worlds that well-formed programs lead to**, whether they come to an end or crash. -/
inductive World.Reachable (V : Vocabulary) : World → Prop
  | initial : Reachable V World.initial
  | run {room : Room} {depth : Nat} {program : Node} {value : Value} {w w' : World}
      (h : Reachable V w) (hp : program.Fits V .program)
      (hrun : eval room depth program World.globalScope w = .ok value w') : Reachable V w'
  | crash {room : Room} {depth : Nat} {program : Node} {crash : Crash} {w w' : World}
      (h : Reachable V w) (hp : program.Fits V .program)
      (hrun : eval room depth program World.globalScope w = .error crash w') : Reachable V w'

/-- **What programs keep holds in every world they lead to**, if it holds in a new world. -/
theorem World.Reachable.invariant {P : World → Prop} {w : World} (h : w.Reachable V)
    (h₀ : P World.initial)
    (hkept : ∀ (room : Room) (depth : Nat) (program : Node) (w : World), program.Fits V .program → P w →
      Outcome (eval room depth program World.globalScope) w (fun _ => P) fun _ => P) : P w := by
  induction h with
  | initial => exact h₀
  | run _ hp hrun ih => exact (Outcome.iff_of_ok hrun).1 (hkept _ _ _ _ hp ih)
  | crash _ hp hrun ih => exact (Outcome.iff_of_error hrun).1 (hkept _ _ _ _ hp ih)

theorem Agree.sound_ok {v : Value} {w : World} {r : Result Exit World Value}
    (h : Agree V place (.ok v w) r) : w.Sound V := by
  cases h <;> assumption

theorem Agree.sound_error {crash : Crash} {w : World} {r : Result Exit World Value}
    (h : Agree V place (.error crash w) r) : w.Sound V := by
  cases h
  assumption

/-- Running well-formed programs keeps the world sound. -/
theorem World.Reachable.sound {w : World} (h : w.Reachable V) : w.Sound V := by
  refine h.invariant sound_initial fun room depth program w hp hw => ?_
  have hagree := eval_agrees room depth .program program World.globalScope w hp hw
  unfold Outcome
  cases hrun : eval room depth program World.globalScope w with
  | ok v w' =>
    rw [hrun] at hagree
    exact hagree.sound_ok
  | error crash w' =>
    rw [hrun] at hagree
    exact hagree.sound_error

/-- **What the evaluator makes of a program that ends so with exits.**  A program is never left:
what leaves it ends it. -/
def Refines (evaluated : Result Crash World Value) : Result Exit World Value → Prop
  | .ok value w => evaluated = .ok value w ∧ !value.isSignal
  | .error (.fail message) w => evaluated = .ok (.error message) w
  | .error (.leave _ _) _ => False
  | .error (.crash crash) w => evaluated = .error crash w

/-- **Errors and returned values do what exits do.**  A program has the same result with the same
world in both semantics, and in particular the same text written and the same bindings.  What stands
after a statement that fails or returns, or to the right of an expression that fails, makes no
difference. -/
theorem eval_refines_direct (w : World) (hw : w.Reachable V) (program : Node)
    (hp : program.Fits V .program) (room : Room) (depth : Nat) (scope : Scope) :
    Refines (eval room depth program scope w) (direct room depth program scope w) ∧
      (∀ (statements rest : List Node) (v : Value) (scope : Scope) (w w' : World), v.isSignal →
        Eval.block (eval room depth · scope) .absent statements w = .ok v w' →
        Eval.block (eval room depth · scope) .absent (statements ++ rest) w = .ok v w') ∧
      ∀ (nodes rest : List Node) (message : String) (scope : Scope) (w w' : World),
        Eval.list (eval room depth · scope) nodes w = .ok (.error message) w' →
        Eval.list (eval room depth · scope) (nodes ++ rest) w = .ok (.error message) w' := by
  refine ⟨?_, fun _ rest _ _ _ _ hv h => block_append rest rfl hv h,
    fun _ rest _ _ _ _ h => list_append rest h⟩
  have hagree := eval_agrees room depth .program program scope w hp hw.sound
  generalize eval room depth program scope w = r at hagree
  generalize direct room depth program scope w = r' at hagree
  cases hagree with
  | value hv _ =>
    have hv := hv.resolve_right fun hp => by cases hp.1
    refine ⟨rfl, ?_⟩
    cases hv <;> rfl
  | fail _ => rfl
  | leave hp _ _ => cases hp
  | crash _ => rfl

/-- A return from a branch of a function skips the division after it; the failure that follows the
call ends the program before `print` is called. -/
theorem eval_refines_direct_failure : ∃ program : Node,
    program.Fits Vocabulary.standard .program ∧
      World.initial.Reachable Vocabulary.standard ∧
      (∃ w, eval none 20 program World.globalScope World.initial =
        .ok (.error "identifier not found: y") w ∧ w.output = "") ∧
      Refines (eval none 20 program World.globalScope World.initial)
        (direct none 20 program World.globalScope World.initial) := by
  let t : Token := { kind := .illegal, text := "" }
  let name (text : String) : Node := .ident { token := t, name := text }
  let branch : Node := .ifThen t (.bool t true) (.block t [.bareReturn t])
  let body : Node := .block t [branch, .expression t (.binary t (.int t 1) "/" (.int t 0))]
  let program : Node := .program [.function t "f" [] none body, .expression t (.call t (name "f") []),
    .expression t (.call t (name "print") [name "y", .int t 1])]
  have hf : Vocabulary.IsName "f" := ⟨'f', [], rfl, rfl, rfl, rfl⟩
  have hy : Vocabulary.IsName "y" := ⟨'y', [], rfl, rfl, rfl, rfl⟩
  have hprint : Vocabulary.IsName "print" := ⟨'p', ['r', 'i', 'n', 't'], rfl, rfl, rfl, rfl⟩
  have hint : Vocabulary.standard.int 0 ∧ Vocabulary.standard.int 1 := by
    simp [Vocabulary.standard, MachineInt.bound]
  have hbranch : branch.Fits Vocabulary.standard .chain :=
    .ifThen .bool (.block (by simpa using .bareReturn))
  have hbody : body.Fits Vocabulary.standard .body := by
    refine .block ?_
    simp only [List.forall_mem_cons]
    exact ⟨.branches hbranch,
      .expression (.binary (by simp [Vocabulary.standard]) (.int hint.2) (.int hint.1)), by simp⟩
  have harguments : ∀ e ∈ [name "y", .int t 1], e.Fits Vocabulary.standard .expression := by
    simp only [List.forall_mem_cons]
    exact ⟨.ident ⟨hy, rfl⟩, .int hint.2, by simp⟩
  have hp : program.Fits Vocabulary.standard .program := by
    refine .program ?_
    simp only [List.forall_mem_cons]
    exact ⟨.function hf (by simp) (by simp [Vocabulary.standard]) hbody,
      .expression (.call (.ident ⟨hf, rfl⟩) (by simp)),
      .expression (.call (.ident ⟨hprint, rfl⟩) harguments), by simp⟩
  refine ⟨program, hp, .initial, ⟨_, rfl, rfl⟩, ?_⟩
  exact (eval_refines_direct World.initial .initial program hp none 20 World.globalScope).1

end LimLang
