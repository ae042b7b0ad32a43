import LimLang.Proofs.Accord
import LimLang.Proofs.ParsedTrees
import LimLang.Proofs.Safety

/-! # Integers fit into a word

Literals fit into 64 bits and the results of operators are wrapped.  The one way to an integer that is
neither is to ask for a length.  In programs that do not have the name `len`, no integer is ever out of
range, be it a value of a node, bound to a name, or hidden in an array.

As for safety, this is to hold at every point of an evaluation, so evaluation is *gauged*: a gauged
evaluator looks at the integers of the whole world when the evaluation of a node begins and when it
ends, at those of the value it ends with, and at those that a call is given.

The invariant, an accord of worlds with themselves (`ranged`), is about more than integers: no value is the
function `len`, and no function has it in its body.  Since `len` is found by its name alone, a program
without the name cannot get hold of it.
-/
namespace LimLang

open EStateM (Result)
open MachineInt (InRange)

/-! ## What is looked for -/

namespace Value

mutual

/-- Every integer in a value fits into a word, at every depth. -/
def inRange : Value → Bool
  | int n => decide (InRange n)
  | array _ elements => allInRange elements
  | returned _ value => value.inRange
  | bool _ | string _ | null | function _ _ | builtin _ | error _ | absent => true

/-- Several values whose integers fit into a word. -/
def allInRange : List Value → Bool
  | [] => true
  | value :: values => value.inRange && allInRange values

end

end Value

/-- Every integer in a frame fits into a word. -/
def World.inRange (w : World) : Bool :=
  w.frames.all fun frame => frame.all fun binding => binding.2.inRange

namespace Eval

/-- Evaluates a node, with a look at the integers of the world before, and at those of the world and
the value after. -/
def gauge (evaluate : Node → Scope → Eval Value) (node : Node) (scope : Scope) : Eval Value := do
  if (← get).inRange then
    let value ← evaluate node scope
    if (← get).inRange && value.inRange then return value else throw alarm
  else throw alarm

/-- Calls a function, with a look at the integers of the arguments and the world. -/
def gaugeCall (apply : Value → List Value → Eval Value) (function : Value) (arguments : List Value) :
    Eval Value := do
  if (← get).inRange && Value.allInRange arguments then apply function arguments else throw alarm

end Eval

/-- **Gauged evaluation**: every evaluation inside it and every call is gauged too. -/
def gaugedEval (room : Room) : Nat → Node → Scope → Eval Value
  | 0, _, _ => throw .tooDeep
  | depth + 1, node, scope =>
      Eval.gauge (Eval.node (Eval.gaugeCall (Eval.call room (gaugedEval room depth)))
        (gaugedEval room depth)) node scope

/-! ## Names -/

namespace Node

mutual

/-- All names in a tree: of variables, parameters and functions, wherever they stand. -/
def names : Node → List String
  | ident name => [name.name]
  | program statements | block _ statements => namesIn statements
  | array _ elements => namesIn elements
  | unary _ _ right => right.names
  | binary _ left _ right => left.names ++ right.names
  | call _ callee arguments => callee.names ++ namesIn arguments
  | index _ left place => left.names ++ place.names
  | declare _ _ name value | declareArray _ _ name value => name.name :: value.names
  | declareLoose _ _ name value => name.names ++ value.names
  | returnValue _ value | expression _ value => value.names
  | ifThen _ condition body => condition.names ++ body.names
  | ifElse _ condition body next => condition.names ++ body.names ++ next.names
  | otherwise _ body => body.names
  | otherwiseElse _ body next => body.names ++ next.names
  | function _ name parameters _ body => name :: parameters.map Ident.name ++ body.names
  | listing items => namesIn items
  | int _ _ | bool _ _ | string _ _ | null _ | bareReturn _ | datum _ => []

/-- All names in several trees. -/
def namesIn : List Node → List String
  | [] => []
  | node :: nodes => node.names ++ namesIn nodes

end

theorem mem_namesIn {name : String} {nodes : List Node} {node : Node} (hn : node ∈ nodes)
    (h : name ∈ node.names) : name ∈ namesIn nodes := by
  induction nodes with
  | nil => cases hn
  | cons first nodes ih =>
    rw [namesIn, List.mem_append]
    rcases List.mem_cons.1 hn with rfl | hn
    · exact .inl h
    · exact .inr (ih hn)

end Node

/-- A vocabulary that has all that `V` has, as far as names with the property `P` go. -/
structure Vocabulary.NarrowsTo (V : Vocabulary) (P : String → Prop) (V' : Vocabulary) : Prop where
  varName : ∀ i, P i.name → V.varName i → V'.varName i
  parameter : ∀ i, P i.name → V.parameter i → V'.parameter i
  functionName : ∀ name, P name → V.functionName name → V'.functionName name
  result : ∀ result, V.result result → V'.result result
  int : ∀ n, V.int n → V'.int n
  string : ∀ s, V.string s → V'.string s
  leading : ∀ op, V.leading op → V'.leading op
  between : ∀ op, V.between op → V'.between op
  element : ∀ kind, V.element kind → V'.element kind

/-- A tree fits over a narrower vocabulary that has its names. -/
theorem Node.Fits.narrow {V V' : Vocabulary} {P : String → Prop} (hV : V.NarrowsTo P V') {place : Place}
    {node : Node} (h : node.Fits V place) (hP : ∀ name ∈ node.names, P name) :
    node.Fits V' place := by
  have hall {nodes : List Node} (hnodes : ∀ name ∈ namesIn nodes, P name) :
      ∀ n ∈ nodes, ∀ name ∈ n.names, P name := fun n hn name hname => hnodes name (mem_namesIn hn hname)
  induction h with
  | ident hn => exact .ident (hV.varName _ (hP _ List.mem_cons_self) hn)
  | int hn => exact .int (hV.int _ hn)
  | bool => exact .bool
  | string hs => exact .string (hV.string _ hs)
  | null => exact .null
  | array _ ih =>
    rw [Node.names] at hP
    exact .array fun e he => ih e he (hall hP e he)
  | unary ho _ ih => exact .unary (hV.leading _ ho) (ih hP)
  | binary ho _ _ ihl ihr =>
    rw [Node.names, List.forall_mem_append] at hP
    exact .binary (hV.between _ ho) (ihl hP.1) (ihr hP.2)
  | call _ _ ihf ih =>
    rw [Node.names, List.forall_mem_append] at hP
    exact .call (ihf hP.1) fun e he => ih e he (hall hP.2 e he)
  | index _ _ ihl ihp =>
    rw [Node.names, List.forall_mem_append] at hP
    exact .index (ihl hP.1) (ihp hP.2)
  | declare hn _ ih =>
    rw [Node.names, List.forall_mem_cons] at hP
    exact .declare (hV.varName _ hP.1 hn) (ih hP.2)
  | declareArray hk hn _ ih =>
    rw [Node.names, List.forall_mem_cons] at hP
    exact .declareArray (hV.element _ hk) (hV.varName _ hP.1 hn) (ih hP.2)
  | bareReturn => exact .bareReturn
  | returnValue _ ih => exact .returnValue (ih hP)
  | expression _ ih => exact .expression (ih hP)
  | function hn hp hr _ ih =>
    rw [Node.names, List.forall_mem_append, List.forall_mem_cons, List.forall_mem_map] at hP
    exact .function (hV.functionName _ hP.1.1 hn)
      (fun i hi => hV.parameter i (hP.1.2 i hi) (hp i hi)) (hV.result _ hr) (ih hP.2)
  | branches _ ih => exact .branches (ih hP)
  | ifThen _ _ ihc ihb =>
    rw [Node.names, List.forall_mem_append] at hP
    exact .ifThen (ihc hP.1) (ihb hP.2)
  | ifElse _ _ _ ihc ihb ihn =>
    rw [Node.names, List.forall_mem_append, List.forall_mem_append] at hP
    exact .ifElse (ihc hP.1.1) (ihb hP.1.2) (ihn hP.2)
  | otherwise _ ih => exact .otherwise (ih hP)
  | elseIf _ ih => exact .elseIf (ih hP)
  | block _ ih =>
    rw [Node.names] at hP
    exact .block fun s hs => ih s hs (hall hP s hs)
  | program _ ih =>
    rw [Node.names] at hP
    exact .program fun s hs => ih s hs (hall hP s hs)

/-- The vocabulary of integer literals that fit into a word. -/
def Vocabulary.words : Vocabulary :=
  { anything with int := InRange }

/-- The vocabulary of integer literals that fit into a word, without the name of `len`. -/
def Vocabulary.lenless : Vocabulary :=
  { words with varName := fun i => i.name ≠ Builtin.len.name }

/-- A tree over `words` that does not have the name is a tree over `lenless`. -/
theorem Node.Fits.lenless {place : Place} {node : Node} (h : node.Fits Vocabulary.words place)
    (hlen : Builtin.len.name ∉ node.names) : node.Fits Vocabulary.lenless place := by
  have hnarrow : Vocabulary.words.NarrowsTo (· ≠ Builtin.len.name) Vocabulary.lenless := by
    constructor
    case varName => exact fun _ hname _ => hname
    all_goals intros; assumption
  exact h.narrow hnarrow fun name hname heq => hlen (heq ▸ hname)

/-! ## The invariant -/

/-- **A value in range**: its integers fit into a word, at every depth, it is not `len`, and the
functions in it do not have that name. -/
inductive Value.Ranged : Value → Prop
  | int {n : Int} (h : InRange n) : Ranged (.int n)
  | bool {b : Bool} : Ranged (.bool b)
  | string {s : String} : Ranged (.string s)
  | null : Ranged .null
  | array {id : Nat} {elements : List Value} (h : ∀ v ∈ elements, Ranged v) :
      Ranged (.array id elements)
  | function {id : Nat} {closure : Closure} (h : closure.body.Fits Vocabulary.lenless .body) :
      Ranged (.function id closure)
  | print : Ranged (.builtin .print)
  | returned {id : Nat} {value : Value} (h : Ranged value) : Ranged (.returned id value)
  | error {message : String} : Ranged (.error message)
  | absent : Ranged .absent

/-- **A world in range**: all its frames are. -/
abbrev World.Ranged : World → Prop :=
  World.Holds Value.Ranged

theorem Value.allInRange_of_forall {values : List Value} (h : ∀ v ∈ values, v.inRange) :
    allInRange values := by
  induction values with
  | nil => rw [allInRange]
  | cons v values ih =>
    obtain ⟨hv, hs⟩ := List.forall_mem_cons.1 h
    rw [allInRange, hv, ih hs]
    rfl

theorem Value.Ranged.inRange {value : Value} (h : value.Ranged) : value.inRange := by
  induction h with
  | int h => rw [Value.inRange, decide_eq_true h]
  | array _ ih => rw [Value.inRange, allInRange_of_forall ih]
  | returned _ ih => rw [Value.inRange, ih]
  | _ => rw [Value.inRange]

theorem World.Ranged.inRange {w : World} (h : w.Ranged) : w.inRange := by
  rw [World.inRange, Array.all_eq_true']
  intro frame hf
  rw [List.all_eq_true]
  exact fun binding hb => (h frame hf binding hb).inRange

/-- A name other than `len` is not that of `len`. -/
theorem Builtin.eq_print_of_ofName? {name : String} (hn : name ≠ Builtin.len.name) {b : Builtin}
    (h : Builtin.ofName? name = some b) : b = .print := by
  have hname := List.find?_some h
  cases b with
  | print => rfl
  | len => exact absurd (beq_iff_eq.1 hname).symm hn

/-- **A world in range is in accord with itself**, on trees without `len`. -/
def ranged : Accord where
  Known := Unit
  le _ _ := True
  worlds _ w w' := w = w' ∧ w.Ranged
  value _ := Value.Ranged
  scope _ _ := True
  code c := c.body.Fits Vocabulary.lenless .body
  tree _ node := ∃ place, node.Fits Vocabulary.lenless place
  reads n := n ≠ Builtin.len.name
  binds _ _ := True
  halts _ := True
  le_refl _ := trivial
  le_trans _ _ := trivial
  value_mono _ h := h
  scope_mono _ h := h
  fault _ := trivial
  plain := by
    intro _ v hv
    cases v with
    | bool => exact .bool
    | string => exact .string
    | null => exact .null
    | error => exact .error
    | absent => exact .absent
    | _ => cases hv
  wrapped n := .int (MachineInt.wrap_inRange n)
  builtin hn hb := by
    rw [Builtin.eq_print_of_ofName? hn hb]
    exact .print
  length h := by cases h
  element h := by
    cases h with
    | array h => exact h
  content h := by
    cases h with
    | returned h => exact h
  closure h := by
    cases h with
    | function h => exact ⟨h, trivial⟩
  make := by
    rintro _ w _ made ⟨rfl, hw⟩ hmade
    refine ⟨rfl, (), trivial, ?_, rfl, hw⟩
    cases hmade with
    | array h => exact .array h
    | function h => exact .function h.1
    | returned h => exact .returned h
  lookup := by
    rintro _ w _ s n ⟨rfl, hw⟩ _ _
    exact ⟨rfl, fun v hv => hw.lookup? hv⟩
  bind := by
    rintro _ w _ s n v ⟨rfl, hw⟩ _ _ hv
    exact ⟨rfl, hw.bind hv⟩
  enter := by
    rintro _ w _ c ⟨rfl, hw⟩ hc _
    exact ⟨rfl, (), trivial, trivial, ⟨rfl, hw.enclosed⟩, ⟨_, hc⟩, fun _ _ => trivial⟩
  write := by
    rintro _ w _ text ⟨rfl, hw⟩
    exact ⟨rfl, hw⟩

theorem ranged_speaks : ranged.Speaks Vocabulary.lenless where
  tree_iff _ _ := Iff.rfl
  int hn _ := .int hn
  reads hn := hn
  varName _ := trivial
  functionName _ := trivial
  code _ hb := hb
  tooDeep := trivial

/-! ## Gauged evaluation -/

section Gauge

variable {R : Scope → Node → Prop} {evaluate evaluate' : Node → Scope → Eval Value}
  {apply apply' : Value → List Value → Eval Value}

/-- Gauging an evaluator changes nothing. -/
theorem gauge_keeps (hE : ranged.KeepsOn R evaluate evaluate') :
    ranged.KeepsOn R evaluate (Eval.gauge evaluate') := by
  rintro k node s hn hs w _ ⟨rfl, hw⟩
  have hends := hE k node s hn hs w w ⟨rfl, hw⟩
  have hgauge : Eval.gauge evaluate' node s w = evaluate' node s w := by
    show (if w.inRange then _ else _ : Eval Value) w = _
    rw [if_pos hw.inRange]
    cases hrun : evaluate' node s w with
    | error crash w' => exact bind_of_error hrun _
    | ok v w' =>
      rw [hrun] at hends
      generalize evaluate node s w = r at hends
      cases hends with
      | ok _ hv hworlds =>
        obtain ⟨rfl, hv⟩ := hv
        obtain ⟨rfl, hw'⟩ := hworlds
        rw [bind_of_ok hrun]
        show (if World.inRange _ && Value.inRange _ then _ else _ : Eval Value) _ = _
        rw [if_pos (by rw [hw'.inRange, hv.inRange]; rfl)]
        rfl
  rw [hgauge]
  exact hends

/-- Gauging calls changes nothing. -/
theorem gaugeCall_keeps (hA : ranged.correspondence.KeepsOnCalls apply apply') :
    ranged.correspondence.KeepsOnCalls apply (Eval.gaugeCall apply') := by
  rintro k function _ as bs ⟨rfl, hf⟩ h w _ ⟨rfl, hw⟩
  have hcall := hA k function function as bs ⟨rfl, hf⟩ h w w ⟨rfl, hw⟩
  obtain ⟨rfl, ha⟩ := eq_of_forall₂_and h
  have harguments := Value.allInRange_of_forall fun v hv => (ha v hv).inRange
  show ranged.correspondence.Ends _ k _
    ((if w.inRange && Value.allInRange as then _ else _ : Eval Value) w)
  rw [if_pos (by rw [hw.inRange, harguments]; rfl)]
  exact hcall

end Gauge

theorem gaugedEval_keeps (room : Room) (depth : Nat) :
    ranged.KeepsOn ranged.tree (eval room depth) (gaugedEval room depth) := by
  induction depth with
  | zero => exact fun _ _ _ _ _ => .throw trivial
  | succ depth ih =>
    have hcall := Correspondence.call_keeps room (fun _ _ _ => trivial) ih.correspondence
    exact gauge_keeps (Accord.node_keeps ih (gaugeCall_keeps hcall) ranged_speaks.allows)

/-! ## Programs -/

/-- **A program that a text without errors stands for.** -/
def Node.IsParsed (program : Node) : Prop :=
  ∃ (source : Source) (limits : Limits) (parsed : Parsed),
    source.parse limits = .ok parsed ∧ parsed.errors = [] ∧ parsed.program = program

/-- The literals of what was parsed fit into a word. -/
theorem Node.IsParsed.fits_words {program : Node} (h : program.IsParsed) :
    program.Fits Vocabulary.words .program := by
  obtain ⟨source, limits, parsed, hparse, -, rfl⟩ := h
  have hwords : Vocabulary.words.Has fun _ => True := by
    constructor
    case int =>
      intro t _ _ hbound
      unfold Vocabulary.words InRange
      omega
    case zero => exact show InRange 0 by decide
    all_goals intros; trivial
  exact source.fits_of_parse hwords (fun _ _ => trivial) hparse

/-- **A run of a program**: the program, and the limits that its evaluation is under. -/
structure Run where
  program : Node
  room : Room
  depth : Nat

namespace Run

/-- What evaluating the program of a run in a world comes to. -/
def result (run : Run) (w : World) : Result Crash World Value :=
  eval run.room run.depth run.program World.globalScope w

/-- The world that a run leaves, whether the program comes to an end or crashes. -/
def leaves (run : Run) (w : World) : World :=
  match run.result w with
  | .ok _ w' => w'
  | .error _ w' => w'

theorem leaves_reachable {V : Vocabulary} {run : Run} {w : World} (hw : w.Reachable V)
    (hp : run.program.Fits V .program) : (run.leaves w).Reachable V := by
  unfold leaves
  split
  · next hrun => exact hw.run hp hrun
  · next hrun => exact hw.crash hp hrun

/-- Running one well-formed program after another leads to a reachable world. -/
theorem foldl_leaves_reachable {V : Vocabulary} {runs : List Run} {w : World} (hw : w.Reachable V)
    (hp : ∀ run ∈ runs, run.program.Fits V .program) :
    (runs.foldl (fun w run => run.leaves w) w).Reachable V := by
  induction runs generalizing w with
  | nil => exact hw
  | cons run runs ih =>
    obtain ⟨hrun, hruns⟩ := List.forall_mem_cons.1 hp
    exact ih (leaves_reachable hw hrun) hruns

end Run

/-- Evaluating a tree without `len` keeps the world in range, and so is the value. -/
theorem eval_ranged {place : Place} {node : Node} (hn : node.Fits Vocabulary.lenless place)
    (scope : Scope) {w : World} (hw : w.Ranged) (room : Room) (depth : Nat) :
    Outcome (eval room depth node scope) w (fun v w' => v.Ranged ∧ w'.Ranged) fun _ w' => w'.Ranged := by
  have hkept : ranged.Keeps () (eval room depth node scope) (eval room depth node scope) :=
    ranged_speaks.eval_keeps room depth hn trivial
  refine (hkept.outcome ⟨rfl, hw⟩).mono ?_ ?_
  · rintro v w' ⟨_, -, hv, -, hw'⟩
    exact ⟨hv, hw'⟩
  · rintro _ w' ⟨_, -, -, -, hw'⟩
    exact hw'

/-- Running programs without `len` keeps the world in range. -/
theorem World.Reachable.ranged {w : World} (h : w.Reachable Vocabulary.lenless) : w.Ranged := by
  refine h.invariant holds_initial fun room depth program w hp hw => ?_
  exact (eval_ranged hp World.globalScope hw room depth).mono (fun _ _ h => h.2) fun _ _ h => h

/-- **How a program may end** if all integers fit into a word: with a value in range, or because it is
nested too deep, and in a world in range in any case. -/
def EndsInRange : Result Crash World Value → Prop
  | .ok value w => value.inRange ∧ w.inRange
  | .error crash w => crash = .tooDeep ∧ w.inRange

/-- **Every integer fits into a word.**  After any programs that were parsed and do not have the name
`len`, run one after another from an empty world, the world is in range; the next such program is
evaluated without an alarm and ends in range. -/
theorem eval_inRange (earlier : List Run) (run : Run)
    (h : ∀ r ∈ run :: earlier, r.program.IsParsed ∧ Builtin.len.name ∉ r.program.names) :
    let w := earlier.foldl (fun w r => r.leaves w) World.initial
    w.inRange ∧
      gaugedEval run.room run.depth run.program World.globalScope w =
        eval run.room run.depth run.program World.globalScope w ∧
      EndsInRange (eval run.room run.depth run.program World.globalScope w) := by
  have hfits : ∀ r ∈ run :: earlier, r.program.Fits Vocabulary.lenless .program :=
    fun r hr => (h r hr).1.fits_words.lenless (h r hr).2
  obtain ⟨hp, hearlier⟩ := List.forall_mem_cons.1 hfits
  intro w
  have hw : w.Reachable Vocabulary.lenless := Run.foldl_leaves_reachable .initial hearlier
  have hgauged := gaugedEval_keeps run.room run.depth () run.program World.globalScope ⟨_, hp⟩ trivial
  have hout := eval_ranged hp World.globalScope hw.ranged run.room run.depth
  have hagree := eval_agrees run.room run.depth .program run.program World.globalScope w hp hw.sound
  refine ⟨hw.ranged.inRange, hgauged.eq (fun _ _ _ h => h.1) ⟨rfl, hw.ranged⟩, ?_⟩
  unfold Outcome at hout
  generalize eval run.room run.depth run.program World.globalScope w = r at hout hagree
  generalize direct run.room run.depth run.program World.globalScope w = r' at hagree
  cases r with
  | ok value w' => exact ⟨hout.1.inRange, hout.2.inRange⟩
  | error crash w' =>
    cases hagree
    exact ⟨rfl, World.Ranged.inRange hout⟩

/-- The greatest integer is bound to `x`, and then one is added to `x`. -/
theorem eval_inRange_overflow : ∃ (earlier run : Run) (w : World),
    (∀ r ∈ [run, earlier], r.program.IsParsed ∧ Builtin.len.name ∉ r.program.names) ∧
      w = earlier.leaves World.initial ∧
      run.result w = .ok (.int (-(MachineInt.bound : Int))) w ∧ w.inRange ∧
      gaugedEval run.room run.depth run.program World.globalScope w = run.result w ∧
      EndsInRange (run.result w) := by
  let x (col : Nat) : Ident := { token := { kind := .ident, text := "x", line := 1, col }, name := "x" }
  let greatest : Token := { kind := .int, text := "9223372036854775807", line := 1, col := 6 }
  let one : Token := { kind := .int, text := "1", line := 1, col := 2 }
  let plus : Token := { kind := .plus, text := "+", line := 1, col := 1 }
  let declares : Node := .program [.declare { kind := .kwInt, text := "int", line := 1 } .int (x 4)
    (.int greatest 9223372036854775807)]
  let adds : Node := .program [.expression (x 0).token (.binary plus (.ident (x 0)) "+" (.int one 1))]
  have hdeclares : declares.IsParsed := ⟨{ text := "int x=9223372036854775807".toList },
    Limits.standard, ⟨declares, Diagnostic.inOrder [], []⟩, rfl, List.mergeSort_nil, rfl⟩
  have hadds : adds.IsParsed := ⟨{ text := "x+1".toList }, Limits.standard,
    ⟨adds, Diagnostic.inOrder [], []⟩, rfl, List.mergeSort_nil, rfl⟩
  have h : ∀ r ∈ [Run.mk adds none 5, Run.mk declares none 5],
      r.program.IsParsed ∧ Builtin.len.name ∉ r.program.names := by
    simp only [List.forall_mem_cons]
    exact ⟨⟨hadds, by decide⟩, ⟨hdeclares, by decide⟩, by simp⟩
  exact ⟨⟨declares, none, 5⟩, ⟨adds, none, 5⟩, _, h, rfl, rfl, eval_inRange [_] _ h⟩

end LimLang
