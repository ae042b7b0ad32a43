import LimLang.Evaluation

/-! # A semantics with exits

The evaluator hands errors and returned values on from node to node, like any other value.  Here is
what that is meant to do, said without it.  A computation goes on until it *exits*: a failure ends
the whole program at once, and a return leaves the innermost call, or the program if there is no
call. Nobody looks at a value to see whether it is one of these; only calls and programs take
notice, and only of returns.

What an operator, an index or a built-in function computes from given values is the evaluator's own
business and taken over as it is; where it computes an error, it fails here.  Arrays, functions and
returns draw their numbers in the same order, so that both semantics end in one and the same world.
-/
namespace LimLang

/-- **How a computation ends other than with a value.** -/
inductive Exit where
  /-- The program fails. -/
  | fail (message : String)
  /-- The innermost call is left with a value; `id` is the number of the return. -/
  | leave (id : Nat) (value : Value)
  /-- Evaluation crashes. -/
  | crash (crash : Crash)

/-- **A computation with exits.** -/
abbrev Direct := EStateM Exit World

namespace Direct

/-- What the evaluator computes from given values, with an error as a failure. -/
def operation (x : Eval Value) : Direct Value := fun w =>
  match x w with
  | .ok (.error message) w' => .error (.fail message) w'
  | .ok value w' => .ok value w'
  | .error crash w' => .error (.crash crash) w'

/-- A number that no array, function or return has been made with. -/
def fresh : Direct Nat :=
  modifyGet fun w => (w.nextId, { w with nextId := w.nextId + 1 })

/-- The value that a computation ends with or is left with. -/
def catchLeave (x : Direct Value) : Direct Value := fun w =>
  match x w with
  | .error (.leave _ value) w' => .ok value w'
  | result => result

/-- The values of expressions from left to right. -/
def list (evaluate : Node → Direct Value) : List Node → Direct (List Value)
  | [] => return []
  | node :: nodes => do
      let value ← evaluate node
      let values ← list evaluate nodes
      return value :: values

/-- Statements one after another, after some of which the last had the value `last`.  The value of
the last one is the value of all; null if it has none. -/
def sequence (execute : Node → Direct Value) (last : Value) : List Node → Direct Value
  | [] =>
      match last with
      | .absent => return .null
      | value => return value
  | node :: nodes => do
      let value ← execute node
      sequence execute value nodes

/-- A chain of branches. -/
def branches (evaluate : Node → Direct Value) : Node → Direct Value
  | .ifThen _ condition body => do
      let value ← evaluate condition
      if value.isTruthy then evaluate body else return .null
  | .ifElse _ condition body next => do
      let value ← evaluate condition
      if value.isTruthy then evaluate body else branches evaluate next
  | .otherwise _ body => evaluate body
  | other => throw (.crash (.fault (.noSuchPart other.label "condition")))

/-- A call, given how to execute a function's body in a scope.  A return from the body ends here. -/
def call (room : Room) (execute : Node → Scope → Direct Value) (function : Value)
    (arguments : List Value) : Direct Value := do
  match function with
  | .function _ closure =>
      if arguments.length = closure.parameters.length then
        let scope ← modifyGet fun w =>
          let (w, scope) := w.enclosed closure.scope
          (scope, Eval.bindParameters scope closure.parameters arguments w)
        catchLeave (execute closure.body scope)
      else
        throw (.fail ("wrong number of arguments to `" ++ closure.name ++ "`: got="
          ++ toString arguments.length ++ ", want=" ++ toString closure.parameters.length))
  | .builtin builtin => operation (Eval.callBuiltin room builtin arguments)
  | value => operation (return .error ("not a function: " ++ (← Eval.typeOf value)))

/-- A node in a scope, given how to call a function and how to evaluate the nodes inside it. -/
def node (apply : Value → List Value → Direct Value) (evaluate : Node → Scope → Direct Value)
    (node : Node) (scope : Scope) : Direct Value := do
  match node with
  | .program statements => catchLeave (sequence (evaluate · scope) .absent statements)
  | .block _ statements => sequence (evaluate · scope) .absent statements
  | .expression _ value => evaluate value scope
  | .declare _ _ name value =>
      let value ← evaluate value scope
      modify fun w => w.bind scope name.name value
      return .absent
  | .declareArray _ _ name value =>
      let value ← evaluate value scope
      modify fun w => w.bind scope name.name value
      return value
  | .bareReturn _ => throw (.leave (← fresh) .null)
  | .returnValue _ value =>
      let value ← evaluate value scope
      throw (.leave (← fresh) value)
  | .ifThen token condition body => branches (evaluate · scope) (.ifThen token condition body)
  | .ifElse token condition body next =>
      branches (evaluate · scope) (.ifElse token condition body next)
  | .otherwise token body => branches (evaluate · scope) (.otherwise token body)
  | .function _ name parameters _ body =>
      let id ← fresh
      modify fun w => w.bind scope name (.function id { name, parameters, body, scope })
      return .absent
  | .int _ n => return .int n
  | .bool _ b => return .bool b
  | .string _ s => return .string s
  | .null _ => return .null
  | .array _ elements =>
      let values ← list (evaluate · scope) elements
      return .array (← fresh) values
  | .ident name => operation (Eval.identifier scope name.name)
  | .unary _ operator right =>
      let right ← evaluate right scope
      operation (Eval.unary operator right)
  | .binary _ left operator right =>
      let left ← evaluate left scope
      let right ← evaluate right scope
      operation (Eval.binary operator left right)
  | .call _ callee arguments =>
      let function ← evaluate callee scope
      let values ← list (evaluate · scope) arguments
      apply function values
  | .index _ left place =>
      let left ← evaluate left scope
      let place ← evaluate place scope
      operation (Eval.index left place)
  | other => throw (.crash (.fault (.notATree other.label)))

end Direct

/-- **A node in a scope, with exits**, with at most `depth` evaluations nested in one another and
some room for writing. -/
def direct (room : Room) : Nat → Node → Scope → Direct Value
  | 0, _, _ => throw (.crash .tooDeep)
  | depth + 1, node, scope =>
      Direct.node (Direct.call room (direct room depth)) (direct room depth) node scope

end LimLang
