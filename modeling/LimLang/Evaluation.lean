import LimLang.MachineInt
import LimLang.World
import LimLang.Writing

/-! # Evaluation

Evaluating a node changes the world and yields a value.  Errors are values: every step looks at the
values it works on and hands an error on as it is, and a list of statements ends at the first error or
returned value.  A returned value is unwrapped once, by the call or the program it leaves.

Evaluation crashes when its nesting grows too deep: `eval` takes the number of evaluations that may
still be nested in one another, and the room that there is for writing a value.  On trees of the grammar it
crashes for no other reason; on others it may meet something that is no tree, or ask something of a result
that is not there.
-/
namespace LimLang

/-- **An evaluation**: it changes the world, and may crash. -/
abbrev Eval := EStateM Crash World

namespace Eval

/-- A number that no array, function or returned value has been made with. -/
def fresh : Eval Nat :=
  modifyGet fun w => (w.nextId, { w with nextId := w.nextId + 1 })

/-- The type of a value, which must be there. -/
def typeOf (value : Value) : Eval String :=
  match value.type? with
  | some type => return type
  | none => throw (.fault (.noValue "type"))

/-! ## Operators -/

/-- The value of an operator in front of its operand. -/
def unary (operator : String) (right : Value) : Eval Value := do
  if operator = "!" then return .bool (!right.isTruthy)
  else
    match operator, right with
    | "-", .int n => return .int (MachineInt.wrap (-n))
    | "+", .int n => return .int (MachineInt.wrap n)
    | _, _ => return .error ("unknown operator: " ++ operator ++ (← typeOf right))

/-- The value of an operator between integers. -/
def binaryInt (operator : String) (a b : Int) : Value :=
  match operator with
  | "+" => .int (MachineInt.wrap (a + b))
  | "-" => .int (MachineInt.wrap (a - b))
  | "*" => .int (MachineInt.wrap (a * b))
  | "/" => if b = 0 then .error "division by zero" else .int (MachineInt.wrap (MachineInt.quotient a b))
  | "%" => if b = 0 then .error "division by zero" else .int (MachineInt.wrap (MachineInt.remainder a b))
  | "<" => .bool (decide (a < b))
  | ">" => .bool (decide (a > b))
  | "<=" => .bool (decide (a ≤ b))
  | ">=" => .bool (decide (a ≥ b))
  | "==" => .bool (decide (a = b))
  | "!=" => .bool (decide (a ≠ b))
  | _ => .error ("unknown operator: INTEGER " ++ operator ++ " INTEGER")

/-- The value of an operator between its operands.  Strings can only be joined; all else but integers
can only be compared, by identity. -/
def binary (operator : String) (left right : Value) : Eval Value := do
  let leftType ← typeOf left
  match left, right with
  | .int a, .int b => return binaryInt operator a b
  | .string a, .string b =>
      if operator = "+" then return .string (a ++ b)
      else return .error ("unknown operator: STRING " ++ operator ++ " STRING")
  | .int _, .absent | .string _, .absent => throw (.fault (.noValue "type"))
  | _, _ =>
      if operator = "==" then return .bool (left.identical right)
      else if operator = "!=" then return .bool (!left.identical right)
      else
        let rightType ← typeOf right
        let shown := leftType ++ " " ++ operator ++ " " ++ rightType
        if leftType = rightType then return .error ("unknown operator: " ++ shown)
        else return .error ("type mismatch: " ++ shown)

/-- The element of an array. -/
def index (left index : Value) : Eval Value := do
  match left with
  | .array _ elements =>
      match index with
      | .int i =>
          match if 0 ≤ i then elements[i.toNat]? else none with
          | some element => return element
          | none =>
              return .error ("index out of range: " ++ toString i ++ " (length "
                ++ toString elements.length ++ ")")
      | _ => return .error ("array index must be INTEGER, got " ++ (← typeOf index))
  | _ => return .error ("index operator not supported: " ++ (← typeOf left))

/-! ## Names and calls -/

/-- The value of a name: a variable, else a built-in function. -/
def identifier (scope : Scope) (name : String) : Eval Value := do
  match (← get).lookup? scope name with
  | some .absent | none =>
      match Builtin.ofName? name with
      | some builtin => return .builtin builtin
      | none => return .error ("identifier not found: " ++ name)
  | some value => return value

/-- The value of a call of a built-in function, with some room for writing. -/
def callBuiltin (room : Room) : Builtin → List Value → Eval Value
  | .len, [argument] =>
      match argument with
      | .array _ elements => return .int elements.length
      | .string s => return .int s.length
      | _ => return .error ("argument to `len` not supported, got " ++ (← typeOf argument))
  | .len, arguments =>
      return .error ("wrong number of arguments. got=" ++ toString arguments.length ++ ", want=1")
  | .print, arguments => do
      match Value.writtenAll arguments room with
      | .ok texts =>
          modify fun w => w.write (" ".intercalate texts ++ "\n")
          return .null
      | .error crash => throw crash

/-- Binds the parameters of a function to the arguments of a call. -/
def bindParameters (scope : Scope) : List Ident → List Value → World → World
  | parameter :: parameters, argument :: arguments, w =>
      bindParameters scope parameters arguments (w.bind scope parameter.name argument)
  | _, _, w => w

/-- The value of a call, given how to evaluate a function's body in a scope. -/
def call (room : Room) (evaluate : Node → Scope → Eval Value) (function : Value)
    (arguments : List Value) : Eval Value := do
  match function with
  | .builtin builtin => callBuiltin room builtin arguments
  | .function _ closure =>
      if arguments.length = closure.parameters.length then
        let scope ← modifyGet fun w =>
          let (w, scope) := w.enclosed closure.scope
          (scope, bindParameters scope closure.parameters arguments w)
        match ← evaluate closure.body scope with
        | .returned _ value => return value
        | .absent => throw (.fault (.noValue "type"))
        | value => return value
      else
        return .error ("wrong number of arguments to `" ++ closure.name ++ "`: got="
          ++ toString arguments.length ++ ", want=" ++ toString closure.parameters.length)
  | value => return .error ("not a function: " ++ (← typeOf value))

/-- Binds a name in a scope.  Of the nodes that can stand for a name, identifiers and strings do. -/
def bindName (scope : Scope) (name : Node) (value : Value) : Eval Unit :=
  match name with
  | .ident i => modify fun w => w.bind scope i.name value
  | .string _ s => modify fun w => w.bind scope s value
  | other => throw (.fault (.noSuchPart other.label "value"))

/-! ## Branches and lists of nodes -/

/-- The value of a chain of branches: the body of the first link whose condition holds, or that has no
condition. -/
def branches (evaluate : Node → Eval Value) : Node → Eval Value
  | .ifThen _ condition body => do
      match ← evaluate condition with
      | .error message => return .error message
      | value => if value.isTruthy then evaluate body else return .null
  | .ifElse _ condition body next => do
      match ← evaluate condition with
      | .error message => return .error message
      | value => if value.isTruthy then evaluate body else branches evaluate next
  | .otherwise _ body => evaluate body
  | .otherwiseElse _ body _ => evaluate body
  | other => throw (.fault (.noSuchPart other.label "condition"))

/-- The values of expressions from left to right, or the first error. -/
def list (evaluate : Node → Eval Value) : List Node → Eval (Except String (List Value))
  | [] => return .ok []
  | node :: nodes => do
      match ← evaluate node with
      | .error message => return .error message
      | value =>
          match ← list evaluate nodes with
          | .ok values => return .ok (value :: values)
          | .error message => return .error message

/-- The value of the statements of a block, after some that yielded `last`.  The first returned value
or error ends the block and is handed on. -/
def block (evaluate : Node → Eval Value) (last : Value) : List Node → Eval Value
  | [] =>
      match last with
      | .absent => return .null
      | value => return value
  | node :: nodes => do
      match ← evaluate node with
      | .returned id value => return .returned id value
      | .error message => return .error message
      | value => block evaluate value nodes

/-- The value of the statements of a program, after some that yielded `last`.  A returned value ends
the program and is unwrapped. -/
def program (evaluate : Node → Eval Value) (last : Value) : List Node → Eval Value
  | [] =>
      match last with
      | .absent => return .null
      | value => return value
  | node :: nodes => do
      match ← evaluate node with
      | .returned _ value => return value
      | .error message => return .error message
      | value => program evaluate value nodes

/-- A program is a block whose value is unwrapped. -/
theorem program_eq_block (evaluate : Node → Eval Value) (nodes : List Node) {last : Value}
    (hlast : ∀ id v, last ≠ .returned id v) :
    program evaluate last nodes = (do
      match ← block evaluate last nodes with
      | .returned _ value => return value
      | value => return value) := by
  funext w
  induction nodes generalizing last w with
  | nil =>
    cases last with
    | returned id v => exact absurd rfl (hlast id v)
    | _ => rfl
  | cons n nodes ih =>
    show EStateM.bind (evaluate n) _ w = EStateM.bind (EStateM.bind (evaluate n) _) _ w
    unfold EStateM.bind
    cases evaluate n w with
    | error crash w' => rfl
    | ok v w' =>
      cases v with
      | returned id v => rfl
      | error message => rfl
      | _ => exact ih (by simp) w'

/-! ## Nodes -/

/-- The value of a node in a scope, given how to call a function and how to evaluate the nodes inside
it. -/
def node (apply : Value → List Value → Eval Value) (evaluate : Node → Scope → Eval Value)
    (node : Node) (scope : Scope) : Eval Value := do
  match node with
  | .program statements => program (evaluate · scope) .absent statements
  | .block _ statements => block (evaluate · scope) .absent statements
  | .expression _ value => evaluate value scope
  | .declare _ _ name value =>
      match ← evaluate value scope with
      | .error message => return .error message
      | value =>
          modify fun w => w.bind scope name.name value
          return .absent
  | .declareArray _ _ name value =>
      match ← evaluate value scope with
      | .error message => return .error message
      | value =>
          modify fun w => w.bind scope name.name value
          return value
  | .declareLoose _ form name value =>
      match ← evaluate value scope with
      | .error message => return .error message
      | value =>
          bindName scope name value
          match form with
          | .array _ => return value
          | _ => return .absent
  | .bareReturn _ => return .returned (← fresh) .null
  | .returnValue _ value =>
      match ← evaluate value scope with
      | .error message => return .error message
      | value => return .returned (← fresh) value
  | .ifThen token condition body =>
      branches (evaluate · scope) (.ifThen token condition body)
  | .ifElse token condition body next =>
      branches (evaluate · scope) (.ifElse token condition body next)
  | .otherwise token body => branches (evaluate · scope) (.otherwise token body)
  | .otherwiseElse token body next =>
      branches (evaluate · scope) (.otherwiseElse token body next)
  | .function _ name parameters _ body =>
      let id ← fresh
      modify fun w => w.bind scope name (.function id { name, parameters, body, scope })
      return .absent
  | .int _ n => return .int n
  | .bool _ b => return .bool b
  | .string _ s => return .string s
  | .null _ => return .null
  | .array _ elements =>
      match ← list (evaluate · scope) elements with
      | .error message => return .error message
      | .ok values => return .array (← fresh) values
  | .ident name => identifier scope name.name
  | .unary _ operator right =>
      match ← evaluate right scope with
      | .error message => return .error message
      | right => unary operator right
  | .binary _ left operator right =>
      match ← evaluate left scope with
      | .error message => return .error message
      | left =>
          match ← evaluate right scope with
          | .error message => return .error message
          | right => binary operator left right
  | .call _ callee arguments =>
      match ← evaluate callee scope with
      | .error message => return .error message
      | function =>
          match ← list (evaluate · scope) arguments with
          | .error message => return .error message
          | .ok values => apply function values
  | .index _ left place =>
      match ← evaluate left scope with
      | .error message => return .error message
      | left =>
          match ← evaluate place scope with
          | .error message => return .error message
          | place => index left place
  | .datum d => throw (.fault (.notATree d.label))
  | .listing _ => throw (.fault (.notATree "list"))

end Eval

/-- **The value of a node in a scope**, with at most `depth` evaluations nested in one another and some
room for writing. -/
def eval (room : Room) : Nat → Node → Scope → Eval Value
  | 0, _, _ => throw .tooDeep
  | depth + 1, node, scope =>
      Eval.node (Eval.call room (eval room depth)) (eval room depth) node scope

end LimLang
