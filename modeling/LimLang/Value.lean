import LimLang.Tree.Render

/-! # Values

What evaluating a node hands back.  Most results are *data*: integers, booleans, strings, arrays,
functions, null.  Three are *signals* that travel the same way: nothing at all (`absent`), which is what
a declaration yields; a value on its way out of a function (`returned`); and an error.

Data compare by identity.  There is one `true`, one `false`, one null and one of each built-in
function; arrays, functions and returned values are told apart by the number they were made with.
Integers and strings have operators of their own and need no number.
-/
namespace LimLang

/-- The number of a frame of variables. -/
abbrev FrameId := Nat

/-- **A scope**: the frames that a name is looked up in, innermost first. -/
abbrev Scope := List FrameId

/-- The functions that exist without a definition. -/
inductive Builtin where
  /-- The length of an array or a string. -/
  | len
  /-- Writes its arguments, separated by blanks, and ends the line. -/
  | print
  deriving DecidableEq, Repr

namespace Builtin

/-- The name of a built-in function. -/
def name : Builtin → String
  | len => "len"
  | print => "print"

/-- The built-in function of a name. -/
def ofName? (name : String) : Option Builtin :=
  [len, print].find? fun builtin => builtin.name == name

end Builtin

/-- A function: what it was defined by, and the scope it was defined in. -/
structure Closure where
  /-- Its name. -/
  name : String
  /-- Its parameters. -/
  parameters : List Ident
  /-- What a call evaluates. -/
  body : Node
  /-- Where the names of its body are looked up. -/
  scope : Scope

/-- **The result of an evaluation.** -/
inductive Value where
  | int (n : Int)
  | bool (b : Bool)
  | string (s : String)
  | null
  /-- The array made with number `id`. -/
  | array (id : Nat) (elements : List Value)
  /-- The function made with number `id`. -/
  | function (id : Nat) (closure : Closure)
  | builtin (builtin : Builtin)
  /-- A value that leaves the function it was returned from. -/
  | returned (id : Nat) (value : Value)
  /-- Evaluation failed. -/
  | error (message : String)
  /-- No result. -/
  | absent
  deriving Inhabited

namespace Value

/-- The name of a value's type.  The absence of a value has none. -/
def type? : Value → Option String
  | int _ => some "INTEGER"
  | bool _ => some "BOOLEAN"
  | string _ => some "STRING"
  | null => some "NULL"
  | array _ _ => some "ARRAY"
  | function _ _ => some "FUNCTION"
  | builtin _ => some "BUILTIN"
  | returned _ _ => some "RETURN_VALUE"
  | error _ => some "ERROR"
  | absent => none

/-- The name of a value's class. -/
def label : Value → String
  | int _ => "Integer"
  | bool _ => "Boolean"
  | string _ => "String"
  | null => "Null"
  | array _ _ => "Array"
  | function _ _ => "Function"
  | builtin _ => "Builtin"
  | returned _ _ => "ReturnValue"
  | error _ => "Error"
  | absent => "NoneType"

/-- A value that a condition accepts: all but `false` and null. -/
def isTruthy : Value → Bool
  | bool false => false
  | null => false
  | _ => true

/-- Whether two values are one and the same. -/
def identical : Value → Value → Bool
  | bool a, bool b => a == b
  | null, null => true
  | array a _, array b _ => a == b
  | function a _, function b _ => a == b
  | builtin a, builtin b => a == b
  | returned a _, returned b _ => a == b
  | _, _ => false

mutual

/-- **The form in which a value is written.** -/
def inspect : Value → String
  | int n => toString n
  | bool b => if b then "true" else "false"
  | string s => s
  | null => "null"
  | array _ elements => "[" ++ ", ".intercalate (inspectAll elements) ++ "]"
  | function _ closure =>
      "fn " ++ closure.name ++ "(" ++ Ident.declarations closure.parameters ++ ") "
        ++ closure.body.render
  | builtin b => "builtin " ++ b.name
  | returned _ value => value.inspect
  | error message => "ERROR: " ++ message
  | absent => ""

/-- The forms of several values. -/
def inspectAll : List Value → List String
  | [] => []
  | value :: values => value.inspect :: inspectAll values

end

end Value

end LimLang
