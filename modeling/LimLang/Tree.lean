import LimLang.Datum
import LimLang.Token

/-! # Trees

A program is a tree of nodes, each of which keeps the token it was built from.  The type admits more
than the grammar does: a tree may be put together by hand, with a statement where an expression is
expected, an operator of any spelling, a name that is no word, or something that is no node at all.  Such
trees can be rendered, compared and evaluated like any other; which of them the grammar produces is a
question of its own.

A chain of branches (`if`, `else if`, `else`) is linked from the front: `ifThen` ends a chain, `ifElse`
goes on with the next link, and `otherwise` is the last link, which has no condition.  In a tree made
by hand a link without a condition may go on too (`otherwiseElse`).
-/
namespace LimLang

/-- A name, with the type it is declared with if it is a parameter. -/
structure Ident where
  /-- The token it was built from. -/
  token : Token
  /-- The name. -/
  name : String
  /-- The declared type: a type keyword, or one followed by a blank and a pair of brackets. -/
  typeName : Option String := none
  deriving DecidableEq, Repr

/-- The types a variable can be declared with. -/
inductive BasicType where
  | int
  | bool
  | string
  deriving DecidableEq, Repr

namespace BasicType

/-- The keyword of a type. -/
def kind : BasicType → Kind
  | int => .kwInt
  | bool => .kwBool
  | string => .kwString

/-- The spelling of a type. -/
def spelling (type : BasicType) : String :=
  type.kind.spelling

/-- The type that a keyword names. -/
def ofKind? : Kind → Option BasicType
  | .kwInt => some int
  | .kwBool => some bool
  | .kwString => some string
  | _ => none

end BasicType

/-- The forms of declarations. -/
inductive DeclarationForm where
  /-- Without a type. -/
  | untyped
  | typed (type : BasicType)
  /-- Of an array; `kind` is the spelling of its elements' type. -/
  | array (kind : String)
  deriving DecidableEq, Repr

/-- **A node of a tree.** -/
inductive Node where
  /-- A whole program. -/
  | program (statements : List Node)
  | ident (name : Ident)
  | int (token : Token) (value : Int)
  | bool (token : Token) (value : Bool)
  | string (token : Token) (value : String)
  | null (token : Token)
  | array (token : Token) (elements : List Node)
  /-- An operator in front of its operand. -/
  | unary (token : Token) (operator : String) (right : Node)
  /-- An operator between its operands. -/
  | binary (token : Token) (left : Node) (operator : String) (right : Node)
  | call (token : Token) (function : Node) (arguments : List Node)
  | index (token : Token) (left index : Node)
  /-- The declaration of a variable. -/
  | declare (token : Token) (type : BasicType) (name : Ident) (value : Node)
  /-- The declaration of a variable that holds an array; `kind` is the spelling of its elements'
  type. -/
  | declareArray (token : Token) (kind : String) (name : Ident) (value : Node)
  /-- A declaration that the grammar does not have: without a type, or of something else than a
  name. -/
  | declareLoose (token : Token) (form : DeclarationForm) (name value : Node)
  /-- A return without a value. -/
  | bareReturn (token : Token)
  | returnValue (token : Token) (value : Node)
  /-- An expression that stands as a statement. -/
  | expression (token : Token) (value : Node)
  | block (token : Token) (statements : List Node)
  /-- The last link of a chain, with a condition. -/
  | ifThen (token : Token) (condition body : Node)
  /-- A link with a condition, and the rest of the chain. -/
  | ifElse (token : Token) (condition body next : Node)
  /-- The last link of a chain, without a condition. -/
  | otherwise (token : Token) (body : Node)
  /-- A link without a condition that is not the last. -/
  | otherwiseElse (token : Token) (body next : Node)
  /-- The definition of a function. -/
  | function (token : Token) (name : String) (parameters : List Ident) (result : Option String)
      (body : Node)
  /-- Something that is no node. -/
  | datum (datum : Datum)
  /-- A list in the place of a node. -/
  | listing (items : List Node)
  deriving Inhabited

namespace Node

/-- The value of a variable declared without one. -/
def zero : BasicType → Node
  | .int => .int { kind := .int, text := "0" } 0
  | .bool => .bool { kind := .kwFalse, text := "false" } false
  | .string => .string { kind := .string, text := "" } ""

/-- The value of an array declared without one. -/
def emptyArray : Node :=
  .array { kind := .lbrack, text := "[" } []

/-- The token a node was built from.  A program has none of its own, and data have none at all. -/
def token : Node → Token
  | program _ => { kind := .eof, text := "" }
  | ident name => name.token
  | int token _ => token
  | bool token _ => token
  | string token _ => token
  | null token => token
  | array token _ => token
  | unary token _ _ => token
  | binary token _ _ _ => token
  | call token _ _ => token
  | index token _ _ => token
  | declare token _ _ _ => token
  | declareArray token _ _ _ => token
  | declareLoose token _ _ _ => token
  | bareReturn token => token
  | returnValue token _ => token
  | expression token _ => token
  | block token _ => token
  | ifThen token _ _ => token
  | ifElse token _ _ _ => token
  | otherwise token _ => token
  | otherwiseElse token _ _ => token
  | function token _ _ _ _ => token
  | datum _ => { kind := .illegal, text := "" }
  | listing _ => { kind := .illegal, text := "" }

/-- The text of the token a node starts with; for a program, that of its first statement. -/
def leadingText : Node → String
  | program (first :: _) => first.leadingText
  | program [] => ""
  | node => node.token.text

/-- The name of a node's class. -/
def label : Node → String
  | program _ => "Program"
  | ident _ => "Identifier"
  | int _ _ => "IntegerLiteral"
  | bool _ _ => "Boolean"
  | string _ _ => "StringVal"
  | null _ => "NullLiteral"
  | array _ _ => "ArrayLiteral"
  | unary _ _ _ => "PrefixExpression"
  | binary _ _ _ _ => "InfixExpression"
  | call _ _ _ => "CallExpression"
  | index _ _ _ => "IndexExpression"
  | declare _ .int _ _ => "IntStatement"
  | declare _ .bool _ _ => "BoolStatement"
  | declare _ .string _ _ => "StringStatement"
  | declareArray _ _ _ _ => "ArrayStatement"
  | declareLoose _ .untyped _ _ => "DeclareStatement"
  | declareLoose _ (.typed .int) _ _ => "IntStatement"
  | declareLoose _ (.typed .bool) _ _ => "BoolStatement"
  | declareLoose _ (.typed .string) _ _ => "StringStatement"
  | declareLoose _ (.array _) _ _ => "ArrayStatement"
  | bareReturn _ => "ReturnStatement"
  | returnValue _ _ => "ReturnStatement"
  | expression _ _ => "ExpressionStatement"
  | block _ _ => "BlockStatement"
  | ifThen _ _ _ => "IfStatement"
  | ifElse _ _ _ _ => "IfStatement"
  | otherwise _ _ => "IfStatement"
  | otherwiseElse _ _ _ => "IfStatement"
  | function _ _ _ _ _ => "FunctionStatement"
  | datum d => d.label
  | listing _ => "list"

/-- A node that produces a value. -/
def isExpression : Node → Bool
  | ident _ | int _ _ | bool _ _ | string _ _ | null _ | array _ _ | unary _ _ _ | binary _ _ _ _
  | call _ _ _ | index _ _ _ => true
  | _ => false

/-- A node that is executed for its effect. -/
def isStatement : Node → Bool
  | program _ | datum _ | listing _ => false
  | node => !node.isExpression

/-- The statements of a program. -/
def statements : Node → List Node
  | program statements => statements
  | _ => []

/-- The conditions of a chain of branches, link by link. -/
def conditions : Node → List (Option Node)
  | ifThen _ condition _ => [some condition]
  | ifElse _ condition _ next => some condition :: next.conditions
  | otherwise _ _ => [none]
  | otherwiseElse _ _ next => none :: next.conditions
  | _ => []

/-- A link of a chain that has a condition. -/
def hasCondition : Node → Bool
  | ifThen _ _ _ => true
  | ifElse _ _ _ _ => true
  | _ => false

end Node

end LimLang
