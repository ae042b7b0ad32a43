import LimLang.MachineInt
import LimLang.Parse.State

/-! # Parsing expressions

Expressions are parsed by precedence: after an operand, operators are taken in as long as they bind
tighter than what stands to the left of the operand.  All binary operators group to the left.  Calls
and indexing follow their operand like operators that bind tightest.

The parsers here take the parser of nested expressions as an argument; `Parse.expression` ties the
knot.  Its first argument bounds how deep expressions may be nested.
-/
namespace LimLang

/-! ## Precedence

How tightly an operator binds is a number; the greater it is, the tighter. -/

namespace Precedence

/-- Binds less than every operator. -/
def lowest : Nat := 1
/-- Equality and inequality. -/
def equals : Nat := 2
/-- The four orders. -/
def lessGreater : Nat := 3
/-- Addition and subtraction. -/
def sum : Nat := 4
/-- Multiplication, division and remainder. -/
def product : Nat := 5
/-- Operators in front of their operand. -/
def unary : Nat := 6
/-- The arguments of a call. -/
def call : Nat := 7
/-- The index into an array. -/
def index : Nat := 8

end Precedence

/-- How tightly a token binds when it follows an operand.  Tokens that cannot follow one bind like
nothing. -/
def Kind.precedence : Kind → Nat
  | .eq | .notEq => Precedence.equals
  | .lt | .gt | .ltEq | .gtEq => Precedence.lessGreater
  | .plus | .minus => Precedence.sum
  | .asterisk | .slash | .modulus => Precedence.product
  | .lparen => Precedence.call
  | .lbrack => Precedence.index
  | _ => Precedence.lowest

namespace Parse

/-- An integer literal.  Its value must fit into a word, and its digits must be few enough to be
read at all. -/
def integer (maxDigits : Nat) (token : Token) : Parse Node := do
  let digits := token.text.toList.map fun c => c.toNat - '0'.toNat
  if maxDigits < digits.length then
    throw (.crash (.fault (.longLiteral digits.length)))
  let value := Text.ofDigits digits
  if MachineInt.bound ≤ value then reject (.outOfRange token.text) token
  else return .int token value

/-- The items after the first one of a list, at most `bound` of them. -/
def laterItems (expression : Parse Node) : Nat → Parse (List Node)
  | 0 => return []
  | bound + 1 => do
      if ← peekIs .comma then
        advance
        advance
        let item ← expression
        let items ← laterItems expression bound
        return item :: items
      else return []

/-- A list of expressions from its opening bracket, which is current, to the closing one. -/
def items (expression : Parse Node) (closer : Kind) : Parse (List Node) := do
  move Cursor.openGroup
  if ← peekIs closer then
    move Cursor.closeGroup
    advance
    return []
  else
    advance
    let item ← expression
    let items ← laterItems expression (← remaining)
    move Cursor.closeGroup
    let _ ← expect closer
    return item :: items

/-- One expression from the opening bracket, which is current, to the closing one. -/
def grouped (expression : Parse Node) (closer : Kind) : Parse Node := do
  move Cursor.openGroup
  advance
  let value ← expression
  move Cursor.closeGroup
  let _ ← expect closer
  return value

/-- An operand: what an expression starts with. -/
def operand (maxDigits : Nat) (expression : Nat → Parse Node) : Parse Node := do
  let token ← current
  match token.kind with
  | .ident => return .ident { token, name := token.text }
  | .int => integer maxDigits token
  | .string => return .string token token.text
  | .kwTrue => return .bool token true
  | .kwFalse => return .bool token false
  | .kwNull => return .null token
  | .bang | .minus | .plus =>
      advance
      return .unary token token.text (← expression Precedence.unary)
  | .lparen => grouped (expression Precedence.lowest) .rparen
  | .lbrack => return .array token (← items (expression Precedence.lowest) .rbrack)
  | _ => reject (.notAnExpression token) token

/-- What follows an operand: the current token is an operator, or opens a call or an index. -/
def continuation (expression : Nat → Parse Node) (left : Node) : Parse Node := do
  let token ← current
  match token.kind with
  | .lparen => return .call token left (← items (expression Precedence.lowest) .rparen)
  | .lbrack => return .index token left (← grouped (expression Precedence.lowest) .rbrack)
  | kind =>
      advance
      return .binary token left token.text (← expression kind.precedence)

/-- Takes in what follows an operand as long as it binds tighter than `floor`, at most `bound`
times. -/
def climb (expression : Nat → Parse Node) (floor : Nat) :
    Nat → Node → Parse Node
  | 0, left => return left
  | bound + 1, left => do
      if floor < (← peek).kind.precedence then
        advance
        let left ← continuation expression left
        climb expression floor bound left
      else return left

/-- **An expression** whose operators bind tighter than `floor`, nested at most `depth` deep. -/
def expression (maxDigits : Nat) : Nat → Nat → Parse Node
  | 0, _ => throw (.crash .tooDeep)
  | depth + 1, floor => do
      let left ← operand maxDigits (expression maxDigits depth)
      climb (expression maxDigits depth) floor (← remaining) left

end Parse

end LimLang
