import LimLang.Scan

/-! # Violations of the grammar

What the parser can find wrong with a statement.  A violation is recorded with the token it was found
at, which need not be a token the message names.
-/
namespace LimLang

/-- **An expectation of the grammar that was not met.** -/
inductive Violation where
  /-- A declaration that the language reserves but does not have. -/
  | unsupported (keyword : Kind)
  /-- Something was expected and something else found. -/
  | expected (what : String) (found : Token)
  /-- A statement goes on after its end. -/
  | endOfStatement (found : Token)
  /-- An expression was expected. -/
  | notAnExpression (found : Token)
  /-- The type of a variable does not show in the first token of its value. -/
  | cannotInfer (name : String) (leading : Token)
  /-- An `else` is followed by neither a block nor another condition. -/
  | elseBranch (found : Token)
  /-- An arrow is not followed by a type. -/
  | resultType (found : Token)
  /-- A parameter does not start with a type. -/
  | parameterType (found : Token)
  /-- A block is not closed. -/
  | unclosedBlock
  /-- An integer literal is too large. -/
  | outOfRange (literal : String)
  deriving DecidableEq, Repr

namespace Violation

/-- The wording of a violation. -/
def message : Violation → Message
  | unsupported keyword => [.plain (keyword.spelling ++ " declarations are not supported")]
  | expected what found =>
      [.plain "expected ", .strong what, .plain ", got ", .strong found.description]
  | endOfStatement found =>
      [.plain "expected end of statement, got ", .strong found.description]
  | notAnExpression found =>
      [.plain "unexpected ", .strong found.description, .plain ", expected an expression"]
  | cannotInfer name leading =>
      [.plain "cannot infer the type of '", .strong name, .plain "' from ",
        .strong leading.description]
  | elseBranch found =>
      [.plain "expected 'if' or '\x7b' after 'else', got ", .strong found.description]
  | resultType found => [.plain "expected a return type, got ", .strong found.description]
  | parameterType found => [.plain "expected a parameter type, got ", .strong found.description]
  | unclosedBlock => [.plain "expected ", .strong "'\x7d'", .plain ", got end of input"]
  | outOfRange literal =>
      [.plain "integer literal ", .strong literal, .plain " is out of range"]

end Violation

/-- A violation and the token it was found at. -/
structure Finding where
  /-- What is wrong. -/
  violation : Violation
  /-- Where it was found. -/
  token : Token
  deriving DecidableEq, Repr

/-- The diagnostic of a finding: the token is pointed at. -/
def Finding.diagnostic (f : Finding) (source : Source) : Diagnostic :=
  Diagnostic.located .syntactic f.violation.message (source.line f.token.line) f.token.line
    f.token.col f.token.text.length

end LimLang
