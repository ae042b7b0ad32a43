import LimLang.Parse.Statement

/-! # Parsing programs

A program is parsed to its end, whatever is wrong with it: a malformed statement is left out and
recorded.  The diagnostics of a text are those of its tokens and those of its statements, in the order
of their places.

Two limits are not part of the language: how deep a text may be nested, and how many digits a literal
may have.  Beyond them parsing crashes.
-/
namespace LimLang

/-- Limits on what can be parsed. -/
structure Limits where
  /-- How deep statements and expressions may be nested. -/
  nesting : Nat
  /-- How many digits an integer literal may have. -/
  digits : Nat

/-- The limits in force. -/
def Limits.standard : Limits where
  nesting := 312
  digits := Text.maxDigits

namespace Parse

/-- A whole program. -/
def program (limits : Limits) : Parser Crash Node := do
  let nodes ← statements Kind.closesProgram (statement limits.digits limits.nesting)
    ((← remaining) + 2)
  return .program nodes

/-- The state before a list of tokens that ends with `last`. -/
def initial (tokens : List Token) (last : Token) : ParseState :=
  { Cursor.ofTokens tokens last with findings := [] }

end Parse

/-- **The outcome of parsing a text.** -/
structure Parsed where
  /-- The statements that were well-formed. -/
  program : Node
  /-- What is wrong with the text, in the order of places. -/
  errors : List Diagnostic
  /-- What is suspicious about the text. -/
  warnings : List Diagnostic

/-- **Parses a text.** -/
def Source.parse (source : Source) (limits : Limits) : Except Crash Parsed :=
  match Parse.program limits (Parse.initial source.tokens source.endToken) with
  | .ok program s =>
      .ok {
        program
        errors := Diagnostic.inOrder
          (source.lexicalErrors ++ s.findings.map fun f => f.diagnostic source)
        warnings := source.warnings }
  | .error crash _ => .error crash

end LimLang
