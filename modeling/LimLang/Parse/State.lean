import LimLang.Parse.Cursor
import LimLang.Parse.Violation
import LimLang.Tree

/-! # The parser's state

A parser moves a cursor and records what it finds wrong.  The parser of a statement *halts* in two
ways: at a malformed statement, which is skipped by the parser of the surrounding statements, and at a
crash, which nothing in the parser recovers from.  The state at the moment of halting is kept.

Parsers of several statements recover from malformed ones, so they halt at crashes only; their type
says so.
-/
namespace LimLang

/-- The state of a parser. -/
structure ParseState extends Cursor where
  /-- What was found wrong, in the order of finding. -/
  findings : List Finding
  deriving DecidableEq, Repr

/-- Why a parser halts. -/
inductive ParseHalt where
  /-- The statement is malformed, and that has been recorded. -/
  | malformed
  | crash (crash : Crash)
  deriving DecidableEq, Repr

/-- **A parser** that halts for reasons of type `ε`. -/
abbrev Parser (ε : Type) := EStateM ε ParseState

/-- A parser of a statement or a part of one. -/
abbrev Parse := Parser ParseHalt

namespace Parse

variable {ε : Type}

/-- Moves the cursor. -/
def move (f : Cursor → Cursor) : Parser ε Unit :=
  modify fun s => { s with toCursor := f s.toCursor }

/-- Makes the next token current. -/
def advance : Parser ε Unit :=
  move Cursor.advance

/-- The current token. -/
def current : Parser ε Token :=
  return (← get).current

/-- The token ahead. -/
def peek : Parser ε Token :=
  return (← get).toCursor.peek

/-- Whether the token ahead is of a kind. -/
def peekIs (kind : Kind) : Parser ε Bool :=
  return (← peek).is kind

/-- Whether the statement may end before the token ahead. -/
def atEnd : Parser ε Bool :=
  return (← peek).kind.isTerminator

/-- How many tokens are ahead. -/
def remaining : Parser ε Nat :=
  return (← get).ahead.length

/-- Gives up on the statement because of a violation found at a token.  Text that is no token has been
reported already, so nothing more is recorded about it. -/
def reject {α : Type} (violation : Violation) (token : Token) : Parse α := do
  if !token.is .illegal then
    modify fun s => { s with findings := s.findings ++ [{ violation, token }] }
  throw .malformed

/-- Makes the token ahead current if it is of a kind, which a message would call `what`. -/
def expectNamed (kind : Kind) (what : String) : Parse Token := do
  let token ← peek
  if token.is kind then
    advance
    current
  else reject (.expected what token) token

/-- Makes the token ahead current if it is of a kind. -/
def expect (kind : Kind) : Parse Token :=
  expectNamed kind ("'" ++ kind.spelling ++ "'")

/-- Runs the parser of one statement.  A malformed statement is skipped, with the groups closed that
it left open; then there is no result. -/
def recovering (statement : Parse (Option Node)) : Parser Crash (Option Node) := fun s =>
  match statement s with
  | .ok node s' => .ok node s'
  | .error (.crash crash) s' => .error crash s'
  | .error .malformed s' =>
      .ok none
        { s' with toCursor := Cursor.synchronize { s'.toCursor with groups := s.groups } }

/-- A parser that halts at crashes only, as a part of one that may also meet malformed statements. -/
def liftCrash {α : Type} (parser : Parser Crash α) : Parse α := fun s =>
  match parser s with
  | .ok a s' => .ok a s'
  | .error crash s' => .error (.crash crash) s'

end Parse

end LimLang
