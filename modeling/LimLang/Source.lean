import LimLang.Text.Blank

/-! # Source texts

A source text together with the number of its first line, and the positions in it.  A position is a
line and a column; reading a character moves it on by one column, or to the start of the next line.
-/
namespace LimLang

/-- **A place in a source text.** -/
structure Pos where
  /-- The number of the line. -/
  line : Int
  /-- How many characters of the line stand before the place. -/
  col : Nat
  deriving DecidableEq, Repr

namespace Pos

/-- The place after the character `c`. -/
def after (p : Pos) (c : Char) : Pos :=
  if c = '\n' then ⟨p.line + 1, 0⟩ else ⟨p.line, p.col + 1⟩

/-- The place after a text. -/
def afterAll (p : Pos) (cs : List Char) : Pos :=
  cs.foldl after p

end Pos

/-- **A text whose lines are numbered from `firstLine`.** -/
structure Source where
  /-- The text. -/
  text : List Char
  /-- The number of its first line. -/
  firstLine : Int := 1

namespace Source

/-- Where the text starts. -/
def start (s : Source) : Pos :=
  ⟨s.firstLine, 0⟩

/-- Where the text ends. -/
def stop (s : Source) : Pos :=
  s.start.afterAll s.text

/-- The lines of a text, each without its line feed.  There is always at least one. -/
def splitLines : List Char → List (List Char)
  | [] => [[]]
  | c :: cs =>
      if c = '\n' then [] :: splitLines cs
      else
        match splitLines cs with
        | [] => [[c]]
        | line :: lines => (c :: line) :: lines

/-- The text of line `n` without its line end, or nothing if there is no such line. -/
def line (s : Source) (n : Int) : List Char :=
  if n < s.firstLine then []
  else
    match (splitLines s.text)[(n - s.firstLine).toNat]? with
    | some text => Text.dropTrailing (· == '\r') text
    | none => []

end Source

end LimLang
