import LimLang.Diagnostic
import LimLang.Lexeme
import LimLang.Source

/-! # Scanning

Scanning a source text places its lexemes and reads off the tokens, the diagnostics of text that is
no token, and a warning if a comment is never closed.  The list of tokens ends with the only token of
kind `eof`, which stands where the text ends.

A *scanner* does this step by step: it hands out one token after the other and records diagnostics as it
comes across them.
-/
namespace LimLang

namespace Lexeme

/-- Each lexeme with its place, if the first stands at `p`. -/
def place (p : Pos) : List Lexeme → List (Pos × Lexeme)
  | [] => []
  | l :: ls => (p, l) :: place (p.afterAll l.text) ls

/-- The token a lexeme at `p` stands for. -/
def tokenAt? (placed : Pos × Lexeme) : Option Token :=
  placed.2.token?.map fun (kind, text) =>
    { kind := kind, text := String.ofList text, line := placed.1.line, col := placed.1.col }

end Lexeme

namespace Source

/-- The lexemes of a text, each with its place. -/
def lexemes (s : Source) : List (Pos × Lexeme) :=
  Lexeme.place s.start (Lexeme.cut s.text)

/-- The token that ends every list of tokens. -/
def endToken (s : Source) : Token where
  kind := .eof
  text := ""
  line := s.stop.line
  col := s.stop.col

/-- **The tokens of a text.** -/
def tokens (s : Source) : List Token :=
  s.lexemes.filterMap Lexeme.tokenAt? ++ [s.endToken]

/-- A diagnostic about `length` characters at `p`. -/
def lexicalAt (s : Source) (p : Pos) (message : Message) (length : Nat) : Diagnostic :=
  Diagnostic.located .lexical message (s.line p.line) p.line p.col length

/-- What is wrong with a lexeme that is no token.  Of a string that is never closed, the rest of its
first line is pointed at. -/
def lexicalError? (s : Source) (placed : Pos × Lexeme) : Option Diagnostic :=
  let (p, lexeme) := placed
  match lexeme with
  | .openString _ =>
      some (s.lexicalAt p [.plain "unterminated string literal"] ((s.line p.line).length - p.col))
  | .numberedWord text =>
      some (s.lexicalAt p
        [.plain "identifiers cannot start with a number: '", .strong (String.ofList text), .plain "'"]
        text.length)
  | .stray c =>
      some (s.lexicalAt p [.plain "illegal character '", .strong (String.singleton c), .plain "'"] 1)
  | _ => none

/-- The warning that a lexeme deserves. -/
def lexicalWarning? (s : Source) (placed : Pos × Lexeme) : Option Diagnostic :=
  let (p, lexeme) := placed
  match lexeme with
  | .openComment _ => some (s.lexicalAt p [.plain "unterminated block comment"] 2)
  | _ => none

/-- The diagnostics of text that is no token. -/
def lexicalErrors (s : Source) : List Diagnostic :=
  s.lexemes.filterMap s.lexicalError?

/-- The warnings about a text. -/
def warnings (s : Source) : List Diagnostic :=
  s.lexemes.filterMap s.lexicalWarning?

/-- The diagnostic recorded at a place, or one made up for a token of that text.  The place may be
anywhere; a diagnostic that would end one column before the line goes on to the end of the line. -/
def lexicalErrorAt (s : Source) (line col : Int) (text : String) : Diagnostic :=
  (s.lexicalErrors.find? fun d => d.line == line && d.start == col).getD
    (let excerpt := s.line line
     let stop := col + max text.length 1
     { Diagnostic.located .lexical [.plain "illegal token '", .strong text, .plain "'"] excerpt line
         0 0 with
       start := col
       stop := if stop = -1 then excerpt.length else stop })

end Source

/-- **What hands out the tokens of a text one by one.** -/
structure Scanner where
  /-- The text as a whole. -/
  source : Source
  /-- The place that has been reached. -/
  place : Pos
  /-- What has not been read. -/
  rest : List Char
  /-- The diagnostics recorded so far. -/
  errors : List Diagnostic := []
  /-- The warnings recorded so far. -/
  warnings : List Diagnostic := []

namespace Scanner

/-- The scanner at the start of a text. -/
def initial (source : Source) : Scanner where
  source := source
  place := source.start
  rest := source.text

/-- The scanner behind a lexeme that stands in front of `after`. -/
def past (z : Scanner) (l : Lexeme) (after : List Char) : Scanner :=
  { z with
    place := z.place.afterAll l.text
    rest := after
    errors := z.errors ++ (z.source.lexicalError? (z.place, l)).toList
    warnings := z.warnings ++ (z.source.lexicalWarning? (z.place, l)).toList }

/-- The token for the end, at the place that has been reached. -/
def endToken (z : Scanner) : Token :=
  { kind := .eof, text := "", line := z.place.line, col := z.place.col }

/-- **The next token.**  Blanks and comments in front of it are skipped.  At the end of the text nothing
moves any more. -/
def next (z : Scanner) : Token × Scanner :=
  match _hrest : z.rest with
  | [] => (z.endToken, z)
  | c :: rest =>
      match Lexeme.tokenAt? (z.place, (Lexeme.next c rest).1) with
      | some token => (token, z.past (Lexeme.next c rest).1 (Lexeme.next c rest).2)
      | none => (z.past (Lexeme.next c rest).1 (Lexeme.next c rest).2).next
termination_by z.rest.length
decreasing_by
  rw [_hrest]
  exact Nat.lt_succ_of_le (Lexeme.length_next_le c rest)

/-- The next `n` tokens. -/
def take : Nat → Scanner → List Token × Scanner
  | 0, z => ([], z)
  | n + 1, z => (z.next.1 :: (take n z.next.2).1, (take n z.next.2).2)

end Scanner

end LimLang
