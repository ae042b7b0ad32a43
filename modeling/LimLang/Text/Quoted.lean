import LimLang.Text.Invisible

/-! # Quoted text

A text is quoted so that it can be read on one line.  The quotation mark is an apostrophe, unless
the text has apostrophes and no double quotes.  A backslash, the chosen mark, and every character
that would not be visible are written with a backslash; all else stands for itself.
-/
namespace LimLang.Text

/-- A number in base sixteen, lower case, padded with zeros to `width` digits. -/
def hex (width n : Nat) : List Char :=
  let digits := Nat.toDigits 16 n
  List.replicate (width - digits.length) '0' ++ digits

/-- A code point written with a backslash: two, four or eight digits, as many as it needs. -/
def escapeCode (n : Nat) : List Char :=
  if n < 0x100 then '\\' :: 'x' :: hex 2 n
  else if n < 0x10000 then '\\' :: 'u' :: hex 4 n
  else '\\' :: 'U' :: hex 8 n

/-- One character of a text quoted with `mark`. -/
def quoteChar (mark c : Char) : List Char :=
  if c = '\\' ∨ c = mark then ['\\', c]
  else if c = '\n' then ['\\', 'n']
  else if c = '\r' then ['\\', 'r']
  else if c = '\t' then ['\\', 't']
  else if isInvisible c then escapeCode c.toNat
  else [c]

/-- The mark a text is quoted with. -/
def quotationMark (cs : List Char) : Char :=
  if '\x27' ∈ cs ∧ '\x22' ∉ cs then '\x22' else '\x27'

/-- A text between quotation marks. -/
def quote (s : String) : String :=
  let mark := quotationMark s.toList
  String.ofList (mark :: s.toList.flatMap (quoteChar mark) ++ [mark])

/-- A text in which every character beyond the first 128 is written with a backslash. -/
def narrow (cs : List Char) : List Char :=
  cs.flatMap fun c => if c.toNat < 0x80 then [c] else escapeCode c.toNat

end LimLang.Text
