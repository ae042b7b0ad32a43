import LimLang.Template.Fault
import LimLang.Text.Numeral

/-! # Formats

A format shapes a text: it is cut to a number of characters (the *precision*) and padded to another
(the *width*).  The notation is that of numbers and texts alike: a character to pad with and an
alignment, a sign, marks for special forms, the width, a mark for groups of digits, a point and the
precision, and a letter for the kind of format.  What only makes sense for numbers is refused.
-/
namespace LimLang

/-- Where padding goes. -/
inductive Alignment where
  /-- The text stands on the left. -/
  | left
  /-- The text stands on the right. -/
  | right
  /-- The text stands in the middle, nearer to the left end if it must. -/
  | centre
  /-- Padding goes between a sign and its number. -/
  | afterSign
  deriving DecidableEq, Repr

/-- The alignment that a character stands for. -/
def Alignment.ofChar? : Char → Option Alignment
  | '<' => some left
  | '>' => some right
  | '^' => some centre
  | '=' => some afterSign
  | _ => none

/-- **A format.** -/
structure Format where
  /-- What a text is padded with. -/
  fill : Char := ' '
  align : Alignment := .left
  sign : Option Char := none
  /-- Whether negative zero is to lose its sign. -/
  negativeZero : Bool := false
  alternate : Bool := false
  /-- The least number of characters. -/
  width : Option Nat := none
  /-- What separates groups of digits. -/
  separator : Option Char := none
  /-- The greatest number of characters taken from the text. -/
  precision : Option Nat := none
  /-- The kind of format; texts have `s` only. -/
  code : Char := 's'
  deriving DecidableEq, Repr

namespace Format

/-- Reads the alignment, with the character to pad with in front of it.  The rest of the notation
comes with whether that character was given. -/
def readAlignment : List Char → Format × Bool × List Char
  | c :: d :: cs =>
      match Alignment.ofChar? d, Alignment.ofChar? c with
      | some align, _ => ({ fill := c, align }, true, cs)
      | none, some align => ({ align }, false, d :: cs)
      | none, none => ({}, false, c :: d :: cs)
  | [c] =>
      match Alignment.ofChar? c with
      | some align => ({ align }, false, [])
      | none => ({}, false, [c])
  | [] => ({}, false, [])

/-- Reads a sign. -/
def readSign (f : Format) : List Char → Format × List Char
  | c :: cs => if c = ' ' ∨ c = '+' ∨ c = '-' then ({ f with sign := some c }, cs) else (f, c :: cs)
  | [] => (f, [])

/-- Reads the marks of special forms. -/
def readMarks (f : Format) (cs : List Char) : Format × List Char :=
  let (f, cs) :=
    match cs with
    | 'z' :: cs => ({ f with negativeZero := true }, cs)
    | cs => (f, cs)
  match cs with
  | '#' :: cs => ({ f with alternate := true }, cs)
  | cs => (f, cs)

/-- Reads a number, if there is one. -/
def readNumber (cs : List Char) : Except TemplateFault (Option Nat × List Char) :=
  match Text.countFrom? 0 cs with
  | none => .error .hugeNumber
  | some (n, rest) => .ok (if rest.length = cs.length then none else some n, rest)

/-- Reads the width.  A zero in front of it pads with zeros, unless a character to pad with was
given. -/
def readWidth (f : Format) (filled : Bool) (cs : List Char) :
    Except TemplateFault (Format × List Char) := do
  let (f, cs) :=
    match cs with
    | '0' :: rest => if filled then (f, cs) else ({ f with fill := '0' }, rest)
    | cs => (f, cs)
  let (width, cs) ← readNumber cs
  return ({ f with width }, cs)

/-- Reads what separates groups of digits. -/
def readSeparator (f : Format) : List Char → Except TemplateFault (Format × List Char)
  | ',' :: '_' :: _ => .error .bothSeparators
  | '_' :: ',' :: _ => .error .bothSeparators
  | ',' :: cs => .ok ({ f with separator := some ',' }, cs)
  | '_' :: cs => .ok ({ f with separator := some '_' }, cs)
  | cs => .ok (f, cs)

/-- Reads the precision, after its point. -/
def readPrecision (f : Format) : List Char → Except TemplateFault (Format × List Char)
  | '.' :: cs => do
      match ← readNumber cs with
      | (none, _) => .error .noPrecision
      | (precision, cs) => return ({ f with precision }, cs)
  | cs => .ok (f, cs)

/-- The kinds of formats whose digits can be grouped with a separator. -/
def grouping (separator : Char) : List Char :=
  ['d', 'e', 'f', 'g', 'E', 'G', '%', 'F', '\x00'] ++ if separator = '_' then ['b', 'o', 'x', 'X'] else []

/-- Reads a format. -/
def read (format : List Char) : Except TemplateFault Format := do
  let (f, filled, cs) := readAlignment format
  let (f, cs) := f.readSign cs
  let (f, cs) := f.readMarks cs
  let (f, cs) ← f.readWidth filled cs
  let (f, cs) ← f.readSeparator cs
  let (f, cs) ← f.readPrecision cs
  let f ←
    match cs with
    | [] => pure f
    | [code] => pure { f with code }
    | _ => throw (.invalidFormat (String.ofList format))
  match f.separator with
  | some separator =>
      if f.code ∈ grouping separator then return f
      else throw (.separatorWith separator f.code)
  | none => return f

/-- What a format asks for that texts do not have. -/
def refused? (f : Format) : Option TemplateFault :=
  if f.code ≠ 's' then some (.unknownCode f.code)
  else if f.sign = some ' ' then some .blankSign
  else if f.sign.isSome then some .sign
  else if f.negativeZero then some .negativeZero
  else if f.alternate then some .alternateForm
  else if f.align = .afterSign then some .signAlignment
  else none

/-- The greatest width that a text can be padded to, 2 ^ 31. -/
def widest : Nat := 0x80000000

/-- A text cut to the precision and padded to the width. -/
def shape (f : Format) (cs : List Char) : List Char :=
  let cs := cs.take (f.precision.getD cs.length)
  let missing := f.width.getD 0 - cs.length
  let before :=
    match f.align with
    | .right => missing
    | .centre => missing / 2
    | _ => 0
  List.replicate before f.fill ++ cs ++ List.replicate (missing - before) f.fill

/-- **Shapes a text by a format** in its notation.  The empty format leaves it as it is. -/
def apply (format cs : List Char) : Except TemplateFault (List Char) := do
  if format.isEmpty then return cs
  let f ← read format
  match f.refused? with
  | some fault => throw fault
  | none => if widest < f.width.getD 0 then throw .tooWide else return f.shape cs

end Format

end LimLang
