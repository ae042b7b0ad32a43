import LimLang.Template.Facet

/-! # Message templates

A template is a text with fields in braces.  An empty field takes the next argument, a number takes
the argument at that place, and the two ways of counting do not mix.  After its name a field may ask
for a facet of the argument (`.` and `[`), for a conversion (`!`) and for a format (`:`), which may have
fields of its own.  A doubled brace stands for the brace itself.

A template is read from left to right and each field is filled when it is met, so of several faults
the first one counts.  `Template.pieces` puts a fault of the template's form where it was met, as the
last piece.
-/
namespace LimLang

/-- A piece of a template. -/
inductive TemplatePiece where
  /-- A character of running text. -/
  | char (c : Char)
  /-- A field with its name, conversion and format. -/
  | field (name : List Char) (conversion : Option Char) (format : List Char)
  /-- The template makes no sense from here on. -/
  | broken (fault : TemplateFault)
  deriving DecidableEq, Repr

namespace Template

/-- Where the reader of a template is. -/
inductive Mode where
  /-- In running text. -/
  | text
  /-- In the name of a field, of which the characters `name` have been read. -/
  | field (name : List Char)
  /-- In brackets inside the name of a field. -/
  | brackets (name : List Char)
  /-- Before the conversion of a field. -/
  | conversion (name : List Char)
  /-- After the conversion of a field. -/
  | converted (name : List Char) (conversion : Char)
  /-- In the format of a field, of which the characters `format` have been read, inside `depth` more
  braces. -/
  | format (name : List Char) (conversion : Option Char) (format : List Char) (depth : Nat)

/-- The pieces of the rest of a template. -/
def piecesFrom : Mode → List Char → List TemplatePiece
  | .text, [] => []
  | .text, '\x7b' :: '\x7b' :: cs => .char '\x7b' :: piecesFrom .text cs
  | .text, ['\x7b'] => [.broken .loneOpen]
  | .text, '\x7b' :: cs => piecesFrom (.field []) cs
  | .text, '\x7d' :: '\x7d' :: cs => .char '\x7d' :: piecesFrom .text cs
  | .text, '\x7d' :: _ => [.broken .loneClose]
  | .text, c :: cs => .char c :: piecesFrom .text cs
  | .field _, [] => [.broken .unclosedField]
  | .field _, '\x7b' :: _ => [.broken .braceInField]
  | .field name, '\x7d' :: cs => .field name none [] :: piecesFrom .text cs
  | .field name, ':' :: cs => piecesFrom (.format name none [] 0) cs
  | .field name, '!' :: cs => piecesFrom (.conversion name) cs
  | .field name, '[' :: cs => piecesFrom (.brackets (name ++ ['['])) cs
  | .field name, c :: cs => piecesFrom (.field (name ++ [c])) cs
  | .brackets _, [] => [.broken .unclosedField]
  | .brackets name, ']' :: cs => piecesFrom (.field (name ++ [']'])) cs
  | .brackets name, c :: cs => piecesFrom (.brackets (name ++ [c])) cs
  | .conversion _, [] => [.broken .missingConversion]
  | .conversion name, c :: cs => piecesFrom (.converted name c) cs
  | .converted _ _, [] => [.broken .unclosedFormat]
  | .converted name c, '\x7d' :: cs => .field name (some c) [] :: piecesFrom .text cs
  | .converted name c, ':' :: cs => piecesFrom (.format name (some c) [] 0) cs
  | .converted _ _, _ :: _ => [.broken .badConversion]
  | .format _ _ _ _, [] => [.broken .unclosedFormat]
  | .format name conversion format depth, '\x7b' :: cs =>
      piecesFrom (.format name conversion (format ++ ['\x7b']) (depth + 1)) cs
  | .format name conversion format 0, '\x7d' :: cs =>
      .field name conversion format :: piecesFrom .text cs
  | .format name conversion format (depth + 1), '\x7d' :: cs =>
      piecesFrom (.format name conversion (format ++ ['\x7d']) depth) cs
  | .format name conversion format depth, c :: cs =>
      piecesFrom (.format name conversion (format ++ [c]) depth) cs

/-- The pieces of a template. -/
def pieces (template : List Char) : List TemplatePiece :=
  piecesFrom .text template

/-! ## Arguments -/

/-- How the fields met so far took their arguments. -/
inductive Counting where
  | undecided
  /-- In order; `next` is the place of the next argument. -/
  | automatic (next : Nat)
  /-- By number. -/
  | manual
  deriving DecidableEq, Repr

/-- The number that a text consists of, if it does. -/
def number? (cs : List Char) : Except TemplateFault (Option Nat) :=
  match Text.countFrom? 0 cs with
  | none => .error .hugeNumber
  | some (n, []) => .ok (if cs.isEmpty then none else some n)
  | some (_, _ :: _) => .ok none

/-- The place of the argument that a field takes, and the counting after it. -/
def place (counting : Counting) (name : List Char) : Except TemplateFault (Nat × Counting) := do
  match ← number? name with
  | some n =>
      match counting with
      | .automatic _ => throw .automaticThenManual
      | _ => return (n, .manual)
  | none =>
      if name.isEmpty then
        match counting with
        | .undecided => return (0, .automatic 1)
        | .automatic next => return (next, .automatic (next + 1))
        | .manual => throw .manualThenAutomatic
      else throw (.noName (String.ofList name))

/-- Whether a character starts an access to a part of an argument. -/
def startsAccess (c : Char) : Bool :=
  c == '.' || c == '['

/-- What the accesses after a field's name reach from a facet, at most `bound` of them. -/
def accessWithin : Nat → Facet → List Char → Except TemplateFault Facet
  | 0, facet, _ => .ok facet
  | _, facet, [] => .ok facet
  | bound + 1, facet, c :: cs =>
      if c = '.' then
        match cs.takeWhile fun c => !startsAccess c with
        | [] => .error .emptyAccess
        | name => do
            let reached ← facet.named (String.ofList name)
            accessWithin bound reached (cs.dropWhile fun c => !startsAccess c)
      else if c = '[' then
        match cs.dropWhile (· != ']') with
        | [] => .error .unclosedIndex
        | _ :: rest => do
            let name := cs.takeWhile (· != ']')
            let place ← number? name
            if name.isEmpty then throw .emptyAccess
            let reached ← facet.item place
            accessWithin bound reached rest
      else .error .afterIndex

/-! ## Filling -/

/-- What a field becomes, given how formats are filled, and the counting after it. -/
def fillField (expand : Counting → List Char → Except TemplateFault (List Char × Counting))
    (args : List String) (counting : Counting) (name : List Char) (conversion : Option Char)
    (format : List Char) : Except TemplateFault (List Char × Counting) := do
  let head := name.takeWhile fun c => !startsAccess c
  let accesses := name.dropWhile fun c => !startsAccess c
  let (index, counting) ← place counting head
  match args[index]? with
  | none => throw (.noArgument index)
  | some argument =>
      let reached ← accessWithin accesses.length (.text argument.toList) accesses
      let facet ← reached.convert conversion
      let (format, counting) ←
        if format.contains '\x7b' then expand counting format else pure (format, counting)
      return (← facet.format format, counting)

/-- Fills the pieces of a template with arguments, given how formats are filled. -/
def fillPieces (expand : Counting → List Char → Except TemplateFault (List Char × Counting))
    (args : List String) (counting : Counting) :
    List TemplatePiece → Except TemplateFault (List Char × Counting)
  | [] => .ok ([], counting)
  | .char c :: ps => do
      let (rest, counting) ← fillPieces expand args counting ps
      return (c :: rest, counting)
  | .broken fault :: _ => .error fault
  | .field name conversion format :: ps => do
      let (part, counting) ← fillField expand args counting name conversion format
      let (rest, counting) ← fillPieces expand args counting ps
      return (part ++ rest, counting)

/-- Fills a template whose formats are nested less than `depth` deep. -/
def fillWithin (args : List String) :
    Nat → Counting → List Char → Except TemplateFault (List Char × Counting)
  | 0, _, _ => .error .nestedFormat
  | depth + 1, counting, template =>
      fillPieces (fillWithin args depth) args counting (pieces template)

/-- **Fills a template**: the arguments stand in the text where its fields stood.  Formats may have
fields, but not fields with such formats. -/
def fill (template : String) (args : List String) : Except TemplateFault String := do
  let (text, _) ← fillWithin args 2 .undecided template.toList
  return String.ofList text

/-- Doubles the braces of a text, so that filling gives the text back. -/
def escape (s : String) : String :=
  String.ofList <| s.toList.flatMap fun c => if c = '\x7b' ∨ c = '\x7d' then [c, c] else [c]

end Template

end LimLang
