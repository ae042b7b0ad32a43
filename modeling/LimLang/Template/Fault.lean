import LimLang.Text.Quoted

/-! # Faults of templates

Why a template cannot be filled: it is malformed, an argument is missing, or an argument cannot be
taken apart or shaped the way a field asks for.
-/
namespace LimLang

/-- **Why a template cannot be filled.** -/
inductive TemplateFault where
  /-- A closing brace that is neither doubled nor the end of a field. -/
  | loneClose
  /-- An opening brace at the very end. -/
  | loneOpen
  /-- A field that is not closed. -/
  | unclosedField
  /-- An opening brace inside the name of a field. -/
  | braceInField
  /-- A field's format that is not closed. -/
  | unclosedFormat
  /-- A field that ends where a conversion is expected. -/
  | missingConversion
  /-- A conversion that is followed by neither a format nor the end of the field. -/
  | badConversion
  /-- An empty field after a numbered one. -/
  | manualThenAutomatic
  /-- A numbered field after an empty one. -/
  | automaticThenManual
  /-- A number too large to count with. -/
  | hugeNumber
  /-- There is no argument at this place. -/
  | noArgument (index : Nat)
  /-- Arguments have no names. -/
  | noName (name : String)
  /-- A part of an argument is asked for and not named. -/
  | emptyAccess
  /-- An index into an argument that is not closed. -/
  | unclosedIndex
  /-- Something other than a further access after an index. -/
  | afterIndex
  /-- What is described has nothing of that name. -/
  | noAttribute (description name : String)
  /-- What is described has nothing at the place asked for. -/
  | outOfRange (description : String)
  /-- The place of a character is no number. -/
  | textIndex
  /-- The place in a tuple is no number. -/
  | tupleIndex
  /-- What is described has no places. -/
  | notIndexed (description : String)
  /-- Things of this class have no formats. -/
  | noFormat (label : String)
  /-- There is no such conversion. -/
  | unknownConversion (c : Char)
  /-- Formats are nested in formats. -/
  | nestedFormat
  /-- A point in a format that no precision follows. -/
  | noPrecision
  /-- A format with something left over. -/
  | invalidFormat (format : String)
  /-- Two marks for groups of digits. -/
  | bothSeparators
  /-- A mark for groups of digits, in a format that has none. -/
  | separatorWith (separator code : Char)
  /-- A blank in the place of a sign. -/
  | blankSign
  /-- A sign, though texts have none. -/
  | sign
  /-- A rule for negative zero, though texts are never that. -/
  | negativeZero
  /-- The alternate form, though texts have none. -/
  | alternateForm
  /-- Padding after the sign, though texts have none. -/
  | signAlignment
  /-- A text is to be padded to more characters than can be stored. -/
  | tooWide
  /-- There is no such kind of format for texts. -/
  | unknownCode (code : Char)
  deriving DecidableEq, Repr, Inhabited

namespace TemplateFault

/-- The label under which the fault of a template is reported. -/
def label : TemplateFault → String
  | noArgument _ => "IndexError"
  | outOfRange _ => "IndexError"
  | noName _ => "KeyError"
  | noAttribute _ _ => "AttributeError"
  | textIndex | tupleIndex | notIndexed _ | noFormat _ => "TypeError"
  | tooWide => "MemoryError"
  | _ => "ValueError"

/-- A character as a message shows it: itself if it stands after the blank and no later than `last`,
and otherwise its code point. -/
def shownChar (last : Nat) (c : Char) : String :=
  if 32 < c.toNat ∧ c.toNat ≤ last then String.singleton c
  else "\\x" ++ String.ofList (Text.hex 1 c.toNat)

/-- What is wrong with a template. -/
def detail : TemplateFault → String
  | loneClose => "Single '\x7d' encountered in format string"
  | loneOpen => "Single '\x7b' encountered in format string"
  | unclosedField => "expected '\x7d' before end of string"
  | braceInField => "unexpected '\x7b' in field name"
  | unclosedFormat => "unmatched '\x7b' in format spec"
  | missingConversion => "end of string while looking for conversion specifier"
  | badConversion => "expected ':' after conversion specifier"
  | manualThenAutomatic =>
      "cannot switch from manual field specification to automatic field numbering"
  | automaticThenManual =>
      "cannot switch from automatic field numbering to manual field specification"
  | hugeNumber => "Too many decimal digits in format string"
  | noArgument index =>
      "Replacement index " ++ toString index ++ " out of range for positional args tuple"
  | noName name => Text.quote name
  | emptyAccess => "Empty attribute in format string"
  | unclosedIndex => "Missing ']' in format string"
  | afterIndex => "Only '.' or '[' may follow ']' in format field specifier"
  | noAttribute description name => description ++ " has no attribute '" ++ name ++ "'"
  | outOfRange description => description ++ " index out of range"
  | textIndex => "string indices must be integers, not 'str'"
  | tupleIndex => "tuple indices must be integers or slices, not str"
  | notIndexed description => description ++ " is not subscriptable"
  | noFormat label => "unsupported format string passed to " ++ label ++ ".__format__"
  | unknownConversion c => "Unknown conversion specifier " ++ shownChar 126 c
  | nestedFormat => "Max string recursion exceeded"
  | noPrecision => "Format specifier missing precision"
  | invalidFormat format => "Invalid format specifier '" ++ format ++ "' for object of type 'str'"
  | bothSeparators => "Cannot specify both ',' and '_'."
  | separatorWith separator code =>
      "Cannot specify '" ++ String.singleton separator ++ "' with '" ++ shownChar 127 code ++ "'."
  | blankSign => "Space not allowed in string format specifier"
  | sign => "Sign not allowed in string format specifier"
  | negativeZero => "Negative zero coercion (z) not allowed in string format specifier"
  | alternateForm => "Alternate form (#) not allowed in string format specifier"
  | signAlignment => "'=' alignment not allowed in string format specifier"
  | tooWide => ""
  | unknownCode code =>
      "Unknown format code '" ++ shownChar 127 code ++ "' for object of type 'str'"

end TemplateFault

end LimLang
