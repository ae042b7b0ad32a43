import LimLang.Template.Fault
import LimLang.Text.Numeral
import LimLang.Text.Utf8

/-! # Faults

A *fault* is a failure of the interpreter's surroundings rather than of the program it runs: a limit,
a file that is not text, a message template that cannot be filled.  A fault is reported by a label and
a detail.  A *crash* is what ends parsing or evaluation from outside: a fault, or the nesting growing
too deep.
-/
namespace LimLang

/-- **A failure outside the interpreted program.** -/
inductive Fault where
  /-- A message template cannot be filled. -/
  | template (fault : TemplateFault)
  /-- An integer literal has too many digits to be read. -/
  | longLiteral (digits : Nat)
  /-- A text is no numeral. -/
  | notANumeral (text : String)
  /-- The depth limit is not positive. -/
  | limitTooLow
  /-- The depth limit does not fit into 32 bits. -/
  | limitTooLarge
  /-- A file name holds the character zero. -/
  | zeroInName
  /-- A file is not text. -/
  | notText (fault : Text.Utf8Fault)
  /-- Something was asked for a part that things of its class do not have. -/
  | noSuchPart (label part : String)
  /-- Something that is no tree was to be evaluated. -/
  | notATree (kind : String)
  /-- A result was to be taken and there is none. -/
  | noResult
  /-- Any other failure. -/
  | other (label detail : String)
  deriving DecidableEq, Repr, Inhabited

namespace Fault

/-- A text cannot be read as a numeral. -/
def ofNumeral (text : String) : Text.NumeralFault → Fault
  | .malformed => .notANumeral text
  | .tooLong digits => .longLiteral digits

/-- Something was asked of the result of a statement that has none. -/
def noValue (question : String) : Fault :=
  .noSuchPart "NoneType" question

/-- The label under which a fault is reported. -/
def label : Fault → String
  | template fault => fault.label
  | longLiteral _ => "ValueError"
  | notANumeral _ => "ValueError"
  | limitTooLow => "ValueError"
  | limitTooLarge => "OverflowError"
  | zeroInName => "ValueError"
  | notText _ => "UnicodeDecodeError"
  | noSuchPart _ _ => "AttributeError"
  | notATree _ => "TypeError"
  | noResult => "IndexError"
  | other label _ => label

/-- The wording of a fault. -/
def detail : Fault → String
  | template fault => fault.detail
  | longLiteral digits =>
      "Exceeds the limit (4300 digits) for integer string conversion: value has " ++ toString digits
        ++ " digits; use sys.set_int_max_str_digits() to increase the limit"
  | notANumeral text =>
      "invalid literal for int() with base 10: " ++ String.ofList ((Text.quote text).toList.take 200)
  | limitTooLow => "recursion limit must be greater or equal than 1"
  | limitTooLarge => "Python int too large to convert to C int"
  | zeroInName => "embedded null byte"
  | notText fault => fault.message
  | noSuchPart label part => "'" ++ label ++ "' object has no attribute '" ++ part ++ "'"
  | notATree kind => "cannot evaluate " ++ kind ++ " node"
  | noResult => "pop from empty list"
  | other _ detail => detail

end Fault

/-- What ends parsing or evaluation from outside. -/
inductive Crash where
  /-- The nesting grew beyond the limit in force. -/
  | tooDeep
  | fault (fault : Fault)
  deriving DecidableEq, Repr

end LimLang
