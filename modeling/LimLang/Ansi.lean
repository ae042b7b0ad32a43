import LimLang.Message

/-! # Colours of a terminal

The painter of the command line.  It writes the escape sequences that terminals understand.
-/
namespace LimLang

/-- The terminal's code for a colour. -/
def Ink.code : Ink → String
  | default => ""
  | red => "\x1b[31m"
  | magenta => "\x1b[35m"

/-- A text in bold and in a colour, between escape sequences. -/
instance Painter.ansi : Painter where
  paint colour ink text := if colour then "\x1b[1m" ++ ink.code ++ text ++ "\x1b[0m" else text
  paint_off _ _ := rfl

end LimLang
