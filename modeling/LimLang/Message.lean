/-! # Messages

A message is a text in which some parts are set off from the rest: the names and tokens it is about.
On a terminal with colours these parts are painted.  The same message can be read as plain text.
-/
namespace LimLang

/-- A part of a message. -/
inductive Fragment where
  /-- Running text. -/
  | plain (text : String)
  /-- A name or token that the message is about. -/
  | strong (text : String)
  /-- A text that has a form of its own on a terminal with colours. -/
  | either (text coloured : String)
  deriving DecidableEq, Repr

/-- **A text with parts set off.** -/
abbrev Message := List Fragment

/-- The colours in which texts are set off. -/
inductive Ink where
  /-- The colour of the surrounding text. -/
  | default
  | red
  | magenta
  deriving DecidableEq, Repr

/-- **How a terminal sets texts off.**  Nothing more is known of it than that it leaves every text as
it is if there are no colours. -/
class Painter where
  /-- A text in bold and in a colour, if there are colours. -/
  paint (colour : Bool) (ink : Ink) (text : String) : String
  paint_off (ink : Ink) (text : String) : paint false ink text = text

/-- The painter that never sets anything off. -/
@[reducible] def Painter.plain : Painter where
  paint _ _ text := text
  paint_off _ _ := rfl

namespace Fragment

/-- The text of a part. -/
def text : Fragment → String
  | plain s => s
  | strong s => s
  | either s _ => s

/-- A part as a terminal shows it. -/
def shown [Painter] (colour : Bool) : Fragment → String
  | plain s => s
  | strong s => Painter.paint colour .default s
  | either s coloured => if colour then coloured else s

end Fragment

namespace Message

/-- A message as plain text. -/
def text (m : Message) : String :=
  String.join (m.map Fragment.text)

/-- A message as a terminal shows it. -/
def shown [Painter] (m : Message) (colour : Bool) : String :=
  String.join (m.map (Fragment.shown colour))

end Message

end LimLang
