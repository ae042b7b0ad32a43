import LimLang.Fault
import LimLang.Message
import LimLang.Template
import LimLang.Text.Slice

/-! # Diagnostics

A diagnostic is a message about a piece of text: the line it was found in, the excerpt to show, and
the columns of the excerpt to point at.  It can be shown in full, with its place in front and, below
the message, the excerpt underlined by a caret.

A *complaint* is what the interpreter gives up with: one diagnostic, together with those it sums up.
-/
namespace LimLang

/-- What a diagnostic is about. -/
inductive Category where
  /-- The interpreter's own affairs: files, interrupts, limits. -/
  | general
  /-- Malformed tokens. -/
  | lexical
  /-- Malformed statements. -/
  | syntactic
  /-- A source text that could not be parsed, summing up its diagnostics. -/
  | unparsable
  /-- A program that ended in an error. -/
  | runtime
  deriving DecidableEq, Repr

/-- The name of a category. -/
def Category.label : Category → String
  | general => "LimException"
  | lexical => "LexicalError"
  | syntactic => "ParseError"
  | unparsable => "ParseFailure"
  | runtime => "LimRuntimeError"

/-- How grave a diagnostic is. -/
inductive Severity where
  | warning
  | error
  deriving DecidableEq, Repr

namespace Severity

/-- The word in front of a message. -/
def label : Severity → String
  | warning => "warning: "
  | error => "error: "

/-- The colour of a severity. -/
def ink : Severity → Ink
  | warning => .magenta
  | error => .red

end Severity

/-- **A message about a piece of text.** -/
structure Diagnostic where
  /-- What it is about. -/
  category : Category
  /-- What it says. -/
  message : Message
  /-- The text to show below the message. -/
  excerpt : String
  /-- The line it was found in, or zero if it has no place. -/
  line : Int
  /-- The first column to point at. -/
  start : Int
  /-- The column after the last one to point at. -/
  stop : Int
  /-- Whether the excerpt may be shown. -/
  showsExcerpt : Bool
  /-- Whether the interpreter itself is at fault. -/
  isInternal : Bool
  deriving DecidableEq, Repr

namespace Diagnostic

/-- A diagnostic without a place, with nothing to show below its message. -/
def plain (category : Category) (message : Message) : Diagnostic where
  category := category
  message := message
  excerpt := ""
  line := 0
  start := 0
  stop := 0
  showsExcerpt := false
  isInternal := false

/-- A diagnostic about `length` characters of a line; at least one is pointed at. -/
def located (category : Category) (message : Message) (excerpt : List Char) (line : Int)
    (start length : Nat) : Diagnostic where
  category := category
  message := message
  excerpt := String.ofList excerpt
  line := line
  start := start
  stop := start + max length 1
  showsExcerpt := true
  isInternal := false

/-- The options of a diagnostic made from a template. -/
structure Options where
  /-- What fills the template. -/
  args : List String := []
  /-- The excerpt; the first argument stands in for it. -/
  source : Option String := none
  line : Int := 0
  start : Int := 0
  /-- The column after the last one; -1 stands for the end of the excerpt. -/
  stop : Int := -1
  showsExcerpt : Bool := true
  isInternal : Bool := false

/-- A template filled with arguments that are set off on a terminal with colours. -/
def fill [Painter] (colour : Bool) (template : String) (args : List String) :
    Except TemplateFault Message := do
  let text ← Template.fill template args
  let coloured ← Template.fill template (args.map (Painter.paint colour .default))
  return [.either text coloured]

/-- A diagnostic whose message is a filled template, for a terminal with or without colours. -/
def ofTemplate [Painter] (colour : Bool) (category : Category) (template : String)
    (options : Options) : Except TemplateFault Diagnostic := do
  let message ← fill colour template options.args
  let excerpt := options.source.getD (options.args.headD "")
  return {
    category := category
    message := message
    excerpt := excerpt
    line := options.line
    start := options.start
    stop := if options.stop = -1 then excerpt.length else options.stop
    showsExcerpt := options.showsExcerpt
    isInternal := options.isInternal }

/-- The message as plain text. -/
def text (d : Diagnostic) : String :=
  d.message.text

/-- Where in the text called `path` the diagnostic points; columns are counted from one. -/
def location (d : Diagnostic) (path : String) : String :=
  if d.line = 0 then path
  else path ++ ":" ++ toString d.line ++ ":" ++ toString (d.start + 1)

/-- The excerpt, with the columns pointed at in colour, and a line of carets below it. -/
def underlined [Painter] (d : Diagnostic) (colour : Bool) (severity : Severity) : String :=
  let cs := d.excerpt.toList
  let stop := max d.stop (d.start + 1)
  let paint (part : List Char) : String := Painter.paint colour severity.ink (String.ofList part)
  "  " ++ String.ofList (Text.sliceTo cs d.start) ++ paint (Text.slice cs d.start stop)
    ++ String.ofList (Text.sliceFrom cs stop) ++ "\n"
    ++ "  " ++ String.ofList (List.replicate d.start.toNat ' ')
    ++ paint ('^' :: List.replicate (stop - d.start - 1).toNat '~')

/-- **The full text of a diagnostic** of the text called `path`: place, severity, message, and the
excerpt if there is one to show. -/
def shown [Painter] (d : Diagnostic) (path : String) (colour : Bool) (severity : Severity) : String :=
  (if d.line = 0 then "" else Painter.paint colour .default (d.location path ++ ": "))
    ++ (if d.isInternal then Painter.paint colour .red "[internal] " else "")
    ++ Painter.paint colour severity.ink severity.label
    ++ d.message.shown colour
    ++ (if !d.isInternal && d.excerpt != "" && d.showsExcerpt then
          "\n" ++ d.underlined colour severity
        else "")

/-- Whether `a` stands before `b`, or at the same place. -/
def notAfter (a b : Diagnostic) : Bool :=
  decide (a.line < b.line) || (decide (a.line = b.line) && decide (a.start ≤ b.start))

/-- Diagnostics in the order of their places; those of one place stay in order. -/
def inOrder (ds : List Diagnostic) : List Diagnostic :=
  ds.mergeSort notAfter

end Diagnostic

/-- **What the interpreter gives up with.** -/
structure Complaint where
  /-- The diagnostic that sums it up. -/
  summary : Diagnostic
  /-- The diagnostics it stands for. -/
  details : List Diagnostic := []
  deriving DecidableEq, Repr

namespace Complaint

/-- A complaint about the interpreter's own affairs. -/
def general (message : Message) : Complaint where
  summary := Diagnostic.plain .general message

/-- A program ended in an error.  The error's message is a text and no template, so its braces are
doubled.  There are no arguments to be set off. -/
def runtime (message : String) : Except TemplateFault Complaint := do
  let summary ← @Diagnostic.ofTemplate .plain false .runtime (Template.escape message)
    { showsExcerpt := false }
  return { summary }

/-- The text called `path` could not be parsed, for the reasons given. -/
def unparsable (path : String) (details : List Diagnostic) : Complaint :=
  let name := if path = "" then "<input>" else path
  let count := details.length
  { summary :=
      { Diagnostic.plain .unparsable
          [.plain "could not parse ", .strong name,
            .plain (": " ++ toString count ++ (if count = 1 then " error" else " errors"))] with
        excerpt := name
        stop := name.length }
    details := details }

/-- The file called `path` cannot be read. -/
def unreadable (path : String) : Complaint where
  summary :=
    { Diagnostic.plain .general [.plain "'", .strong path, .plain "' could not be opened"] with
      excerpt := path
      stop := path.length }

/-- The fault is none the interpreter knows how to handle.  Its wording is used as a template, which
may fail in turn. -/
def unknown (fault : Fault) : Except TemplateFault Complaint := do
  let summary ← @Diagnostic.ofTemplate .plain false .general
    ("unknown error: '" ++ fault.label ++ ": " ++ fault.detail ++ "'")
    { isInternal := true }
  return { summary }

end Complaint

end LimLang
