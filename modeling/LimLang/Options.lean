import LimLang.Text.Numeral

/-! # The command line

The interpreter is called with the name of a file, or with none to start the shell, and with options
before or after it.  An option of two dashes may be shortened as long as one option only is meant, and
its value may be joined to it by an equals sign.  After a lone double dash nothing is an option.

A shortened option that may mean several ones is a misuse in any place.  Otherwise arguments are read from
left to right.  Asking for help counts as soon as it is met; so does a misuse of an option.  Options that
do not exist and a second file are only misuses in the end.
-/
namespace LimLang

/-- The options there are. -/
inductive Flag where
  | help
  /-- Show the program instead of running it. -/
  | showTree
  /-- Set the depth limit for running. -/
  | depthLimit
  | noColour
  deriving DecidableEq, Repr

/-- The spellings of the options. -/
def Flag.spellings : List (String × Flag) :=
  [("-h", .help), ("--help", .help), ("--ast", .showTree), ("--recursion-limit", .depthLimit),
    ("--no-color", .noColour)]

/-- **What the command line asks for.** -/
structure Options where
  /-- The file to interpret; without one the shell is started. -/
  file : Option String := none
  showTree : Bool := false
  limit : Option Int := none
  noColour : Bool := false
  deriving DecidableEq, Repr

/-- How one argument is to be understood. -/
inductive Argument where
  /-- The name of a file, or the value of the option before it. -/
  | plain
  /-- An option, with the value joined to it. -/
  | option (flag : Flag) (value : Option String)
  /-- An option that does not exist. -/
  | unknown
  /-- An option that is called wrongly. -/
  | misused
  /-- A shortened option that may mean several ones. -/
  | ambiguous
  deriving DecidableEq, Repr

namespace Argument

/-- Splits an argument at its first equals sign. -/
def splitValue (cs : List Char) : List Char × Option (List Char) :=
  (cs.takeWhile (· != '='), (cs.dropWhile (· != '=')).tail?)

/-- A text without the line feed it may end with. -/
def withoutLineFeed (cs : List Char) : List Char :=
  if cs.getLast? = some '\n' then cs.dropLast else cs

/-- A negative number, with or without decimals.  A line feed may follow it. -/
def isNegativeNumber (cs : List Char) : Bool :=
  match withoutLineFeed cs with
  | '-' :: cs =>
      let isDigit (c : Char) : Bool := (Text.digitValue? c).isSome
      match cs.dropWhile isDigit with
      | [] => !cs.isEmpty
      | '.' :: decimals => !decimals.isEmpty && decimals.all isDigit
      | _ => false
  | _ => false

/-- The option of a spelling. -/
def spelled? (name : List Char) : Option Flag :=
  Flag.spellings.lookup (String.ofList name)

/-- The options whose spelling starts with `name`. -/
def startingWith (name : List Char) : List Flag :=
  (Flag.spellings.filter fun spelled => name.isPrefixOf spelled.1.toList).map (·.2)

/-- An option that is met with a value joined to it.  Only the depth limit takes one. -/
def withValue (flag : Flag) (value : Option (List Char)) : Argument :=
  match flag, value with
  | .depthLimit, some value => .option flag (some (String.ofList value))
  | flag, none => .option flag none
  | _, some _ => .misused

/-- The option of one dash with letters joined to it, which stand for options of one dash in turn. -/
def withLetters (letters : List Char) : Argument :=
  if !letters.isEmpty && letters.all (· == 'h') then .option .help none else .misused

/-- An argument that is no spelling of an option as it stands, but starts with a dash. -/
def ofDashed (cs : List Char) : Argument :=
  let (name, value) := splitValue cs
  match if value.isSome then spelled? name else none with
  | some flag => if name = ['-', 'h'] then withLetters (value.getD []) else withValue flag value
  | none =>
      match if ['-', '-'].isPrefixOf cs then startingWith name else [] with
      | [flag] => withValue flag value
      | _ :: _ :: _ => .ambiguous
      | [] =>
          match cs with
          | '-' :: 'h' :: rest => withLetters rest
          | _ => if isNegativeNumber cs || cs.contains ' ' then .plain else .unknown

/-- **How an argument is to be understood.** -/
def ofString (s : String) : Argument :=
  let cs := s.toList
  if cs.head? ≠ some '-' then .plain
  else
    match spelled? cs with
    | some flag => .option flag none
    | none => if cs.length = 1 then .plain else ofDashed cs

end Argument

/-- What the interpreter is called for. -/
inductive Invocation where
  | run (options : Options)
  | help
  /-- The command line makes no sense. -/
  | misuse
  deriving DecidableEq, Repr

namespace Options

/-- The arguments after a lone double dash: at most one file.  The dash itself is one argument too many
if there is a file already, unless it stands right after it. -/
def readPlain (options : Options) (surplus afterFile : Bool) : List String → Invocation
  | [] =>
      if surplus || (options.file.isSome && !afterFile) then .misuse else .run options
  | [file] => if surplus || options.file.isSome then .misuse else .run { options with file }
  | _ => .misuse

/-- Reads arguments.  `surplus` tells whether one was met that has no place, `afterFile` whether the
last one was the file. -/
def readFrom (options : Options) (surplus afterFile : Bool) : List String → Invocation
  | [] => if surplus then .misuse else .run options
  | "--" :: rest => readPlain options surplus afterFile rest
  | argument :: rest =>
      match Argument.ofString argument with
      | .plain =>
          if options.file.isSome then readFrom options true false rest
          else readFrom { options with file := argument } surplus true rest
      | .unknown => readFrom options true false rest
      | .misused | .ambiguous => .misuse
      | .option .help _ => .help
      | .option .showTree _ => readFrom { options with showTree := true } surplus false rest
      | .option .noColour _ => readFrom { options with noColour := true } surplus false rest
      | .option .depthLimit (some value) =>
          match Text.integer? value with
          | some limit => readFrom { options with limit := some limit } surplus false rest
          | none => .misuse
      | .option .depthLimit none =>
          match rest with
          | value :: rest =>
              if value ≠ "--" ∧ Argument.ofString value = .plain then
                match Text.integer? value with
                | some limit => readFrom { options with limit := some limit } surplus false rest
                | none => .misuse
              else .misuse
          | [] => .misuse

/-- **Reads a command line.** -/
def read (arguments : List String) : Invocation :=
  if (arguments.takeWhile (· ≠ "--")).any fun argument => Argument.ofString argument = .ambiguous then
    .misuse
  else readFrom {} false false arguments

/-- What is written when help is asked for. -/
def usage : String :=
  "usage: lim [-h] [--ast] [--recursion-limit N] [--no-color] [file]\n"
    ++ "\n"
    ++ "positional arguments:\n"
    ++ "  file                 file to interpret and run (if empty, goes to command-\n"
    ++ "                       line mode)\n"
    ++ "\n"
    ++ "options:\n"
    ++ "  -h, --help           show this help message and exit\n"
    ++ "  --ast                print the parsed program instead of running it\n"
    ++ "  --recursion-limit N  recursion limit of the host interpreter while\n"
    ++ "                       evaluating\n"
    ++ "  --no-color           disable colored diagnostics\n"

end Options

end LimLang
