import LimLang.Text.Quoted

/-! # Tokens

A token is one word of the language: a kind, the text it was written as, and the place where it
stands.  Every kind has a *name*, under which tokens are listed, and a *spelling*, which for symbols
and keywords is the text itself.

Lines are integers, since the number of a text's first line is chosen by whoever reads it.  Columns
count characters from the start of the line.
-/
namespace LimLang

/-- **The kinds of tokens.** -/
inductive Kind where
  /-- Text that is no token. -/
  | illegal
  | eof
  | endOfLine
  | ident
  | int
  | float
  | bool
  | string
  | assign
  | plus
  | minus
  | bang
  | asterisk
  | slash
  | modulus
  | bitAnd
  | bitOr
  | lt
  | gt
  | ltEq
  | gtEq
  | eq
  | notEq
  | or
  | and
  | addAssign
  | subAssign
  | mulAssign
  | quoAssign
  | remAssign
  | comma
  | semicolon
  | colon
  | period
  | arrow
  | define
  | lparen
  | rparen
  | lbrace
  | rbrace
  | lbrack
  | rbrack
  | kwInt
  | kwBool
  | kwString
  | kwFloat
  | kwFn
  | kwConst
  | kwStruct
  | kwTrue
  | kwFalse
  | kwIf
  | kwElse
  | kwReturn
  | kwNull
  deriving DecidableEq, Repr

namespace Kind

/-- All kinds. -/
def all : List Kind :=
  [illegal, eof, endOfLine, ident, int, float, bool, string, assign, plus, minus, bang, asterisk,
    slash, modulus, bitAnd, bitOr, lt, gt, ltEq, gtEq, eq, notEq, or, and, addAssign, subAssign,
    mulAssign, quoAssign, remAssign, comma, semicolon, colon, period, arrow, define, lparen, rparen,
    lbrace, rbrace, lbrack, rbrack, kwInt, kwBool, kwString, kwFloat, kwFn, kwConst, kwStruct,
    kwTrue, kwFalse, kwIf, kwElse, kwReturn, kwNull]

/-- The name under which a kind is listed. -/
def name : Kind → String
  | illegal => "ILLEGAL"
  | eof => "EOF"
  | endOfLine => "ENDOFLINE"
  | ident => "IDENT"
  | int => "INT"
  | float => "FLOAT"
  | bool => "BOOL"
  | string => "STRING"
  | assign => "ASSIGN"
  | plus => "PLUS"
  | minus => "MINUS"
  | bang => "BANG"
  | asterisk => "ASTERISK"
  | slash => "SLASH"
  | modulus => "MODULUS"
  | bitAnd => "BITWISE_AND"
  | bitOr => "BITWISE_OR"
  | lt => "LT"
  | gt => "GT"
  | ltEq => "LTEQ"
  | gtEq => "GTEQ"
  | eq => "EQ"
  | notEq => "NOT_EQ"
  | or => "OR"
  | and => "AND"
  | addAssign => "ADD_ASSIGN"
  | subAssign => "SUB_ASSIGN"
  | mulAssign => "MUL_ASSIGN"
  | quoAssign => "QUO_ASSIGN"
  | remAssign => "REM_ASSIGN"
  | comma => "COMMA"
  | semicolon => "SEMICOLON"
  | colon => "COLON"
  | period => "PERIOD"
  | arrow => "ARROW"
  | define => "DEFINE"
  | lparen => "LPAREN"
  | rparen => "RPAREN"
  | lbrace => "LBRACE"
  | rbrace => "RBRACE"
  | lbrack => "LBRACK"
  | rbrack => "RBRACK"
  | kwInt => "KW_INT"
  | kwBool => "KW_BOOL"
  | kwString => "KW_STRING"
  | kwFloat => "KW_FLOAT"
  | kwFn => "FUNCTION"
  | kwConst => "CONST"
  | kwStruct => "STRUCT"
  | kwTrue => "TRUE"
  | kwFalse => "FALSE"
  | kwIf => "IF"
  | kwElse => "ELSE"
  | kwReturn => "RETURN"
  | kwNull => "NULL"

/-- How a kind is spelled.  Kinds whose texts vary are spelled by their name. -/
def spelling : Kind → String
  | assign => "="
  | plus => "+"
  | minus => "-"
  | bang => "!"
  | asterisk => "*"
  | slash => "/"
  | modulus => "%"
  | bitAnd => "&"
  | bitOr => "|"
  | lt => "<"
  | gt => ">"
  | ltEq => "<="
  | gtEq => ">="
  | eq => "=="
  | notEq => "!="
  | or => "||"
  | and => "&&"
  | addAssign => "+="
  | subAssign => "-="
  | mulAssign => "*="
  | quoAssign => "/="
  | remAssign => "%="
  | comma => ","
  | semicolon => ";"
  | colon => ":"
  | period => "."
  | arrow => "->"
  | define => ":="
  | lparen => "("
  | rparen => ")"
  | lbrace => "\x7b"
  | rbrace => "\x7d"
  | lbrack => "["
  | rbrack => "]"
  | kwInt => "int"
  | kwBool => "bool"
  | kwString => "string"
  | kwFloat => "float"
  | kwFn => "fn"
  | kwConst => "const"
  | kwStruct => "struct"
  | kwTrue => "true"
  | kwFalse => "false"
  | kwIf => "if"
  | kwElse => "else"
  | kwReturn => "return"
  | kwNull => "null"
  | kind => kind.name

/-- The kind listed under `name`. -/
def ofName? (name : String) : Option Kind :=
  all.find? fun kind => kind.name == name

/-- The reserved words. -/
def keywords : List Kind :=
  [kwFn, kwTrue, kwFalse, kwIf, kwElse, kwReturn, kwConst, kwNull, kwStruct, kwInt, kwBool, kwString,
    kwFloat]

/-- The kind of a word: a keyword if it is reserved, else an identifier. -/
def ofWord (word : String) : Kind :=
  (keywords.find? fun kind => kind.spelling == word).getD ident

/-- A keyword that names a type: it may start a declaration and annotate parameters and results. -/
def isType : Kind → Bool
  | kwInt | kwBool | kwString => true
  | _ => false

/-- A token that may follow a complete statement. -/
def isTerminator : Kind → Bool
  | semicolon | endOfLine | eof | rbrace => true
  | _ => false

/-- An opening bracket of any shape. -/
def isOpener : Kind → Bool
  | lparen | lbrack | lbrace => true
  | _ => false

/-- A closing bracket of any shape. -/
def isCloser : Kind → Bool
  | rparen | rbrack | rbrace => true
  | _ => false

end Kind

/-- **One token.** -/
structure Token where
  /-- What it is. -/
  kind : Kind
  /-- How it was written; for a string, what stands between the quotes. -/
  text : String
  /-- The number of its line. -/
  line : Int := 0
  /-- How many characters of the line stand before it. -/
  col : Nat := 0
  deriving DecidableEq, Repr

namespace Token

/-- Whether a token is of a kind. -/
def is (t : Token) (kind : Kind) : Bool :=
  t.kind == kind

/-- The form in which a token is listed. -/
def listing (t : Token) : String :=
  "Token(" ++ t.kind.name ++ ", " ++ Text.quote t.text ++ ", " ++ toString t.line ++ ":"
    ++ toString t.col ++ ")"

/-- How a token is referred to in a message. -/
def description (t : Token) : String :=
  match t.kind with
  | .eof => "end of input"
  | .endOfLine => "end of line"
  | _ => "'" ++ t.text ++ "'"

end Token

end LimLang
