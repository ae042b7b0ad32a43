import LimLang.Lexeme
import LimLang.MachineInt
import LimLang.Tree

/-! # Well-formed trees

The type of trees admits more than the grammar does.  A tree is *well-formed* if everything in it
stands in a place for things of its kind: expressions where a value is needed, blocks as bodies and
nowhere else, links of a chain of branches where a chain goes on.  Which names, literals and
operators may be used is a matter of its own, the tree's *vocabulary*: rendering needs the
vocabulary of the language, evaluation is at ease with any.
-/
namespace LimLang

/-- **What the leaves of a tree may say.** -/
structure Vocabulary where
  /-- Names of variables. -/
  varName : Ident → Prop
  /-- Parameters. -/
  parameter : Ident → Prop
  /-- Names of functions. -/
  functionName : String → Prop
  /-- Types of results. -/
  result : Option String → Prop
  /-- Integer literals. -/
  int : Int → Prop
  /-- String literals. -/
  string : String → Prop
  /-- Operators in front of their operand. -/
  leading : String → Prop
  /-- Operators between their operands. -/
  between : String → Prop
  /-- Types of the elements of declared arrays. -/
  element : String → Prop

namespace Vocabulary

/-- A word that is not reserved. -/
def IsName (name : String) : Prop :=
  ∃ c cs, name = String.ofList (c :: cs) ∧ Lexeme.isLetter c ∧ cs.all Lexeme.isWordChar ∧
    Kind.ofWord name = .ident

/-- The names of types: those of variables, and those of arrays of them. -/
def IsTypeName (type : String) : Prop :=
  ∃ basic : BasicType, type = basic.spelling ∨ type = basic.spelling ++ " []"

/-- **The vocabulary of the language.** -/
def standard : Vocabulary where
  varName i := IsName i.name ∧ i.typeName = none
  parameter i := IsName i.name ∧ ∃ type, i.typeName = some type ∧ IsTypeName type
  functionName := IsName
  result result := ∀ type ∈ result, IsTypeName type
  int n := 0 ≤ n ∧ n < MachineInt.bound
  string s := '\x22' ∉ s.toList
  leading op := op ∈ ["!", "-", "+"]
  between op := op ∈ ["==", "!=", "<", ">", "<=", ">=", "+", "-", "*", "/", "%"]
  element kind := ∃ basic : BasicType, kind = basic.spelling

end Vocabulary

/-- The places in a tree. -/
inductive Place where
  /-- Where a value is needed. -/
  | expression
  /-- Among the statements of a program or a block. -/
  | statement
  /-- Where a chain of branches starts. -/
  | chain
  /-- Where a chain of branches goes on. -/
  | link
  /-- The body of a function or a branch. -/
  | body
  /-- The whole. -/
  | program
  deriving DecidableEq

/-- **The trees that fit in a place**, over a vocabulary. -/
inductive Node.Fits (V : Vocabulary) : Place → Node → Prop
  | ident {name : Ident} (hn : V.varName name) : Fits V .expression (.ident name)
  | int {t : Token} {n : Int} (hn : V.int n) : Fits V .expression (.int t n)
  | bool {t : Token} {b : Bool} : Fits V .expression (.bool t b)
  | string {t : Token} {s : String} (hs : V.string s) : Fits V .expression (.string t s)
  | null {t : Token} : Fits V .expression (.null t)
  | array {t : Token} {elements : List Node} (h : ∀ e ∈ elements, Fits V .expression e) :
      Fits V .expression (.array t elements)
  | unary {t : Token} {operator : String} {right : Node} (ho : V.leading operator)
      (h : Fits V .expression right) : Fits V .expression (.unary t operator right)
  | binary {t : Token} {operator : String} {left right : Node} (ho : V.between operator)
      (hl : Fits V .expression left) (hr : Fits V .expression right) :
      Fits V .expression (.binary t left operator right)
  | call {t : Token} {callee : Node} {arguments : List Node} (hf : Fits V .expression callee)
      (h : ∀ e ∈ arguments, Fits V .expression e) : Fits V .expression (.call t callee arguments)
  | index {t : Token} {left place : Node} (hl : Fits V .expression left)
      (hp : Fits V .expression place) : Fits V .expression (.index t left place)
  | declare {t : Token} {type : BasicType} {name : Ident} {value : Node} (hn : V.varName name)
      (h : Fits V .expression value) : Fits V .statement (.declare t type name value)
  | declareArray {t : Token} {kind : String} {name : Ident} {value : Node} (hk : V.element kind)
      (hn : V.varName name) (h : Fits V .expression value) :
      Fits V .statement (.declareArray t kind name value)
  | bareReturn {t : Token} : Fits V .statement (.bareReturn t)
  | returnValue {t : Token} {value : Node} (h : Fits V .expression value) :
      Fits V .statement (.returnValue t value)
  | expression {t : Token} {value : Node} (h : Fits V .expression value) :
      Fits V .statement (.expression t value)
  | function {t : Token} {name : String} {parameters : List Ident} {result : Option String}
      {body : Node} (hn : V.functionName name) (hp : ∀ i ∈ parameters, V.parameter i)
      (hr : V.result result) (h : Fits V .body body) :
      Fits V .statement (.function t name parameters result body)
  | branches {node : Node} (h : Fits V .chain node) : Fits V .statement node
  | ifThen {t : Token} {condition body : Node} (hc : Fits V .expression condition)
      (hb : Fits V .body body) : Fits V .chain (.ifThen t condition body)
  | ifElse {t : Token} {condition body next : Node} (hc : Fits V .expression condition)
      (hb : Fits V .body body) (hn : Fits V .link next) :
      Fits V .chain (.ifElse t condition body next)
  /-- Only the last link may lack a condition. -/
  | otherwise {t : Token} {body : Node} (hb : Fits V .body body) :
      Fits V .link (.otherwise t body)
  | elseIf {node : Node} (h : Fits V .chain node) : Fits V .link node
  | block {t : Token} {statements : List Node} (h : ∀ s ∈ statements, Fits V .statement s) :
      Fits V .body (.block t statements)
  | program {statements : List Node} (h : ∀ s ∈ statements, Fits V .statement s) :
      Fits V .program (.program statements)

end LimLang
