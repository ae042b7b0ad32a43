import LimLang.Tree

/-! # Rendering trees as source text

A rendered tree is source text again.  Unary, binary and index expressions are fully parenthesised,
strings are quoted as they were, and blocks span several lines, so that no two trees of the grammar
that differ in more than their tokens are rendered alike.

A chain of branches can only be rendered if each of its links is one; `Node.misplaced?` finds the first
thing that stands in the place of a link and is none.
-/
namespace LimLang

namespace Ident

/-- A name with its declared type, as in a list of parameters. -/
def declaration (i : Ident) : String :=
  match i.typeName with
  | none => i.name
  | some type => if ['[', ']'].isSuffixOf type.toList then type ++ i.name else type ++ " " ++ i.name

/-- A list of parameters. -/
def declarations (parameters : List Ident) : String :=
  ", ".intercalate (parameters.map declaration)

end Ident

namespace Node

/-- The type of a function's result, with a blank in front. -/
def resultText : Option String → String
  | some type => if type = "" then "" else " " ++ type
  | none => ""

/-- The head of a function's definition. -/
def signature (name : String) (parameters : List Ident) (result : Option String) : String :=
  "fn " ++ name ++ "(" ++ Ident.declarations parameters ++ ")" ++ resultText result

/-- How a declaration starts. -/
def declarationHead : DeclarationForm → String
  | .untyped => "None "
  | .typed type => type.spelling ++ " "
  | .array kind => kind ++ " []"

/-- A node of class `label` in a list, given its source text.  Data and lists stand for themselves. -/
def listed (node : Node) (text : String) : String :=
  match node with
  | datum d => d.display
  | listing _ => text
  | _ => node.label ++ "(" ++ Text.quote text ++ ")"

mutual

/-- **The source text of a tree.** -/
def render : Node → String
  | program statements => "\n".intercalate (renderAll statements)
  | ident name => name.name
  | int _ value => toString value
  | bool _ value => if value then "true" else "false"
  | string _ value => "\x22" ++ value ++ "\x22"
  | null _ => "null"
  | array _ elements => "[" ++ ", ".intercalate (renderAll elements) ++ "]"
  | unary _ operator right => "(" ++ operator ++ right.render ++ ")"
  | binary _ left operator right =>
      "(" ++ left.render ++ " " ++ operator ++ " " ++ right.render ++ ")"
  | call _ callee arguments =>
      callee.render ++ "(" ++ ", ".intercalate (renderAll arguments) ++ ")"
  | index _ left place => "(" ++ left.render ++ "[" ++ place.render ++ "])"
  | declare _ type name value => type.spelling ++ " " ++ name.name ++ " = " ++ value.render
  | declareArray _ kind name value => kind ++ " []" ++ name.name ++ " = " ++ value.render
  | declareLoose _ form name value =>
      declarationHead form ++ name.render ++ " = " ++ value.render
  | bareReturn _ => "return"
  | returnValue _ value => "return " ++ value.render
  | expression _ value => value.render
  | block _ statements =>
      "\x7b\n" ++ String.join ((renderAll statements).map (· ++ "\n")) ++ "\x7d"
  | ifThen _ condition body => "if " ++ condition.render ++ " " ++ body.render
  | ifElse _ condition body next =>
      "if " ++ condition.render ++ " " ++ body.render ++ " "
        ++ (if next.hasCondition then "else " else "") ++ next.render
  | otherwise _ body => "else " ++ body.render
  | otherwiseElse _ body next =>
      "else " ++ body.render ++ " " ++ (if next.hasCondition then "else " else "") ++ next.render
  | function _ name parameters result body =>
      signature name parameters result ++ " " ++ body.render
  | datum d => d.render
  | listing items => "[" ++ ", ".intercalate (listedAll items) ++ "]"

/-- The source texts of several trees. -/
def renderAll : List Node → List String
  | [] => []
  | node :: nodes => node.render :: renderAll nodes

/-- Several trees, as the items of a list. -/
def listedAll : List Node → List String
  | [] => []
  | node :: nodes => node.listed node.render :: listedAll nodes

end

theorem renderAll_eq_map (nodes : List Node) : renderAll nodes = nodes.map render := by
  induction nodes with
  | nil => rfl
  | cons node nodes ih => rw [renderAll, ih, List.map_cons]

theorem render_program (statements : List Node) :
    (program statements).render = "\n".intercalate (statements.map render) := by
  rw [render, renderAll_eq_map]

/-- The class of a node with its source text. -/
def summary (node : Node) : String :=
  node.listed node.render

/-- Whether a node is a link of a chain of branches. -/
def isLink : Node → Bool
  | ifThen _ _ _ | ifElse _ _ _ _ | otherwise _ _ | otherwiseElse _ _ _ => true
  | _ => false

mutual

/-- The class of the first thing that stands in the place of a link of a chain and is none. -/
def misplaced? : Node → Option String
  | program statements => misplacedIn? statements
  | array _ elements => misplacedIn? elements
  | unary _ _ right => right.misplaced?
  | binary _ left _ right => left.misplaced? <|> right.misplaced?
  | call _ callee arguments => callee.misplaced? <|> misplacedIn? arguments
  | index _ left place => left.misplaced? <|> place.misplaced?
  | declare _ _ _ value => value.misplaced?
  | declareArray _ _ _ value => value.misplaced?
  | declareLoose _ _ name value => name.misplaced? <|> value.misplaced?
  | returnValue _ value => value.misplaced?
  | expression _ value => value.misplaced?
  | block _ statements => misplacedIn? statements
  | ifThen _ condition body => condition.misplaced? <|> body.misplaced?
  | ifElse _ condition body next =>
      condition.misplaced? <|> body.misplaced?
        <|> if next.isLink then next.misplaced? else some next.label
  | otherwise _ body => body.misplaced?
  | otherwiseElse _ body next =>
      body.misplaced? <|> if next.isLink then next.misplaced? else some next.label
  | function _ _ _ _ body => body.misplaced?
  | listing items => misplacedIn? items
  | ident _ | int _ _ | bool _ _ | string _ _ | null _ | bareReturn _ | datum _ => none

/-- The class of the first such thing in several trees. -/
def misplacedIn? : List Node → Option String
  | [] => none
  | node :: nodes => node.misplaced? <|> misplacedIn? nodes

end

end Node

end LimLang
