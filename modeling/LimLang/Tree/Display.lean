import LimLang.Tree

/-! # Displaying trees

Besides its source text a tree has a *display*, in which every node is shown by its class and fields,
one field a line and indented by depth, and a *walk*, the list of its nodes from the root on, each
before its children, with their classes and tokens.
-/
namespace LimLang

namespace Node

/-- The indentation of a depth.  There is none below zero. -/
def indentation (depth : Int) : String :=
  String.join (List.replicate depth.toNat "    ")

/-- A node of class `label` at a depth, with its fields already shown.  The indentation of the first
line is left out. -/
def displayFields (depth : Int) (label : String) (fields : List (String × String)) : String :=
  label ++ "("
    ++ String.join (fields.map fun (name, value) =>
      "\n" ++ indentation depth ++ "    " ++ name ++ "=" ++ value ++ ",")
    ++ (if fields.isEmpty then ")" else "\n" ++ indentation depth ++ ")")

/-- A list of nodes, each already shown, as a field of a node at a depth. -/
def displayItems (depth : Int) (items : List String) : String :=
  if items.isEmpty then "[]"
  else
    "[" ++ String.join (items.map fun item => "\n" ++ indentation (depth + 2) ++ item ++ ",")
      ++ "\n" ++ indentation depth ++ "    ]"

/-- An optional text, quoted. -/
def displayText? : Option String → String
  | some s => Text.quote s
  | none => "None"

/-- A name, as a node at a depth. -/
def displayIdent (depth : Int) (i : Ident) : String :=
  displayFields depth "Identifier"
    [("value", Text.quote i.name), ("type_name", displayText? i.typeName)]

mutual

/-- The display of a node at a depth, without the indentation of its first line. -/
def displayBody (depth : Int) : Node → String
  | program statements =>
      displayFields depth "Program"
        [("statements", displayItems depth (displayAll (depth + 2) statements))]
  | ident name => displayIdent depth name
  | int _ value => displayFields depth "IntegerLiteral" [("value", toString value)]
  | bool _ value =>
      displayFields depth "Boolean" [("value", if value then "True" else "False")]
  | string _ value => displayFields depth "StringVal" [("value", Text.quote value)]
  | null _ => displayFields depth "NullLiteral" []
  | array _ elements =>
      displayFields depth "ArrayLiteral"
        [("elements", displayItems depth (displayAll (depth + 2) elements))]
  | unary _ operator right =>
      displayFields depth "PrefixExpression"
        [("operator", Text.quote operator), ("right", right.displayBody (depth + 1))]
  | binary _ left operator right =>
      displayFields depth "InfixExpression"
        [("left", left.displayBody (depth + 1)), ("operator", Text.quote operator),
          ("right", right.displayBody (depth + 1))]
  | call _ callee arguments =>
      displayFields depth "CallExpression"
        [("function", callee.displayBody (depth + 1)),
          ("arguments", displayItems depth (displayAll (depth + 2) arguments))]
  | index _ left place =>
      displayFields depth "IndexExpression"
        [("left", left.displayBody (depth + 1)), ("index", place.displayBody (depth + 1))]
  | declare token type name value =>
      displayFields depth (declare token type name value).label
        [("name", displayIdent (depth + 1) name), ("value", value.displayBody (depth + 1))]
  | declareArray _ kind name value =>
      displayFields depth "ArrayStatement"
        [("kind", Text.quote kind), ("name", displayIdent (depth + 1) name),
          ("value", value.displayBody (depth + 1))]
  | declareLoose token (.array kind) name value =>
      displayFields depth (declareLoose token (.array kind) name value).label
        [("kind", Text.quote kind), ("name", name.displayBody (depth + 1)),
          ("value", value.displayBody (depth + 1))]
  | declareLoose token form name value =>
      displayFields depth (declareLoose token form name value).label
        [("name", name.displayBody (depth + 1)), ("value", value.displayBody (depth + 1))]
  | bareReturn _ => displayFields depth "ReturnStatement" [("return_value", "None")]
  | returnValue _ value =>
      displayFields depth "ReturnStatement" [("return_value", value.displayBody (depth + 1))]
  | expression _ value =>
      displayFields depth "ExpressionStatement" [("expression", value.displayBody (depth + 1))]
  | block _ statements =>
      displayFields depth "BlockStatement"
        [("statements", displayItems depth (displayAll (depth + 2) statements))]
  | ifThen _ condition body =>
      displayFields depth "IfStatement"
        [("condition", condition.displayBody (depth + 1)),
          ("consequence", body.displayBody (depth + 1)), ("next_case", "None")]
  | ifElse _ condition body next =>
      displayFields depth "IfStatement"
        [("condition", condition.displayBody (depth + 1)),
          ("consequence", body.displayBody (depth + 1)), ("next_case", next.displayBody (depth + 1))]
  | otherwise _ body =>
      displayFields depth "IfStatement"
        [("condition", "None"), ("consequence", body.displayBody (depth + 1)), ("next_case", "None")]
  | otherwiseElse _ body next =>
      displayFields depth "IfStatement"
        [("condition", "None"), ("consequence", body.displayBody (depth + 1)),
          ("next_case", next.displayBody (depth + 1))]
  | function _ name parameters result body =>
      displayFields depth "FunctionStatement"
        [("name", Text.quote name),
          ("parameters", displayItems depth (parameters.map (displayIdent (depth + 2)))),
          ("return_type", displayText? result), ("body", body.displayBody (depth + 1))]
  | datum d => d.display
  | listing items => displayItems (depth - 1) (displayAll (depth + 1) items)

/-- The displays of several nodes at a depth. -/
def displayAll (depth : Int) : List Node → List String
  | [] => []
  | node :: nodes => node.displayBody depth :: displayAll depth nodes

end

/-- **The display of a tree** at a depth. -/
def display (node : Node) (depth : Int) : String :=
  indentation depth ++ node.displayBody depth

/-- Whether something is no node. -/
def isForeign : Node → Bool
  | datum _ | listing _ => true
  | _ => false

mutual

/-- The class of the first item of a list in a tree that is no node.  Such a tree has no display. -/
def foreignItem? : Node → Option String
  | program statements => foreignIn? statements
  | array _ elements => foreignIn? elements
  | unary _ _ right => right.foreignItem?
  | binary _ left _ right => left.foreignItem? <|> right.foreignItem?
  | call _ callee arguments => callee.foreignItem? <|> foreignIn? arguments
  | index _ left place => left.foreignItem? <|> place.foreignItem?
  | declare _ _ _ value => value.foreignItem?
  | declareArray _ _ _ value => value.foreignItem?
  | declareLoose _ _ name value => name.foreignItem? <|> value.foreignItem?
  | returnValue _ value => value.foreignItem?
  | expression _ value => value.foreignItem?
  | block _ statements => foreignIn? statements
  | ifThen _ condition body => condition.foreignItem? <|> body.foreignItem?
  | ifElse _ condition body next =>
      condition.foreignItem? <|> body.foreignItem? <|> next.foreignItem?
  | otherwise _ body => body.foreignItem?
  | otherwiseElse _ body next => body.foreignItem? <|> next.foreignItem?
  | function _ _ _ _ body => body.foreignItem?
  | listing items => foreignIn? items
  | ident _ | int _ _ | bool _ _ | string _ _ | null _ | bareReturn _ | datum _ => none

/-- The class of the first item of a list that is no node, or has such an item in turn. -/
def foreignIn? : List Node → Option String
  | [] => none
  | node :: nodes =>
      (if node.isForeign then some node.label else node.foreignItem?) <|> foreignIn? nodes

end

/-- A name in a walk. -/
def identStop (i : Ident) : String × Token :=
  ("Identifier", i.token)

mutual

/-- **The nodes of a tree**, each before its children. -/
def walk : Node → List (String × Token)
  | program statements => ("Program", { kind := .eof, text := "" }) :: walkAll statements
  | ident name => [identStop name]
  | int token _ => [("IntegerLiteral", token)]
  | bool token _ => [("Boolean", token)]
  | string token _ => [("StringVal", token)]
  | null token => [("NullLiteral", token)]
  | array token elements => ("ArrayLiteral", token) :: walkAll elements
  | unary token _ right => ("PrefixExpression", token) :: right.walk
  | binary token left _ right => ("InfixExpression", token) :: left.walk ++ right.walk
  | call token callee arguments =>
      ("CallExpression", token) :: callee.walk ++ walkAll arguments
  | index token left place => ("IndexExpression", token) :: left.walk ++ place.walk
  | declare token type name value =>
      ((declare token type name value).label, token) :: identStop name :: value.walk
  | declareArray token _ name value => ("ArrayStatement", token) :: identStop name :: value.walk
  | declareLoose token form name value =>
      ((declareLoose token form name value).label, token) :: name.walk ++ value.walk
  | bareReturn token => [("ReturnStatement", token)]
  | returnValue token value => ("ReturnStatement", token) :: value.walk
  | expression token value => ("ExpressionStatement", token) :: value.walk
  | block token statements => ("BlockStatement", token) :: walkAll statements
  | ifThen token condition body => ("IfStatement", token) :: condition.walk ++ body.walk
  | ifElse token condition body next =>
      ("IfStatement", token) :: condition.walk ++ body.walk ++ next.walk
  | otherwise token body => ("IfStatement", token) :: body.walk
  | otherwiseElse token body next => ("IfStatement", token) :: body.walk ++ next.walk
  | function token _ parameters _ body =>
      ("FunctionStatement", token) :: parameters.map identStop ++ body.walk
  | datum _ => []
  | listing items => walkAll items

/-- The nodes of several trees. -/
def walkAll : List Node → List (String × Token)
  | [] => []
  | node :: nodes => node.walk ++ walkAll nodes

end

end Node

end LimLang
