import LimLang.Parse.Expression

/-! # Parsing statements

A statement is recognised by its first token.  Declarations, returns and expressions must be followed
by something that may end a statement; a chain of branches and a function end with their last brace.

As with expressions, the parsers take those of nested expressions and statements as arguments, and
`Parse.statement` ties the knot.
-/
namespace LimLang

/-- The type of a variable whose value starts with a token of this kind. -/
def BasicType.ofLeading? : Kind → Option BasicType
  | .int | .minus | .plus => some .int
  | .kwTrue | .kwFalse | .bang => some .bool
  | .string => some .string
  | _ => none

/-- The node that stands at the left end of an expression, below operators, calls and indices. -/
def Node.leftmost : Node → Node
  | .binary _ left _ _ => left.leftmost
  | .index _ left _ => left.leftmost
  | .call _ callee _ => callee.leftmost
  | node => node

/-- The type of the elements of an array, judged by the first one. -/
def BasicType.ofElements : List Node → BasicType
  | [] => .int
  | first :: _ => (BasicType.ofLeading? first.leftmost.token.kind).getD .int

/-- A token that closes the list of a block's statements. -/
def Kind.closesBlock : Kind → Bool
  | .rbrace | .eof => true
  | _ => false

/-- A token that closes the list of a program's statements. -/
def Kind.closesProgram : Kind → Bool
  | .eof => true
  | _ => false

namespace Parse

/-- The name of a variable, after its type. -/
def declaredName : Parse Ident := do
  let token ← expectNamed .ident "a variable name"
  return { token, name := token.text }

/-- The value that a declaration gives, or `zero` if it gives none. -/
def initializer (expression : Parse Node) (zero : Node) : Parse Node := do
  if ← atEnd then return zero
  else
    let _ ← expect .assign
    advance
    expression

/-- The declaration of a variable; its type is current. -/
def declaration (expression : Parse Node) (type : BasicType) : Parse Node := do
  let token ← current
  let name ← declaredName
  return .declare token type name (← initializer expression (.zero type))

/-- The declaration of an array; the type of its elements is current. -/
def arrayDeclaration (expression : Parse Node) : Parse Node := do
  let token ← current
  let _ ← expect .lbrack
  let _ ← expect .rbrack
  let name ← declaredName
  return .declareArray token token.text name (← initializer expression .emptyArray)

/-- A declaration by value: the type is judged by the first token of the value.  The name is
current. -/
def definition (expression : Parse Node) : Parse Node := do
  let token ← current
  let name : Ident := { token, name := token.text }
  advance
  let define ← current
  advance
  let leading ← current
  let keyword (type : BasicType) : Token :=
    { kind := type.kind, text := type.spelling, line := define.line, col := define.col }
  if leading.is .lbrack then
    match ← expression with
    | .array opener elements =>
        let type := BasicType.ofElements elements
        return .declareArray (keyword type) type.spelling name (.array opener elements)
    | _ => reject (.cannotInfer token.text leading) leading
  else
    match BasicType.ofLeading? leading.kind with
    | some type => return .declare (keyword type) type name (← expression)
    | none => reject (.cannotInfer token.text leading) leading

/-- A return; the keyword is current. -/
def returnStatement (expression : Parse Node) : Parse Node := do
  let token ← current
  if ← atEnd then return .bareReturn token
  else
    advance
    return .returnValue token (← expression)

/-- An expression that stands as a statement. -/
def expressionStatement (expression : Parse Node) : Parse Node := do
  let token ← current
  return .expression token (← expression)

/-- The end of a statement that does not end with a brace.  A semicolon is taken in. -/
def endStatement : Parse Unit := do
  let token ← peek
  if token.is .semicolon then advance
  else if !token.kind.isTerminator then reject (.endOfStatement token) token

/-- The statements up to a token that closes their list, at most `bound` of them.  A malformed one is
skipped; it may have been skipped up to the token that closes the list. -/
def statements (closes : Kind → Bool) (statement : Parse (Option Node)) :
    Nat → Parser Crash (List Node)
  | 0 => return []
  | bound + 1 => do
      if closes (← current).kind then return []
      else
        match ← recovering statement with
        | some node =>
            advance
            let nodes ← statements closes statement bound
            return node :: nodes
        | none =>
            if closes (← current).kind then return []
            else
              advance
              statements closes statement bound

/-- A block, from its opening brace, which is current, to the closing one.  Groups opened outside do
not reach into it. -/
def block (statement : Parse (Option Node)) : Parse Node := do
  let token ← current
  let groups := (← get).groups
  move fun c => { c with groups := 0 }
  advance
  let nodes ← liftCrash (statements Kind.closesBlock statement ((← remaining) + 2))
  move fun c => { c with groups := groups }
  let last ← current
  if last.is .eof then reject .unclosedBlock last
  else return .block token nodes

/-- A chain of at most `bound` branches; the keyword of the first is current. -/
def branches (expression : Parse Node) (statement : Parse (Option Node)) : Nat → Parse Node
  | 0 => throw (.crash .tooDeep)
  | bound + 1 => do
      let token ← current
      advance
      let condition ← expression
      let _ ← expect .lbrace
      let body ← block statement
      if ← peekIs .kwElse then
        advance
        let otherwise ← current
        let next ← peek
        if next.is .lbrace then
          advance
          return .ifElse token condition body (.otherwise otherwise (← block statement))
        else if next.is .kwIf then
          advance
          return .ifElse token condition body (← branches expression statement bound)
        else reject (.elseBranch next) next
      else return .ifThen token condition body

/-- A type: its keyword is current, and brackets may follow. -/
def typeName : Parse String := do
  let token ← current
  if ← peekIs .lbrack then
    advance
    let _ ← expect .rbrack
    return token.text ++ " []"
  else return token.text

/-- The parameters after an opening parenthesis or a comma, at most `bound` of them. -/
def laterParameters : Nat → Parse (List Ident)
  | 0 => return []
  | bound + 1 => do
      advance
      let first ← current
      if first.kind.isType then
        let type ← typeName
        let token ← expectNamed .ident "a parameter name"
        let parameter : Ident := { token, name := token.text, typeName := some type }
        if ← peekIs .comma then
          advance
          let parameters ← laterParameters bound
          return parameter :: parameters
        else return [parameter]
      else reject (.parameterType first) first

/-- The parameters of a function, from the opening parenthesis, which is current, to the closing
one. -/
def parameters : Parse (List Ident) := do
  move Cursor.openGroup
  if ← peekIs .rparen then
    move Cursor.closeGroup
    advance
    return []
  else
    let parameters ← laterParameters ((← remaining) + 1)
    move Cursor.closeGroup
    let _ ← expect .rparen
    return parameters

/-- The type of a function's result, if it has one. -/
def resultType : Parse (Option String) := do
  if ← peekIs .arrow then
    advance
    let token ← peek
    if !token.kind.isType then reject (.resultType token) token
  if (← peek).kind.isType then
    advance
    return some (← typeName)
  else return none

/-- The definition of a function; the keyword is current. -/
def function (statement : Parse (Option Node)) : Parse Node := do
  let token ← current
  let name ← expectNamed .ident "a function name"
  let _ ← expect .lparen
  let parameters ← parameters
  let result ← resultType
  let _ ← expect .lbrace
  return .function token name.text parameters result (← block statement)

/-- A statement that must be followed by its end. -/
def simple (statement : Parse Node) : Parse (Option Node) := do
  let node ← statement
  endStatement
  return some node

/-- One statement, given the parsers of what is nested in it.  An empty statement has no result. -/
def statementWith (expression : Parse Node) (statement : Parse (Option Node)) :
    Parse (Option Node) := do
  let token ← current
  match token.kind with
  | .illegal => throw .malformed
  | .semicolon => return none
  | .kwFloat | .kwConst | .kwStruct => reject (.unsupported token.kind) token
  | .kwFn => return some (← function statement)
  | .kwIf => return some (← branches expression statement ((← remaining) + 1))
  | .kwReturn => simple (returnStatement expression)
  | kind =>
      match BasicType.ofKind? kind with
      | some type =>
          if ← peekIs .lbrack then simple (arrayDeclaration expression)
          else simple (declaration expression type)
      | none =>
          if kind == .ident && (← peekIs .define) then simple (definition expression)
          else simple (expressionStatement expression)

/-- **A statement**, nested at most `depth` deep. -/
def statement (maxDigits : Nat) : Nat → Parse (Option Node)
  | 0 => throw (.crash .tooDeep)
  | depth + 1 =>
      statementWith (expression maxDigits depth Precedence.lowest) (statement maxDigits depth)

end Parse

end LimLang
