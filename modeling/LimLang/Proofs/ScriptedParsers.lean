import LimLang.Proofs.Concatenation
import LimLang.Proofs.Scripts
import LimLang.Proofs.TandemParsers

/-! # Every parser has a script

Parser by parser, from a look at the next token to a whole program.  A script has the lines of the
parser it is about, and Lean checks it against that parser.  As in their definitions, the parsers of
nested expressions and statements are arguments, here together with their scripts, and the knots are
tied last.

Expressions and the heads of statements leave as many groups open as they find, however many these are
(`Script.Level`): the parsers that open a group (`items`, `grouped` and `parameters`) close it on every
way on which the statement is not given up.  Statements and blocks are parsed with no group open.

So a text is parsed by operations (`Source.operations`) that are in order, and after any number of them
the position (`Source.position`) is as it should be.
-/
namespace LimLang

namespace Script

/-- **A script of a parser that leaves as many groups open as it finds**, for any number of them. -/
abbrev Level {ε α : Type} (x : Parser ε α) : Type 1 :=
  ∀ n, Script n n x

variable {ε α : Type} {n m : Nat}

/-! ## Single steps -/

def current : Script n n (Parse.current : Parser ε Token) :=
  .look fun s => s.current

def peek : Script n n (Parse.peek : Parser ε Token) :=
  .look fun s => s.toCursor.peek

def peekIs (kind : Kind) : Script n n (Parse.peekIs kind : Parser ε Bool) :=
  .look fun s => s.toCursor.peek.is kind

def atEnd : Script n n (Parse.atEnd : Parser ε Bool) :=
  .look fun s => s.toCursor.peek.kind.isTerminator

def remaining : Script n n (Parse.remaining : Parser ε Nat) :=
  .look fun s => s.ahead.length

/-- Giving up may leave any number of groups open. -/
def reject (violation : Violation) (token : Token) :
    Script n m (Parse.reject violation token : Parse α) :=
  .ite
    (fun _ =>
      .bind (.record _) fun _ =>
      .throw _)
    fun _ => .throw _

def expectNamed (kind : Kind) (what : String) : Script n n (Parse.expectNamed kind what) :=
  .bind peek fun _ =>
  .ite
    (fun _ =>
      .bind .advance fun _ =>
      current)
    fun _ => reject _ _

def expect (kind : Kind) : Script n n (Parse.expect kind) :=
  expectNamed kind _

/-! ## Expressions -/

def integer (maxDigits : Nat) (token : Token) : Script n n (Parse.integer maxDigits token) :=
  .ite
    (fun _ =>
      .bind (k := n) (.throw _) fun _ =>
      .ite (fun _ => reject _ _) fun _ => .pure _)
    fun _ => .ite (fun _ => reject _ _) fun _ => .pure _

section
variable {ex : Parse Node} (script : Level ex)

def laterItems : ∀ bound, Script n n (Parse.laterItems ex bound)
  | 0 => .pure _
  | bound + 1 =>
      .bind (peekIs _) fun _ =>
      .ite
        (fun _ =>
          .bind .advance fun _ =>
          .bind .advance fun _ =>
          .bind (script n) fun _ =>
          .bind (laterItems bound) fun _ =>
          .pure _)
        fun _ => .pure _

def items (closer : Kind) : Script n n (Parse.items ex closer) :=
  .bind .openGroup fun _ =>
  .bind (peekIs _) fun _ =>
  .ite
    (fun _ =>
      .bind .closeGroup fun _ =>
      .bind .advance fun _ =>
      .pure _)
    fun _ =>
      .bind .advance fun _ =>
      .bind (script (n + 1)) fun _ =>
      .bind remaining fun _ =>
      .bind (laterItems script _) fun _ =>
      .bind .closeGroup fun _ =>
      .bind (expect _) fun _ =>
      .pure _

def grouped (closer : Kind) : Script n n (Parse.grouped ex closer) :=
  .bind .openGroup fun _ =>
  .bind .advance fun _ =>
  .bind (script (n + 1)) fun _ =>
  -- The group is closed in front of its bracket, so that a newline behind the bracket counts.
  .bind .closeGroup fun _ =>
  .bind (expect _) fun _ =>
  .pure _

end

section
variable {ex : Nat → Parse Node} (script : ∀ floor, Level (ex floor))

def operand (maxDigits : Nat) : Script n n (Parse.operand maxDigits ex) :=
  .bind current fun token => by
    induction token.kind using Kind.casesOn with
    | ident | string | kwTrue | kwFalse | kwNull => exact .pure _
    | int => exact integer _ _
    | bang | minus | plus =>
      exact
        .bind .advance fun _ =>
        .bind (script _ n) fun _ =>
        .pure _
    | lparen => exact grouped (script _) _
    | lbrack =>
      exact
        .bind (items (script _) _) fun _ =>
        .pure _
    | _ => exact reject _ _

def continuation (left : Node) : Script n n (Parse.continuation ex left) :=
  .bind current fun token => by
    induction token.kind using Kind.casesOn with
    | lparen =>
      exact
        .bind (items (script _) _) fun _ =>
        .pure _
    | lbrack =>
      exact
        .bind (grouped (script _) _) fun _ =>
        .pure _
    | _ =>
      exact
        .bind .advance fun _ =>
        .bind (script _ n) fun _ =>
        .pure _

def climb (floor : Nat) : ∀ bound left, Script n n (Parse.climb ex floor bound left)
  | 0, _ => .pure _
  | bound + 1, _ =>
      .bind peek fun _ =>
      .ite
        (fun _ =>
          .bind .advance fun _ =>
          .bind (continuation script _) fun left =>
          climb floor bound left)
        fun _ => .pure _

end

/-- **Expressions** close the groups they open. -/
def expression (maxDigits : Nat) :
    ∀ depth floor, Level (Parse.expression maxDigits depth floor)
  | 0, _, _ => .throw _
  | depth + 1, _, _ =>
      .bind (operand (expression maxDigits depth) maxDigits) fun _ =>
      .bind remaining fun _ =>
      climb (expression maxDigits depth) _ _ _

/-! ## Simple statements -/

def declaredName : Script n n Parse.declaredName :=
  .bind (expectNamed _ _) fun _ =>
  .pure _

section
variable {ex : Parse Node} (script : Level ex)

def initializer (zero : Node) : Script n n (Parse.initializer ex zero) :=
  .bind atEnd fun _ =>
  .ite
    (fun _ => .pure _)
    fun _ =>
      .bind (expect _) fun _ =>
      .bind .advance fun _ =>
      script n

def declaration (type : BasicType) : Script n n (Parse.declaration ex type) :=
  .bind current fun _ =>
  .bind declaredName fun _ =>
  .bind (initializer script _) fun _ =>
  .pure _

def arrayDeclaration : Script n n (Parse.arrayDeclaration ex) :=
  .bind current fun _ =>
  .bind (expect _) fun _ =>
  .bind (expect _) fun _ =>
  .bind declaredName fun _ =>
  .bind (initializer script _) fun _ =>
  .pure _

def definition : Script n n (Parse.definition ex) :=
  .bind current fun _ =>
  .bind .advance fun _ =>
  .bind current fun _ =>
  .bind .advance fun _ =>
  .bind current fun leading =>
  .ite
    (fun _ =>
      .bind (script n) fun value => by
        induction value using Node.casesOn with
        | array => exact .pure _
        | _ => exact reject _ _)
    fun _ => by
      induction BasicType.ofLeading? leading.kind using Option.casesOn with
      | some type =>
        exact
          .bind (script n) fun _ =>
          .pure _
      | none => exact reject _ _

def returnStatement : Script n n (Parse.returnStatement ex) :=
  .bind current fun _ =>
  .bind atEnd fun _ =>
  .ite
    (fun _ => .pure _)
    fun _ =>
      .bind .advance fun _ =>
      .bind (script n) fun _ =>
      .pure _

def expressionStatement : Script n n (Parse.expressionStatement ex) :=
  .bind current fun _ =>
  .bind (script n) fun _ =>
  .pure _

end

def endStatement : Script n n Parse.endStatement :=
  .bind peek fun _ =>
  .ite
    (fun _ => .advance)
    fun _ => .ite (fun _ => reject _ _) fun _ => .pure _

def simple {x : Parse Node} (script : Script n n x) : Script n n (Parse.simple x) :=
  .bind script fun _ =>
  .bind endStatement fun _ =>
  .pure _

/-! ## Heads of functions -/

def typeName : Script n n Parse.typeName :=
  .bind current fun _ =>
  .bind (peekIs _) fun _ =>
  .ite
    (fun _ =>
      .bind .advance fun _ =>
      .bind (expect _) fun _ =>
      .pure _)
    fun _ => .pure _

def laterParameters : ∀ bound, Script n n (Parse.laterParameters bound)
  | 0 => .pure _
  | bound + 1 =>
      .bind .advance fun _ =>
      .bind current fun _ =>
      .ite
        (fun _ =>
          .bind typeName fun _ =>
          .bind (expectNamed _ _) fun _ =>
          .bind (peekIs _) fun _ =>
          .ite
            (fun _ =>
              .bind .advance fun _ =>
              .bind (laterParameters bound) fun _ =>
              .pure _)
            fun _ => .pure _)
        fun _ => reject _ _

def parameters : Script n n Parse.parameters :=
  .bind .openGroup fun _ =>
  .bind (peekIs _) fun _ =>
  .ite
    (fun _ =>
      .bind .closeGroup fun _ =>
      .bind .advance fun _ =>
      .pure _)
    fun _ =>
      .bind remaining fun _ =>
      .bind (laterParameters _) fun _ =>
      .bind .closeGroup fun _ =>
      .bind (expect _) fun _ =>
      .pure _

/-- The type behind an arrow, or where an arrow might be. -/
def resultName :
    Script n n (do
      if (← Parse.peek).kind.isType then
        Parse.advance
        return some (← Parse.typeName)
      else return none) :=
  .bind peek fun _ =>
  .ite
    (fun _ =>
      .bind .advance fun _ =>
      .bind typeName fun _ =>
      .pure _)
    fun _ => .pure _

def resultType : Script n n Parse.resultType :=
  .bind (peekIs _) fun _ =>
  .ite
    (fun _ =>
      .bind .advance fun _ =>
      .bind peek fun _ =>
      .ite
        (fun _ =>
          .bind (k := n) (reject _ _) fun _ =>
          resultName)
        fun _ => resultName)
    fun _ => resultName

/-! ## Lists of statements -/

section
variable {st : Parse (Option Node)} (nested : Script 0 0 st)

def statements (closes : Kind → Bool) : ∀ bound, Script 0 0 (Parse.statements closes st bound)
  | 0 => .pure _
  | bound + 1 =>
      .bind current fun _ =>
      .ite
        (fun _ => .pure _)
        fun _ =>
          .bind (.recovering nested) fun
            | some _ =>
                .bind .advance fun _ =>
                .bind (statements closes bound) fun _ =>
                .pure _
            | none =>
                .bind current fun _ =>
                .ite
                  (fun _ => .pure _)
                  fun _ =>
                    .bind .advance fun _ =>
                    statements closes bound

def block : Script 0 0 (Parse.block st) :=
  .bind current fun token =>
  .count (f := Tandem.blockFrom st token) <|
  .bind .ungroup fun _ =>
  .bind .advance fun _ =>
  .bind remaining fun _ =>
  .bind (.liftCrash (statements nested _ _)) fun _ =>
  -- Here the count is set to what it was in front of the block, which is none.
  .bind .ungroup fun _ =>
  .bind current fun _ =>
  .ite (fun _ => reject _ _) fun _ => .pure _

def branches {ex : Parse Node} (script : Level ex) : ∀ bound, Script 0 0 (Parse.branches ex st bound)
  | 0 => .throw _
  | bound + 1 =>
      .bind current fun _ =>
      .bind .advance fun _ =>
      .bind (script 0) fun _ =>
      .bind (expect _) fun _ =>
      .bind (block nested) fun _ =>
      .bind (peekIs _) fun _ =>
      .ite
        (fun _ =>
          .bind .advance fun _ =>
          .bind current fun _ =>
          .bind peek fun _ =>
          .ite
            (fun _ =>
              .bind .advance fun _ =>
              .bind (block nested) fun _ =>
              .pure _)
            fun _ =>
              .ite
                (fun _ =>
                  .bind .advance fun _ =>
                  .bind (branches script bound) fun _ =>
                  .pure _)
                fun _ => reject _ _)
        fun _ => .pure _

def function : Script 0 0 (Parse.function st) :=
  .bind current fun _ =>
  .bind (expectNamed _ _) fun _ =>
  .bind (expect _) fun _ =>
  .bind parameters fun _ =>
  .bind resultType fun _ =>
  .bind (expect _) fun _ =>
  .bind (block nested) fun _ =>
  .pure _

def statementWith {ex : Parse Node} (script : Level ex) : Script 0 0 (Parse.statementWith ex st) :=
  .bind current fun token => by
    induction token.kind using Kind.casesOn with
    | illegal => exact .throw _
    | semicolon => exact .pure _
    | kwFloat | kwConst | kwStruct => exact reject _ _
    | kwFn =>
      exact
        .bind (function nested) fun _ =>
        .pure _
    | kwIf =>
      exact
        .bind remaining fun _ =>
        .bind (branches nested script _) fun _ =>
        .pure _
    | kwReturn => exact simple (returnStatement script)
    | kwInt | kwBool | kwString =>
      exact
        .bind (peekIs _) fun _ =>
        .ite (fun _ => simple (arrayDeclaration script)) fun _ => simple (declaration script _)
    | _ =>
      exact
        .bind (peekIs _) fun _ =>
        .ite (fun _ => simple (definition script)) fun _ => simple (expressionStatement script)

end

/-- **Statements** are parsed outside of groups, and end there. -/
def statement (maxDigits : Nat) : ∀ depth, Script 0 0 (Parse.statement maxDigits depth)
  | 0 => .throw _
  | depth + 1 =>
      statementWith (statement maxDigits depth) (expression maxDigits depth Precedence.lowest)

/-- **The script of a program.** -/
def program (limits : Limits) : Script 0 0 (Parse.program limits) :=
  .bind remaining fun _ =>
  .bind (statements (statement _ _) _ _) fun _ =>
  .pure _

end Script

/-! ## Texts -/

namespace Source

variable (source : Source) (limits : Limits)

/-- **The operations by which a text is parsed.** -/
def operations : List Operation :=
  (Script.program limits).operations (Parse.initial source.tokens source.endToken)

/-- **The position after the first `k` of them.** -/
def position (k : Nat) : Position :=
  (Position.ofCursor (Cursor.ofTokens source.tokens source.endToken)).follow
    ((source.operations limits).take k)

/-- The operations of a text are those of the parser. -/
theorem performs_operations :
    Script.Performs (Parse.program limits) (Parse.initial source.tokens source.endToken)
      (source.operations limits) 0
      (Position.ofCursor (Cursor.ofTokens source.tokens source.endToken)) :=
  (Script.program limits).performs rfl (Cursor.advance_groups _)

/-- **Every position is as it should be.** -/
theorem steady_position (k : Nat) : (source.position limits k).Steady := by
  have hstart : (Position.ofCursor (Cursor.ofTokens source.tokens source.endToken)).Steady :=
    ⟨source.ready_initial, rfl⟩
  exact hstart.follow ((source.performs_operations limits).orderly.take k)

-- Two groups are open where the first statement is given up, and none where the second begins.
example : (List.range 9).map (fun k =>
    (Source.position { text := ['f', '(', '[', '\n', ';', '1'] } ⟨4, 4⟩ k).depth) =
      [0, 0, 0, 1, 1, 2, 2, 0, 0] := by decide

/-- **The cursor on its way through a text.**  The operations by which a text is parsed lead to where the
parser ends or crashes.  After any number of them the current token is no newline, and no group has
been closed that was not open; where a statement begins none is open; and as long as one is, no newline
is ahead. -/
theorem parse_keeps_count :
    Outcome (Parse.program limits) (Parse.initial source.tokens source.endToken)
        (fun _ t => t.toCursor = (source.position limits (source.operations limits).length).toCursor)
        (fun _ t => t.toCursor = (source.position limits (source.operations limits).length).toCursor) ∧
      ∀ k, (source.position limits k).current.kind ≠ .endOfLine ∧
        0 ≤ (source.position limits k).depth ∧
        ((source.operations limits)[k]? = some .statement → (source.position limits k).depth = 0) ∧
        (0 < (source.position limits k).depth →
          (source.position limits k).peek.kind ≠ .endOfLine) := by
  have hperforms := source.performs_operations limits
  refine ⟨?_, fun k => ?_⟩
  · unfold position
    rw [List.take_length]
    exact hperforms.outcome.mono (fun _ _ h => h.1) fun _ _ h => h
  · have hsteady := source.steady_position limits k
    refine ⟨hsteady.ready.current_ne, hsteady.depth_nonneg, fun hk => ?_, hsteady.peek_ne⟩
    have hgroups : (source.position limits k).groups = 0 := hperforms.orderly.inOrder hk
    rw [hsteady.depth_eq, hgroups]
    rfl

end Source

end LimLang
