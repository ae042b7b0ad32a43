import LimLang.Parse.Statement
import LimLang.Proofs.Reading

/-! # The grammar

The grammar of the language as a relation between lists of tokens and trees, on which nothing of the
parser's cursor, lookahead or order of trials is left.  `Phrase` has the expressions and the lists of
expressions, `Clause` the statements, blocks and lists of statements.  A tree is put together from the
tokens of its phrase, each of which is used once.

Expressions are stratified: `Phrase (.expression floor)` are those whose operators, outside of brackets,
bind tighter than `floor`.  The operators of one precedence group to the left.  An operator in front of
its operand binds tighter than all operators in between, and calls and indices, which follow their
operand, bind tightest and all alike.

Newlines are tokens too.  Inside parentheses and brackets they mean nothing (`unbroken`); elsewhere
they may stand where a token must follow in any case: after an operator, after `=` and `:=`, after
`if`.  Between statements a newline does what a semicolon does.  On a list of tokens without
newlines all of this says nothing.
-/
namespace LimLang

/-- The number that a token of digits denotes. -/
def Token.number (t : Token) : Nat :=
  Text.ofDigits (t.text.toList.map fun c => c.toNat - '0'.toNat)

/-- The name that a token spells. -/
def Token.toIdent (t : Token) : Ident :=
  { token := t, name := t.text }

/-- An operator that stands in front of its operand. -/
def Kind.isPrefix : Kind → Bool
  | .bang | .minus | .plus => true
  | _ => false

/-- A token that an expression may start with. -/
def Kind.startsExpression : Kind → Bool
  | .ident | .int | .string | .kwTrue | .kwFalse | .kwNull | .bang | .minus | .plus | .lparen
  | .lbrack => true
  | _ => false

/-- What a phrase is. -/
inductive PhraseKind where
  /-- An expression whose operators bind tighter than `floor`. -/
  | expression (floor : Nat)
  /-- One or more expressions, separated by commas. -/
  | items
  /-- Any number of expressions, separated by commas. -/
  | list

/-- **The expressions of the language**, each with its tree, and the lists of expressions. -/
inductive Phrase : PhraseKind → List Token → List Node → Prop
  /-- What binds tightly also binds tighter than less. -/
  | loosen {low high : Nat} {ts : List Token} {nodes : List Node} (hle : low ≤ high)
      (h : Phrase (.expression high) ts nodes) : Phrase (.expression low) ts nodes
  | ident {t : Token} (ht : t.kind = .ident) :
      Phrase (.expression Precedence.call) [t] [.ident t.toIdent]
  /-- A numeral that fits into a word. -/
  | int {t : Token} (ht : t.kind = .int) (hb : t.number < MachineInt.bound) :
      Phrase (.expression Precedence.call) [t] [.int t t.number]
  | string {t : Token} (ht : t.kind = .string) :
      Phrase (.expression Precedence.call) [t] [.string t t.text]
  | true {t : Token} (ht : t.kind = .kwTrue) :
      Phrase (.expression Precedence.call) [t] [.bool t true]
  | false {t : Token} (ht : t.kind = .kwFalse) :
      Phrase (.expression Precedence.call) [t] [.bool t false]
  | null {t : Token} (ht : t.kind = .kwNull) :
      Phrase (.expression Precedence.call) [t] [.null t]
  /-- An expression in parentheses, which leave no trace in the tree. -/
  | group {opening closing : Token} {ts : List Token} {node : Node} (ho : opening.kind = .lparen)
      (hc : closing.kind = .rparen) (h : Phrase (.expression Precedence.lowest) (unbroken ts) [node]) :
      Phrase (.expression Precedence.call) (opening :: (ts ++ [closing])) [node]
  | array {opening closing : Token} {ts : List Token} {nodes : List Node}
      (ho : opening.kind = .lbrack) (hc : closing.kind = .rbrack)
      (h : Phrase .list (unbroken ts) nodes) :
      Phrase (.expression Precedence.call) (opening :: (ts ++ [closing])) [.array opening nodes]
  | call {opening closing : Token} {fs ts : List Token} {callee : Node} {nodes : List Node}
      (hf : Phrase (.expression Precedence.call) fs [callee]) (ho : opening.kind = .lparen)
      (hc : closing.kind = .rparen) (h : Phrase .list (unbroken ts) nodes) :
      Phrase (.expression Precedence.call) (fs ++ opening :: (ts ++ [closing]))
        [.call opening callee nodes]
  | index {opening closing : Token} {ls ts : List Token} {left place : Node}
      (hl : Phrase (.expression Precedence.call) ls [left]) (ho : opening.kind = .lbrack)
      (hc : closing.kind = .rbrack)
      (h : Phrase (.expression Precedence.lowest) (unbroken ts) [place]) :
      Phrase (.expression Precedence.call) (ls ++ opening :: (ts ++ [closing]))
        [.index opening left place]
  | unary {operator : Token} {gap ts : List Token} {right : Node}
      (ho : operator.kind.isPrefix) (hg : IsNewlines gap)
      (h : Phrase (.expression Precedence.unary) ts [right]) :
      Phrase (.expression Precedence.unary) (operator :: (gap ++ ts))
        [.unary operator operator.text right]
  /-- The left operand may hold operators of the same precedence, the right one may not. -/
  | binary {operator : Token} {floor : Nat} {gap ls rs : List Token} {left right : Node}
      (hf : Precedence.lowest ≤ floor) (ho : operator.kind.precedence = floor + 1)
      (hp : operator.kind.precedence ≤ Precedence.product) (hg : IsNewlines gap)
      (hl : Phrase (.expression floor) ls [left])
      (hr : Phrase (.expression (floor + 1)) rs [right]) :
      Phrase (.expression floor) (ls ++ operator :: (gap ++ rs))
        [.binary operator left operator.text right]
  | item {ts : List Token} {node : Node} (h : Phrase (.expression Precedence.lowest) ts [node]) :
      Phrase .items ts [node]
  | later {comma : Token} {ts us : List Token} {node : Node} {nodes : List Node}
      (h : Phrase (.expression Precedence.lowest) ts [node]) (hc : comma.kind = .comma)
      (hs : Phrase .items us nodes) : Phrase .items (ts ++ comma :: us) (node :: nodes)
  | none : Phrase .list [] []
  | some {ts : List Token} {nodes : List Node} (h : Phrase .items ts nodes) : Phrase .list ts nodes

/-- Every phrase but the empty list starts as an expression does. -/
theorem Phrase.exists_cons {kind : PhraseKind} {ts : List Token} {nodes : List Node}
    (h : Phrase kind ts nodes) (hk : kind ≠ .list) :
    ∃ t us, ts = t :: us ∧ t.kind.startsExpression := by
  induction h with
  | loosen _ _ ih => exact ih (by simp)
  | ident ht => exact ⟨_, _, rfl, by rw [ht]; rfl⟩
  | int ht _ => exact ⟨_, _, rfl, by rw [ht]; rfl⟩
  | string ht => exact ⟨_, _, rfl, by rw [ht]; rfl⟩
  | true ht => exact ⟨_, _, rfl, by rw [ht]; rfl⟩
  | false ht => exact ⟨_, _, rfl, by rw [ht]; rfl⟩
  | null ht => exact ⟨_, _, rfl, by rw [ht]; rfl⟩
  | group ho _ _ _ => exact ⟨_, _, rfl, by rw [ho]; rfl⟩
  | array ho _ _ _ => exact ⟨_, _, rfl, by rw [ho]; rfl⟩
  | call _ _ _ _ ihf _ =>
    obtain ⟨t, us, rfl, ht⟩ := ihf (by simp)
    exact ⟨t, _, rfl, ht⟩
  | index _ _ _ _ ihl _ =>
    obtain ⟨t, us, rfl, ht⟩ := ihl (by simp)
    exact ⟨t, _, rfl, ht⟩
  | @unary operator _ _ _ ho _ _ _ =>
    refine ⟨_, _, rfl, ?_⟩
    revert ho
    cases operator.kind <;> decide
  | binary _ _ _ _ _ _ ihl _ =>
    obtain ⟨t, us, rfl, ht⟩ := ihl (by simp)
    exact ⟨t, _, rfl, ht⟩
  | item _ ih => exact ih (by simp)
  | later _ _ _ ih _ =>
    obtain ⟨t, us, rfl, ht⟩ := ih (by simp)
    exact ⟨t, _, rfl, ht⟩
  | none => exact absurd rfl hk
  | some _ _ => exact absurd rfl hk

theorem Phrase.ne_nil {level : Nat} {ts : List Token} {nodes : List Node}
    (h : Phrase (.expression level) ts nodes) : ts ≠ [] := by
  obtain ⟨t, us, rfl, -⟩ := h.exists_cons (by simp)
  exact List.cons_ne_nil t us

theorem Kind.ne_endOfLine_of_startsExpression {kind : Kind} (h : kind.startsExpression) :
    kind ≠ .endOfLine := by
  rintro rfl
  exact absurd h (by decide)

/-- No phrase ends with a newline or `eof`. -/
theorem Phrase.getLast_isBoundary {kind : PhraseKind} {ts : List Token} {nodes : List Node}
    (h : Phrase kind ts nodes) (hk : kind ≠ .list) (t : Token) :
    (ts.getLastD t).kind.isBoundary = Bool.false := by
  induction h generalizing t with
  | loosen _ _ ih => exact ih (by simp) t
  | ident ht => simp [ht, Kind.isBoundary]
  | int ht _ => simp [ht, Kind.isBoundary]
  | string ht => simp [ht, Kind.isBoundary]
  | true ht => simp [ht, Kind.isBoundary]
  | false ht => simp [ht, Kind.isBoundary]
  | null ht => simp [ht, Kind.isBoundary]
  | group _ hc _ _ => rw [List.getLastD_cons, getLastD_append]; simp [hc, Kind.isBoundary]
  | array _ hc _ _ => rw [List.getLastD_cons, getLastD_append]; simp [hc, Kind.isBoundary]
  | call _ _ hc _ _ _ =>
    rw [getLastD_append, List.getLastD_cons, getLastD_append]
    simp [hc, Kind.isBoundary]
  | index _ _ hc _ _ _ =>
    rw [getLastD_append, List.getLastD_cons, getLastD_append]
    simp [hc, Kind.isBoundary]
  | unary _ _ _ ih =>
    rw [List.getLastD_cons, getLastD_append]
    exact ih (by simp) _
  | binary _ _ _ _ _ _ _ ihr =>
    rw [getLastD_append, List.getLastD_cons, getLastD_append]
    exact ihr (by simp) _
  | item _ ih => exact ih (by simp) t
  | later _ _ _ _ ihs =>
    rw [getLastD_append, List.getLastD_cons]
    exact ihs (by simp) _
  | none => exact absurd rfl hk
  | some _ _ => exact absurd rfl hk

theorem IsNewlines.ne_define {gap : List Token} (h : IsNewlines gap) :
    ∀ t ∈ gap, t.kind ≠ .define := by
  intro t ht
  rw [h t ht]
  decide

theorem ne_define_of_unbroken {ts : List Token} (h : ∀ t ∈ unbroken ts, t.kind ≠ .define) :
    ∀ t ∈ ts, t.kind ≠ .define := by
  intro t ht hd
  have hn : Cursor.isNewline t = false := isNewline_eq_false.2 (by rw [hd]; decide)
  exact h t (List.mem_filter.2 ⟨ht, by rw [hn]; rfl⟩) hd

/-- No phrase holds a `:=`. -/
theorem Phrase.ne_define {kind : PhraseKind} {ts : List Token} {nodes : List Node}
    (h : Phrase kind ts nodes) : ∀ t ∈ ts, t.kind ≠ .define := by
  induction h with
  | loosen _ _ ih => exact ih
  | ident ht => simp [ht]
  | int ht _ => simp [ht]
  | string ht => simp [ht]
  | true ht => simp [ht]
  | false ht => simp [ht]
  | null ht => simp [ht]
  | group ho hc _ ih =>
    simp only [List.forall_mem_cons, List.forall_mem_append]
    exact ⟨by simp [ho], ne_define_of_unbroken ih, by simp [hc]⟩
  | array ho hc _ ih =>
    simp only [List.forall_mem_cons, List.forall_mem_append]
    exact ⟨by simp [ho], ne_define_of_unbroken ih, by simp [hc]⟩
  | call _ ho hc _ ihf ih =>
    simp only [List.forall_mem_cons, List.forall_mem_append]
    exact ⟨ihf, by simp [ho], ne_define_of_unbroken ih, by simp [hc]⟩
  | index _ ho hc _ ihl ih =>
    simp only [List.forall_mem_cons, List.forall_mem_append]
    exact ⟨ihl, by simp [ho], ne_define_of_unbroken ih, by simp [hc]⟩
  | unary ho hg _ ih =>
    simp only [List.forall_mem_cons, List.forall_mem_append]
    refine ⟨fun hd => ?_, hg.ne_define, ih⟩
    rw [hd] at ho
    exact absurd ho (by decide)
  | binary hf ho _ hg _ _ ihl ihr =>
    simp only [List.forall_mem_cons, List.forall_mem_append]
    refine ⟨ihl, fun hd => ?_, hg.ne_define, ihr⟩
    have : Kind.define.precedence = Precedence.lowest := rfl
    rw [hd] at ho
    omega
  | item _ ih => exact ih
  | later _ hc _ ih ihs =>
    simp only [List.forall_mem_cons, List.forall_mem_append]
    exact ⟨ih, by simp [hc], ihs⟩
  | none => simp
  | some _ ih => exact ih

/-- The name of a type: a keyword, which brackets may follow. -/
inductive TypePhrase : List Token → String → Prop
  | basic {t : Token} (ht : t.kind.isType) : TypePhrase [t] t.text
  | array {t opening closing : Token} (ht : t.kind.isType) (ho : opening.kind = .lbrack)
      (hc : closing.kind = .rbrack) : TypePhrase [t, opening, closing] (t.text ++ " []")

/-- One or more parameters, separated by commas, each with its type. -/
inductive ParameterPhrase : List Token → List Ident → Prop
  | one {name : Token} {ts : List Token} {type : String} (ht : TypePhrase ts type)
      (hn : name.kind = .ident) :
      ParameterPhrase (ts ++ [name]) [{ token := name, name := name.text, typeName := some type }]
  | more {name comma : Token} {ts us : List Token} {type : String} {parameters : List Ident}
      (ht : TypePhrase ts type) (hn : name.kind = .ident) (hc : comma.kind = .comma)
      (hs : ParameterPhrase us parameters) :
      ParameterPhrase (ts ++ name :: comma :: us)
        ({ token := name, name := name.text, typeName := some type } :: parameters)

/-- Any number of parameters, separated by commas. -/
inductive ParametersPhrase : List Token → List Ident → Prop
  | none : ParametersPhrase [] []
  | some {ts : List Token} {parameters : List Ident} (h : ParameterPhrase ts parameters) :
      ParametersPhrase ts parameters

/-- The type of a function's result.  An arrow may stand in front of it, not instead of it. -/
inductive ResultPhrase : List Token → Option String → Prop
  | none : ResultPhrase [] none
  | plain {ts : List Token} {type : String} (h : TypePhrase ts type) : ResultPhrase ts (some type)
  | arrow {arrow : Token} {ts : List Token} {type : String} (ha : arrow.kind = .arrow)
      (h : TypePhrase ts type) : ResultPhrase (arrow :: ts) (some type)

/-- The value that a declaration gives; without one it gives `zero`. -/
inductive InitializerPhrase (zero : Node) : List Token → Node → Prop
  | none : InitializerPhrase zero [] zero
  | some {assign : Token} {gap ts : List Token} {value : Node} (ha : assign.kind = .assign)
      (hg : IsNewlines gap) (h : Phrase (.expression Precedence.lowest) ts [value]) :
      InitializerPhrase zero (assign :: (gap ++ ts)) value

/-- The keyword of a type, made up at the place of a token. -/
def BasicType.keywordAt (type : BasicType) (place : Token) : Token :=
  { kind := type.kind, text := type.spelling, line := place.line, col := place.col }

/-- A token between statements. -/
def Kind.isSeparator : Kind → Bool
  | .semicolon | .endOfLine => true
  | _ => false

/-- What a clause is. -/
inductive ClauseKind where
  /-- A statement that does not end with a brace. -/
  | simple
  /-- A chain of branches. -/
  | chain
  /-- A statement that ends with a brace. -/
  | compound
  | block
  /-- The statements of a program or a block. -/
  | body

/-- **The statements of the language**, each with its tree, the blocks, and the lists of statements. -/
inductive Clause : ClauseKind → List Token → List Node → Prop
  | declare {keyword name : Token} {type : BasicType} {ts : List Token} {value : Node}
      (hk : BasicType.ofKind? keyword.kind = some type) (hn : name.kind = .ident)
      (h : InitializerPhrase (.zero type) ts value) :
      Clause .simple (keyword :: name :: ts) [.declare keyword type name.toIdent value]
  | declareArray {keyword opening closing name : Token} {ts : List Token} {value : Node}
      (hk : keyword.kind.isType) (ho : opening.kind = .lbrack) (hc : closing.kind = .rbrack)
      (hn : name.kind = .ident) (h : InitializerPhrase .emptyArray ts value) :
      Clause .simple (keyword :: opening :: closing :: name :: ts)
        [.declareArray keyword keyword.text name.toIdent value]
  /-- A declaration by a value whose first token tells its type. -/
  | define {name define leading : Token} {type : BasicType} {gap ts : List Token} {value : Node}
      (hn : name.kind = .ident) (hd : define.kind = .define) (hg : IsNewlines gap)
      (hl : BasicType.ofLeading? leading.kind = some type)
      (h : Phrase (.expression Precedence.lowest) (leading :: ts) [value]) :
      Clause .simple (name :: define :: (gap ++ leading :: ts))
        [.declare (type.keywordAt define) type name.toIdent value]
  /-- A declaration by an array. -/
  | defineArray {name define opening closing : Token} {gap ts : List Token} {nodes : List Node}
      (hn : name.kind = .ident) (hd : define.kind = .define) (hg : IsNewlines gap)
      (ho : opening.kind = .lbrack) (hc : closing.kind = .rbrack)
      (h : Phrase .list (unbroken ts) nodes) :
      Clause .simple (name :: define :: (gap ++ opening :: (ts ++ [closing])))
        [.declareArray ((BasicType.ofElements nodes).keywordAt define)
          (BasicType.ofElements nodes).spelling name.toIdent (.array opening nodes)]
  | bareReturn {keyword : Token} (hk : keyword.kind = .kwReturn) :
      Clause .simple [keyword] [.bareReturn keyword]
  | returnValue {keyword : Token} {ts : List Token} {value : Node} (hk : keyword.kind = .kwReturn)
      (h : Phrase (.expression Precedence.lowest) ts [value]) :
      Clause .simple (keyword :: ts) [.returnValue keyword value]
  | expression {first : Token} {ts : List Token} {value : Node}
      (h : Phrase (.expression Precedence.lowest) (first :: ts) [value]) :
      Clause .simple (first :: ts) [.expression first value]
  | ifThen {keyword : Token} {gap cs bs : List Token} {condition body : Node}
      (hk : keyword.kind = .kwIf) (hg : IsNewlines gap)
      (hc : Phrase (.expression Precedence.lowest) cs [condition])
      (hb : Clause .block bs [body]) :
      Clause .chain (keyword :: (gap ++ (cs ++ bs))) [.ifThen keyword condition body]
  | ifOtherwise {keyword alternative : Token} {gap cs bs es : List Token}
      {condition body last : Node} (hk : keyword.kind = .kwIf) (hg : IsNewlines gap)
      (hc : Phrase (.expression Precedence.lowest) cs [condition])
      (hb : Clause .block bs [body]) (ha : alternative.kind = .kwElse)
      (he : Clause .block es [last]) :
      Clause .chain (keyword :: (gap ++ (cs ++ (bs ++ alternative :: es))))
        [.ifElse keyword condition body (.otherwise alternative last)]
  | ifElse {keyword alternative : Token} {gap cs bs ns : List Token}
      {condition body next : Node} (hk : keyword.kind = .kwIf) (hg : IsNewlines gap)
      (hc : Phrase (.expression Precedence.lowest) cs [condition])
      (hb : Clause .block bs [body]) (ha : alternative.kind = .kwElse)
      (hn : Clause .chain ns [next]) :
      Clause .chain (keyword :: (gap ++ (cs ++ (bs ++ alternative :: ns))))
        [.ifElse keyword condition body next]
  | branches {ts : List Token} {nodes : List Node} (h : Clause .chain ts nodes) :
      Clause .compound ts nodes
  | function {keyword name opening closing : Token} {ps rs bs : List Token}
      {parameters : List Ident} {result : Option String} {body : Node}
      (hk : keyword.kind = .kwFn) (hn : name.kind = .ident) (ho : opening.kind = .lparen)
      (hp : ParametersPhrase (unbroken ps) parameters) (hc : closing.kind = .rparen)
      (hr : ResultPhrase rs result) (hb : Clause .block bs [body]) :
      Clause .compound (keyword :: name :: opening :: (ps ++ closing :: (rs ++ bs)))
        [.function keyword name.text parameters result body]
  | block {opening closing : Token} {ts : List Token} {nodes : List Node}
      (ho : opening.kind = .lbrace) (hc : closing.kind = .rbrace) (h : Clause .body ts nodes) :
      Clause .block (opening :: (ts ++ [closing])) [.block opening nodes]
  | empty : Clause .body [] []
  /-- Semicolons and newlines may stand wherever a statement may. -/
  | separator {t : Token} {ts : List Token} {nodes : List Node} (ht : t.kind.isSeparator)
      (h : Clause .body ts nodes) : Clause .body (t :: ts) nodes
  /-- After a brace a statement needs no end. -/
  | braced {ss ts : List Token} {node : Node} {nodes : List Node} (hs : Clause .compound ss [node])
      (h : Clause .body ts nodes) : Clause .body (ss ++ ts) (node :: nodes)
  | ended {t : Token} {ss ts : List Token} {node : Node} {nodes : List Node}
      (hs : Clause .simple ss [node]) (ht : t.kind.isSeparator) (h : Clause .body ts nodes) :
      Clause .body (ss ++ t :: ts) (node :: nodes)
  /-- The last statement needs no end of its own. -/
  | last {ss : List Token} {node : Node} (hs : Clause .simple ss [node]) : Clause .body ss [node]

/-- A token that a statement or a block may start with. -/
def Kind.startsClause : Kind → Bool
  | .kwInt | .kwBool | .kwString | .kwReturn | .kwIf | .kwFn | .lbrace => true
  | kind => kind.startsExpression

theorem Kind.startsClause_of_startsExpression {kind : Kind} (h : kind.startsExpression) :
    kind.startsClause := by
  revert h
  cases kind <;> decide

theorem Kind.isType_of_ofKind? {kind : Kind} {type : BasicType}
    (h : BasicType.ofKind? kind = some type) : kind.isType := by
  revert h
  cases kind <;> simp [BasicType.ofKind?, Kind.isType]

theorem Kind.startsClause_of_isType {kind : Kind} (h : kind.isType) : kind.startsClause := by
  revert h
  cases kind <;> decide

theorem Clause.exists_kwIf {ts : List Token} {nodes : List Node} (h : Clause .chain ts nodes) :
    ∃ t us, ts = t :: us ∧ t.kind = .kwIf := by
  cases h with
  | ifThen hk _ _ _ => exact ⟨_, _, rfl, hk⟩
  | ifOtherwise hk _ _ _ _ _ => exact ⟨_, _, rfl, hk⟩
  | ifElse hk _ _ _ _ _ => exact ⟨_, _, rfl, hk⟩

/-- Every clause but a list of statements has a first token. -/
theorem Clause.exists_cons {kind : ClauseKind} {ts : List Token} {nodes : List Node}
    (h : Clause kind ts nodes) (hb : kind ≠ .body) :
    ∃ t us, ts = t :: us ∧ t.kind.startsClause := by
  cases h with
  | declare hk _ _ =>
    exact ⟨_, _, rfl, Kind.startsClause_of_isType (Kind.isType_of_ofKind? hk)⟩
  | declareArray hk _ _ _ _ => exact ⟨_, _, rfl, Kind.startsClause_of_isType hk⟩
  | define hn _ _ _ _ => exact ⟨_, _, rfl, by rw [hn]; rfl⟩
  | defineArray hn _ _ _ _ _ => exact ⟨_, _, rfl, by rw [hn]; rfl⟩
  | bareReturn hk => exact ⟨_, _, rfl, by rw [hk]; rfl⟩
  | returnValue hk _ => exact ⟨_, _, rfl, by rw [hk]; rfl⟩
  | expression h =>
    obtain ⟨t, us, heq, ht⟩ := h.exists_cons (by simp)
    exact ⟨t, us, heq, Kind.startsClause_of_startsExpression ht⟩
  | ifThen hk _ _ _ => exact ⟨_, _, rfl, by rw [hk]; rfl⟩
  | ifOtherwise hk _ _ _ _ _ => exact ⟨_, _, rfl, by rw [hk]; rfl⟩
  | ifElse hk _ _ _ _ _ => exact ⟨_, _, rfl, by rw [hk]; rfl⟩
  | branches h =>
    obtain ⟨t, us, rfl, ht⟩ := h.exists_kwIf
    exact ⟨t, us, rfl, by rw [ht]; rfl⟩
  | function hk _ _ _ _ _ _ => exact ⟨_, _, rfl, by rw [hk]; rfl⟩
  | block ho _ _ => exact ⟨_, _, rfl, by rw [ho]; rfl⟩
  | empty => exact absurd rfl hb
  | separator _ _ => exact absurd rfl hb
  | braced _ _ => exact absurd rfl hb
  | ended _ _ _ => exact absurd rfl hb
  | last _ => exact absurd rfl hb

theorem Clause.exists_lbrace {ts : List Token} {nodes : List Node} (h : Clause .block ts nodes) :
    ∃ t us, ts = t :: us ∧ t.kind = .lbrace := by
  cases h with
  | block ho _ _ => exact ⟨_, _, rfl, ho⟩

/-- A list of statements starts with a separator or a statement. -/
theorem Clause.head_isSeparator_or {t : Token} {ts : List Token} {nodes : List Node}
    (h : Clause .body (t :: ts) nodes) : t.kind.isSeparator || t.kind.startsClause := by
  have first : ∀ {kind : ClauseKind} {ss us : List Token} {node : Node}, kind ≠ .body →
      Clause kind ss [node] → ss ++ us = t :: ts → t.kind.isSeparator || t.kind.startsClause := by
    intro kind ss us node hk hs heq
    obtain ⟨u, vs, rfl, hu⟩ := hs.exists_cons hk
    obtain ⟨rfl, -⟩ := List.cons.inj heq
    rw [hu, Bool.or_true]
  generalize heq : t :: ts = us at h
  cases h with
  | empty => cases heq
  | @separator u _ _ ht _ =>
    obtain ⟨rfl, -⟩ := List.cons.inj heq
    rw [ht, Bool.true_or]
  | braced hs _ => exact first (by simp) hs heq.symm
  | ended hs _ _ => exact first (by simp) hs heq.symm
  | last hs => exact first (by simp) hs ((List.append_nil _).trans heq.symm)

/-- What closes a list of statements is no part of it. -/
theorem Clause.head_closesBlock {t : Token} {ts : List Token} {nodes : List Node}
    (h : Clause .body (t :: ts) nodes) : t.kind.closesBlock = false := by
  have := h.head_isSeparator_or
  revert this
  cases t.kind <;> decide

/-- No list of statements starts with `else`. -/
theorem Clause.head_ne_kwElse {t : Token} {ts : List Token} {nodes : List Node}
    (h : Clause .body (t :: ts) nodes) : t.kind ≠ .kwElse := by
  have := h.head_isSeparator_or
  revert this
  cases t.kind <;> decide

/-- Without tokens there are no statements. -/
theorem Clause.eq_nil {nodes : List Node} (h : Clause .body [] nodes) : nodes = [] := by
  have none : ∀ {kind : ClauseKind} {ss us : List Token} {node : Node}, kind ≠ .body →
      Clause kind ss [node] → ss ++ us ≠ [] := by
    intro kind ss us node hk hs
    obtain ⟨u, vs, rfl, -⟩ := hs.exists_cons hk
    exact List.cons_ne_nil _ _
  generalize heq : ([] : List Token) = us at h
  cases h with
  | empty => rfl
  | separator _ _ => cases heq
  | braced hs _ => exact absurd heq.symm (none (by simp) hs)
  | ended hs _ _ => exact absurd heq.symm (none (by simp) hs)
  | last hs => exact absurd ((List.append_nil _).trans heq.symm) (none (by simp) hs)

theorem TypePhrase.getLast_isBoundary {ts : List Token} {type : String} (h : TypePhrase ts type)
    (t : Token) : (ts.getLastD t).kind.isBoundary = false := by
  cases h with
  | @basic t ht =>
    revert ht
    show t.kind.isType → t.kind.isBoundary = false
    cases t.kind <;> decide
  | array _ _ hc => simp [hc, Kind.isBoundary]

theorem ResultPhrase.getLast_isBoundary {ts : List Token} {result : Option String}
    (h : ResultPhrase ts result) {t : Token} (ht : t.kind.isBoundary = false) :
    (ts.getLastD t).kind.isBoundary = false := by
  cases h with
  | none => exact ht
  | plain h => exact h.getLast_isBoundary t
  | arrow _ h =>
    rw [List.getLastD_cons]
    exact h.getLast_isBoundary _

theorem InitializerPhrase.getLast_isBoundary {zero value : Node} {ts : List Token}
    (h : InitializerPhrase zero ts value) {t : Token} (ht : t.kind.isBoundary = false) :
    (ts.getLastD t).kind.isBoundary = false := by
  cases h with
  | none => exact ht
  | some _ _ h =>
    rw [List.getLastD_cons, getLastD_append]
    exact h.getLast_isBoundary (by simp) _

/-- No clause but a list of statements ends with a newline or `eof`. -/
theorem Clause.getLast_isBoundary {kind : ClauseKind} {ts : List Token} {nodes : List Node}
    (h : Clause kind ts nodes) (hb : kind ≠ .body) (t : Token) :
    (ts.getLastD t).kind.isBoundary = false := by
  induction h generalizing t with
  | declare _ hn h =>
    rw [List.getLastD_cons, List.getLastD_cons]
    exact h.getLast_isBoundary (by rw [hn]; rfl)
  | declareArray _ _ _ hn h =>
    rw [List.getLastD_cons, List.getLastD_cons, List.getLastD_cons, List.getLastD_cons]
    exact h.getLast_isBoundary (by rw [hn]; rfl)
  | define _ _ _ _ h =>
    rw [List.getLastD_cons, List.getLastD_cons, getLastD_append]
    exact h.getLast_isBoundary (by simp) _
  | defineArray _ _ _ _ hc _ =>
    rw [List.getLastD_cons, List.getLastD_cons, getLastD_append, List.getLastD_cons,
      getLastD_append]
    simp [hc, Kind.isBoundary]
  | bareReturn hk => simp [hk, Kind.isBoundary]
  | returnValue _ h =>
    rw [List.getLastD_cons]
    exact h.getLast_isBoundary (by simp) _
  | expression h => exact h.getLast_isBoundary (by simp) _
  | ifThen _ _ _ _ ihb =>
    rw [List.getLastD_cons, getLastD_append, getLastD_append]
    exact ihb (by simp) _
  | ifOtherwise _ _ _ _ _ _ _ ihe =>
    rw [List.getLastD_cons, getLastD_append, getLastD_append, getLastD_append, List.getLastD_cons]
    exact ihe (by simp) _
  | ifElse _ _ _ _ _ _ _ ihn =>
    rw [List.getLastD_cons, getLastD_append, getLastD_append, getLastD_append, List.getLastD_cons]
    exact ihn (by simp) _
  | branches _ ih => exact ih (by simp) t
  | function _ _ _ _ _ _ _ ihb =>
    rw [List.getLastD_cons, List.getLastD_cons, List.getLastD_cons, getLastD_append,
      List.getLastD_cons, getLastD_append]
    exact ihb (by simp) _
  | block _ hc _ _ => rw [List.getLastD_cons, getLastD_append]; simp [hc, Kind.isBoundary]
  | empty => exact absurd rfl hb
  | separator _ _ _ => exact absurd rfl hb
  | braced _ _ _ _ => exact absurd rfl hb
  | ended _ _ _ _ _ => exact absurd rfl hb
  | last _ _ => exact absurd rfl hb

/-- Newlines may stand in front of any list of statements. -/
theorem Clause.gap {gap ts : List Token} {nodes : List Node} (hg : IsNewlines gap)
    (h : Clause .body ts nodes) : Clause .body (gap ++ ts) nodes := by
  induction gap with
  | nil => exact h
  | cons t gap ih =>
    refine .separator (by rw [hg t List.mem_cons_self]; rfl) (ih fun u hu => hg u ?_)
    exact List.mem_cons_of_mem _ hu

end LimLang
