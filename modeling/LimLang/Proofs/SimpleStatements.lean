import LimLang.Proofs.ExpressionCompleteness
import LimLang.Proofs.StatementSoundness

/-! # Every simple statement is read

The converse of what the parser reads, for statements that do not end with a brace: declarations,
returns and expressions.  Where one stands ahead, followed by something that ends it, the parser returns
its tree, records nothing and stops behind it (`Parse.RunsSimple`).

The parser looks one token ahead to tell declarations by value from expressions.  As with expressions it
is told how deep the parser has to go: a statement takes one level more than the expression in it.
-/
namespace LimLang

open Cursor (isNewline)

theorem Kind.precedence_of_isTerminator {kind : Kind} (h : kind.isTerminator) :
    kind.precedence = Precedence.lowest := by
  revert h
  cases kind <;> decide

theorem BasicType.exists_ofKind? {kind : Kind} (h : kind.isType) :
    ∃ type, BasicType.ofKind? kind = some type := by
  cases kind <;> simp_all [Kind.isType, BasicType.ofKind?]

theorem TypePhrase.exists_cons {ts : List Token} {type : String} (h : TypePhrase ts type) :
    ∃ t us, ts = t :: us ∧ t.kind.isType := by
  cases h with
  | basic ht => exact ⟨_, _, rfl, ht⟩
  | array ht _ _ => exact ⟨_, _, rfl, ht⟩

theorem ParameterPhrase.exists_cons {ts : List Token} {parameters : List Ident}
    (h : ParameterPhrase ts parameters) : ∃ t us, ts = t :: us ∧ t.kind.isType := by
  cases h with
  | one ht _ =>
    obtain ⟨t, us, rfl, htype⟩ := ht.exists_cons
    exact ⟨t, _, rfl, htype⟩
  | more ht _ _ _ =>
    obtain ⟨t, us, rfl, htype⟩ := ht.exists_cons
    exact ⟨t, _, rfl, htype⟩

theorem Kind.ne_endOfLine_of_isType {kind : Kind} (h : kind.isType) : kind ≠ .endOfLine := by
  rintro rfl
  exact absurd h (by decide)

/-- The cursor stands as it should wherever a type ends. -/
theorem TypePhrase.ready {c d : Cursor} {read : List Token} {type : String}
    (h : TypePhrase (c.current :: read) type) (hc : c.Ready) (hm : c.Moves read d) : d.Ready := by
  refine hm.ready hc ?_
  have := h.getLast_isBoundary c.current
  rw [List.getLastD_cons, ← hm.current_eq] at this
  exact Kind.ne_of_isBoundary this rfl

theorem Kind.not_isTerminator_of_startsExpression {kind : Kind} (h : kind.startsExpression) :
    kind.isTerminator = false := by
  revert h
  cases kind <;> decide

/-- A value that is given by a declaration and read with at most `n` levels of nesting below. -/
inductive InitializerPhrase.Within (n : Nat) (zero : Node) : List Token → Node → Prop
  | none : Within n zero [] zero
  | some {assign : Token} {gap ts : List Token} {value : Node} (ha : assign.kind = .assign)
      (hg : IsNewlines gap) (h : Phrase.Within n (.expression Precedence.lowest) ts [value]) :
      Within n zero (assign :: (gap ++ ts)) value

theorem InitializerPhrase.Within.initializer {n : Nat} {zero value : Node} {ts : List Token}
    (h : Within n zero ts value) : InitializerPhrase zero ts value := by
  cases h with
  | none => exact .none
  | some ha hg h => exact .some ha hg h.phrase

theorem InitializerPhrase.within {zero value : Node} {ts : List Token}
    (h : InitializerPhrase zero ts value) : Within ts.length zero ts value := by
  cases h with
  | none => exact .none
  | some ha hg h =>
    refine .some ha hg (h.within.deeper ?_)
    simp only [PhraseKind.levels, List.length_append, List.length_cons]
    omega

namespace Parse

variable {maxDigits depth n m : Nat} {findings : List Finding} {c d : Cursor}

/-- **The tokens `ts` stand between two cursors**: the first is current at `c`, the last at `d`.
Their numerals are short enough to be read. -/
structure Stands (maxDigits : Nat) (ts : List Token) (c d : Cursor) : Prop where
  ready : c.Ready
  moves : ∃ read, ts = c.current :: read ∧ c.Moves read d
  readable : Readable maxDigits ts

/-- What stands between two cursors, from the second token on or from the first after newlines. -/
theorem Stands.skip {t u : Token} {gap ts : List Token}
    (h : Stands maxDigits (t :: (gap ++ u :: ts)) c d) (hg : IsNewlines gap)
    (hu : u.kind ≠ .endOfLine) : Stands maxDigits (u :: ts) c.advance d := by
  obtain ⟨read, heq, hm⟩ := h.moves
  obtain ⟨rfl, rfl⟩ := List.cons.inj heq
  obtain ⟨hcur, hmts⟩ := h.ready.advance_reads hg hu hm
  refine ⟨h.ready.advance, ⟨ts, by rw [hcur], hmts⟩, h.readable.mono fun t ht => ?_⟩
  exact List.mem_cons_of_mem _ (List.mem_append_right _ ht)

theorem Stands.next {t u : Token} {ts : List Token} (h : Stands maxDigits (t :: u :: ts) c d)
    (hu : u.kind ≠ .endOfLine) : Stands maxDigits (u :: ts) c.advance d :=
  Stands.skip (show Stands maxDigits (t :: ([] ++ u :: ts)) c d from h) .nil hu

theorem Stands.last_eq {ts : List Token} (h : Stands maxDigits ts c d) (t : Token) :
    d.current = ts.getLastD t := by
  obtain ⟨read, rfl, hm⟩ := h.moves
  rw [List.getLastD_cons, hm.current_eq]

theorem Stands.length_le {ts : List Token} (h : Stands maxDigits ts c d) :
    d.ahead.length ≤ c.ahead.length := by
  obtain ⟨read, -, hm⟩ := h.moves
  exact Nat.le_trans (Nat.le_add_left _ _) hm.length_le

theorem Stands.length_advance_lt {t : Token} {ts : List Token}
    (h : Stands maxDigits (t :: ts) c d) (hne : ts ≠ []) :
    c.advance.ahead.length < c.ahead.length := by
  obtain ⟨read, heq, hm⟩ := h.moves
  obtain ⟨-, rfl⟩ := List.cons.inj heq
  exact h.ready.length_advance_of_moves hm hne

theorem Stands.current_eq {t : Token} {ts : List Token} (h : Stands maxDigits (t :: ts) c d) :
    c.current = t := by
  obtain ⟨read, heq, -⟩ := h.moves
  exact (List.cons.inj heq).1.symm

/-- The token ahead is the second of those that stand between two cursors. -/
theorem Stands.peek_eq {t u : Token} {ts : List Token} (h : Stands maxDigits (t :: u :: ts) c d) :
    c.peek = u := by
  obtain ⟨read, heq, hm⟩ := h.moves
  obtain ⟨-, rfl⟩ := List.cons.inj heq
  exact hm.peek_eq

/-- A single token is all that stands between a cursor and itself. -/
theorem Stands.eq {t : Token} (h : Stands maxDigits [t] c d) : d = c := by
  obtain ⟨read, heq, hm⟩ := h.moves
  obtain ⟨-, rfl⟩ := List.cons.inj heq
  exact hm.eq

/-- An expression that stands between two cursors is read. -/
theorem Stands.expression {ts : List Token} {node : Node} (h : Stands maxDigits ts c d)
    (hp : Phrase.Within n (.expression Precedence.lowest) ts [node]) (hn : n < depth)
    (hk : d.peek.kind.precedence ≤ Precedence.lowest) (findings : List Finding) :
    expression maxDigits depth Precedence.lowest ⟨c, findings⟩ = .ok node ⟨d, findings⟩ := by
  obtain ⟨read, rfl, hm⟩ := h.moves
  exact (hp.takesIn maxDigits).run (by decide) rfl h.ready hm h.readable hn hk

theorem Stands.expectNamed {kind : Kind} {t u : Token} {ts : List Token}
    (h : Stands maxDigits (t :: u :: ts) c d) (hu : u.kind = kind) (hn : kind ≠ .endOfLine)
    (what : String) (findings : List Finding) :
    Parse.expectNamed kind what ⟨c, findings⟩ = .ok u ⟨c.advance, findings⟩ := by
  have hcur := (h.next (by rw [hu]; exact hn)).current_eq
  rw [← hcur]
  exact expectNamed_run what (by rw [h.peek_eq]; exact hu)

/-! ## Statements without a brace -/

theorem initializer_run {name : Token} {ts : List Token} {zero value : Node}
    (h : Stands maxDigits (name :: ts) c d) (hi : InitializerPhrase.Within n zero ts value)
    (hlevels : n < depth) (hk : d.peek.kind.isTerminator) :
    initializer (expression maxDigits depth Precedence.lowest) zero ⟨c, findings⟩ =
      .ok value ⟨d, findings⟩ := by
  rw [← Outcome.run_iff]
  unfold initializer
  simp only [Outcome.bind_iff, atEnd_iff]
  cases hi with
  | none =>
    rw [h.eq] at hk ⊢
    simp [hk]
  | @some assign gap ts value ha hg hp =>
    have hne : assign.kind ≠ .endOfLine := by rw [ha]; decide
    have hpeek : c.peek.kind.isTerminator = false := by rw [h.peek_eq, ha]; rfl
    obtain ⟨u, us, rfl, hu⟩ := hp.phrase.exists_cons (by simp)
    have hex := ((h.next hne).skip hg (Kind.ne_endOfLine_of_startsExpression hu)).expression hp hlevels
      (Kind.precedence_of_isTerminator hk).le findings
    simp only [hpeek, Bool.false_eq_true, if_false, Outcome.bind_iff]
    simp only [expect, Outcome.iff_of_ok (h.expectNamed ha (by decide) _ _), advance_iff,
      Outcome.iff_of_ok hex, and_self]

theorem declaration_run {keyword name : Token} {type : BasicType} {ts : List Token} {value : Node}
    (h : Stands maxDigits (keyword :: name :: ts) c d) (hn : name.kind = .ident)
    (hi : InitializerPhrase.Within n (.zero type) ts value) (hlevels : n < depth)
    (hk : d.peek.kind.isTerminator) :
    declaration (expression maxDigits depth Precedence.lowest) type ⟨c, findings⟩ =
      .ok (.declare keyword type name.toIdent value) ⟨d, findings⟩ := by
  have hinit : initializer (expression maxDigits depth Precedence.lowest) (.zero type)
      ⟨c.advance, findings⟩ = .ok value ⟨d, findings⟩ :=
    initializer_run (h.next (by rw [hn]; decide)) hi hlevels hk
  rw [← Outcome.run_iff]
  unfold declaration declaredName
  simp only [Outcome.bind_iff, current_iff, Outcome.iff_of_ok (h.expectNamed hn (by decide) _ _),
    Outcome.pure_iff, Outcome.iff_of_ok hinit, h.current_eq, Token.toIdent, and_self]

theorem arrayDeclaration_run {keyword opening closing name : Token} {ts : List Token} {value : Node}
    (h : Stands maxDigits (keyword :: opening :: closing :: name :: ts) c d)
    (ho : opening.kind = .lbrack) (hc : closing.kind = .rbrack) (hn : name.kind = .ident)
    (hi : InitializerPhrase.Within n .emptyArray ts value) (hlevels : n < depth)
    (hk : d.peek.kind.isTerminator) :
    arrayDeclaration (expression maxDigits depth Precedence.lowest) ⟨c, findings⟩ =
      .ok (.declareArray keyword keyword.text name.toIdent value) ⟨d, findings⟩ := by
  have h₁ := h.next (by rw [ho]; decide)
  have h₂ := h₁.next (by rw [hc]; decide)
  have hinit : initializer (expression maxDigits depth Precedence.lowest) .emptyArray
      ⟨c.advance.advance.advance, findings⟩ = .ok value ⟨d, findings⟩ :=
    initializer_run (h₂.next (by rw [hn]; decide)) hi hlevels hk
  rw [← Outcome.run_iff]
  unfold arrayDeclaration declaredName expect
  simp only [Outcome.bind_iff, current_iff, Outcome.iff_of_ok (h.expectNamed ho (by decide) _ _),
    Outcome.iff_of_ok (h₁.expectNamed hc (by decide) _ _),
    Outcome.iff_of_ok (h₂.expectNamed hn (by decide) _ _), Outcome.pure_iff,
    Outcome.iff_of_ok hinit, h.current_eq, Token.toIdent, and_self]

theorem definition_run {name define leading : Token} {type : BasicType} {gap ts : List Token}
    {value : Node} (h : Stands maxDigits (name :: define :: (gap ++ leading :: ts)) c d)
    (hd : define.kind = .define) (hg : IsNewlines gap)
    (hl : BasicType.ofLeading? leading.kind = some type)
    (hp : Phrase.Within n (.expression Precedence.lowest) (leading :: ts) [value])
    (hlevels : n < depth) (hk : d.peek.kind.isTerminator) :
    definition (expression maxDigits depth Precedence.lowest) ⟨c, findings⟩ =
      .ok (.declare (type.keywordAt define) type name.toIdent value) ⟨d, findings⟩ := by
  obtain ⟨u, us, heq, hu⟩ := hp.phrase.exists_cons (by simp)
  obtain ⟨rfl, rfl⟩ := List.cons.inj heq
  have h₁ := h.next (by rw [hd]; decide)
  have h₂ := h₁.skip hg (Kind.ne_endOfLine_of_startsExpression hu)
  have hex := h₂.expression hp hlevels (Kind.precedence_of_isTerminator hk).le findings
  have hne : leading.kind ≠ .lbrack := by
    intro hb
    rw [hb] at hl
    cases hl
  rw [← Outcome.run_iff]
  unfold definition
  simp only [Outcome.bind_iff, current_iff, advance_iff, h.current_eq, h₁.current_eq,
    h₂.current_eq, Token.is, beq_iff_eq, hne, if_false, hl, Outcome.iff_of_ok hex,
    Outcome.pure_iff, Token.toIdent, BasicType.keywordAt, and_self]

theorem arrayDefinition_run {name define opening closing : Token} {gap ts : List Token}
    {nodes : List Node}
    (h : Stands maxDigits (name :: define :: (gap ++ opening :: (ts ++ [closing]))) c d)
    (hd : define.kind = .define) (hg : IsNewlines gap) (ho : opening.kind = .lbrack)
    (hc : closing.kind = .rbrack) (hp : Phrase.Within n .list (unbroken ts) nodes)
    (hlevels : n < depth) (hk : d.peek.kind.isTerminator) :
    definition (expression maxDigits depth Precedence.lowest) ⟨c, findings⟩ =
      .ok (.declareArray ((BasicType.ofElements nodes).keywordAt define)
        (BasicType.ofElements nodes).spelling name.toIdent (.array opening nodes))
        ⟨d, findings⟩ := by
  have h₁ := h.next (by rw [hd]; decide)
  have h₂ := h₁.skip hg (by rw [ho]; decide)
  have harray : Phrase.Within n (.expression Precedence.lowest) (opening :: (ts ++ [closing]))
      [.array opening nodes] := .loosen (by decide) (.array ho hc hp)
  have hex := h₂.expression harray hlevels (Kind.precedence_of_isTerminator hk).le findings
  rw [← Outcome.run_iff]
  unfold definition
  simp only [Outcome.bind_iff, current_iff, advance_iff, h.current_eq, h₁.current_eq,
    h₂.current_eq, Token.is, ho, beq_self_eq_true, if_true, Outcome.iff_of_ok hex,
    Outcome.pure_iff, Token.toIdent, BasicType.keywordAt, and_self]

theorem bareReturn_run {keyword : Token} (h : Stands maxDigits [keyword] c d)
    (hk : d.peek.kind.isTerminator) :
    returnStatement (expression maxDigits depth Precedence.lowest) ⟨c, findings⟩ =
      .ok (.bareReturn keyword) ⟨d, findings⟩ := by
  rw [h.eq] at hk ⊢
  rw [← Outcome.run_iff]
  unfold returnStatement
  simp only [Outcome.bind_iff, current_iff, atEnd_iff, hk, if_true, Outcome.pure_iff, h.current_eq,
    and_self]

theorem returnValue_run {keyword : Token} {ts : List Token} {value : Node}
    (h : Stands maxDigits (keyword :: ts) c d)
    (hp : Phrase.Within n (.expression Precedence.lowest) ts [value]) (hlevels : n < depth)
    (hk : d.peek.kind.isTerminator) :
    returnStatement (expression maxDigits depth Precedence.lowest) ⟨c, findings⟩ =
      .ok (.returnValue keyword value) ⟨d, findings⟩ := by
  obtain ⟨u, us, rfl, hu⟩ := hp.phrase.exists_cons (by simp)
  have h₁ := h.next (Kind.ne_endOfLine_of_startsExpression hu)
  have hex := h₁.expression hp hlevels (Kind.precedence_of_isTerminator hk).le findings
  have hgo : c.peek.kind.isTerminator = false := by
    rw [h.peek_eq]
    exact Kind.not_isTerminator_of_startsExpression hu
  rw [← Outcome.run_iff]
  unfold returnStatement
  simp only [Outcome.bind_iff, current_iff, atEnd_iff, hgo, Bool.false_eq_true, if_false,
    advance_iff, Outcome.iff_of_ok hex, Outcome.pure_iff, h.current_eq, and_self]

theorem expressionStatement_run {first : Token} {ts : List Token} {value : Node}
    (h : Stands maxDigits (first :: ts) c d)
    (hp : Phrase.Within n (.expression Precedence.lowest) (first :: ts) [value])
    (hlevels : n < depth) (hk : d.peek.kind.isTerminator) :
    expressionStatement (expression maxDigits depth Precedence.lowest) ⟨c, findings⟩ =
      .ok (.expression first value) ⟨d, findings⟩ := by
  have hex := h.expression hp hlevels (Kind.precedence_of_isTerminator hk).le findings
  rw [← Outcome.run_iff]
  unfold expressionStatement
  simp only [Outcome.bind_iff, current_iff, Outcome.iff_of_ok hex, Outcome.pure_iff, h.current_eq,
    and_self]

/-- Where a simple statement has been read, its semicolon is taken in. -/
def ended (d : Cursor) : Cursor :=
  if d.peek.kind = .semicolon then d.advance else d

theorem simple_run {statement : Parse Node} {s : ParseState} {node : Node}
    (h : statement s = .ok node ⟨d, findings⟩) (hk : d.peek.kind.isTerminator) :
    simple statement s = .ok (some node) ⟨ended d, findings⟩ := by
  rw [← Outcome.run_iff]
  unfold simple endStatement ended
  simp only [Outcome.bind_iff, Outcome.iff_of_ok h, peek_iff]
  by_cases hs : d.peek.kind = .semicolon
  · simp [Token.is, hs]
  · simp [Token.is, hs, hk]

/-! ### Telling statements by their first tokens -/

section Dispatch
variable {ex : Parse Node} {nested : Parse (Option Node)} {ok : Option Node → ParseState → Prop}
  {halt : ParseHalt → ParseState → Prop}

theorem statementWith_of_type {type : BasicType}
    (ht : BasicType.ofKind? c.current.kind = some type) :
    Outcome (statementWith ex nested) ⟨c, findings⟩ ok halt ↔
      Outcome (simple (if c.peek.kind = .lbrack then arrayDeclaration ex else declaration ex type))
        ⟨c, findings⟩ ok halt := by
  unfold statementWith
  simp only [Outcome.bind_iff, current_iff]
  split
  all_goals try (next hk => rw [hk] at ht; cases ht)
  simp only [ht, Outcome.bind_iff, peekIs_iff, Token.is]
  by_cases hb : c.peek.kind = .lbrack
  · simp only [hb, beq_self_eq_true, if_true]
  · simp only [beq_iff_eq, hb, if_false]

theorem statementWith_of_return (hk : c.current.kind = .kwReturn) :
    Outcome (statementWith ex nested) ⟨c, findings⟩ ok halt ↔
      Outcome (simple (returnStatement ex)) ⟨c, findings⟩ ok halt := by
  unfold statementWith
  simp only [Outcome.bind_iff, current_iff, hk]

theorem statementWith_of_expression (hs : c.current.kind.startsExpression) :
    Outcome (statementWith ex nested) ⟨c, findings⟩ ok halt ↔
      Outcome (simple (if c.current.kind = .ident ∧ c.peek.kind = .define then definition ex
        else expressionStatement ex)) ⟨c, findings⟩ ok halt := by
  have hnone : BasicType.ofKind? c.current.kind = none := by
    revert hs
    cases c.current.kind <;> decide
  unfold statementWith
  simp only [Outcome.bind_iff, current_iff]
  split
  all_goals try (next hk => rw [hk] at hs; cases hs)
  simp only [hnone, Outcome.bind_iff, peekIs_iff, Token.is]
  by_cases hd : c.current.kind = .ident ∧ c.peek.kind = .define
  · simp only [hd, beq_self_eq_true, Bool.and_self, and_self, if_true]
  · simp only [Bool.and_eq_true, beq_iff_eq, hd, if_false]

end Dispatch

/-- **What the parser does with a simple statement** that stands between two cursors, if something that
ends it follows. -/
def RunsSimple (maxDigits n : Nat) (ts : List Token) (node : Node) : Prop :=
  ∀ (depth : Nat) (nested : Parse (Option Node)) (c d : Cursor) (findings : List Finding),
    Stands maxDigits ts c d → n ≤ depth → d.peek.kind.isTerminator →
    statementWith (expression maxDigits depth Precedence.lowest) nested ⟨c, findings⟩ =
      .ok (some node) ⟨ended d, findings⟩

theorem runsSimple_declare {keyword name : Token} {type : BasicType} {ts : List Token} {value : Node}
    (htype : BasicType.ofKind? keyword.kind = some type) (hname : name.kind = .ident)
    (hi : InitializerPhrase.Within n (.zero type) ts value) :
    RunsSimple maxDigits (n + 1) (keyword :: name :: ts)
      (.declare keyword type name.toIdent value) := by
  intro depth nested c d findings hs hn hk
  rw [← Outcome.run_iff, statementWith_of_type (by rw [hs.current_eq]; exact htype), hs.peek_eq, hname,
    if_neg (by decide), Outcome.run_iff]
  exact simple_run (declaration_run hs hname hi hn hk) hk

theorem runsSimple_declareArray {keyword opening closing name : Token} {ts : List Token}
    {value : Node} (htype : keyword.kind.isType) (ho : opening.kind = .lbrack)
    (hc : closing.kind = .rbrack) (hname : name.kind = .ident)
    (hi : InitializerPhrase.Within n .emptyArray ts value) :
    RunsSimple maxDigits (n + 1) (keyword :: opening :: closing :: name :: ts)
      (.declareArray keyword keyword.text name.toIdent value) := by
  intro depth nested c d findings hs hn hk
  obtain ⟨type, htype⟩ := BasicType.exists_ofKind? htype
  rw [← Outcome.run_iff, statementWith_of_type (by rw [hs.current_eq]; exact htype), hs.peek_eq, ho,
    if_pos rfl, Outcome.run_iff]
  exact simple_run (arrayDeclaration_run hs ho hc hname hi hn hk) hk

theorem runsSimple_define {name define leading : Token} {type : BasicType} {gap ts : List Token}
    {value : Node} (hname : name.kind = .ident) (hd : define.kind = .define) (hg : IsNewlines gap)
    (hl : BasicType.ofLeading? leading.kind = some type)
    (hp : Phrase.Within n (.expression Precedence.lowest) (leading :: ts) [value]) :
    RunsSimple maxDigits (n + 1) (name :: define :: (gap ++ leading :: ts))
      (.declare (type.keywordAt define) type name.toIdent value) := by
  intro depth nested c d findings hs hn hk
  rw [← Outcome.run_iff, statementWith_of_expression (by rw [hs.current_eq, hname]; rfl),
    hs.current_eq, hs.peek_eq, if_pos ⟨hname, hd⟩, Outcome.run_iff]
  exact simple_run (definition_run hs hd hg hl hp hn hk) hk

theorem runsSimple_defineArray {name define opening closing : Token} {gap ts : List Token}
    {nodes : List Node} (hname : name.kind = .ident) (hd : define.kind = .define)
    (hg : IsNewlines gap) (ho : opening.kind = .lbrack) (hc : closing.kind = .rbrack)
    (hp : Phrase.Within n .list (unbroken ts) nodes) :
    RunsSimple maxDigits (n + 1) (name :: define :: (gap ++ opening :: (ts ++ [closing])))
      (.declareArray ((BasicType.ofElements nodes).keywordAt define)
        (BasicType.ofElements nodes).spelling name.toIdent (.array opening nodes)) := by
  intro depth nested c d findings hs hn hk
  rw [← Outcome.run_iff, statementWith_of_expression (by rw [hs.current_eq, hname]; rfl),
    hs.current_eq, hs.peek_eq, if_pos ⟨hname, hd⟩, Outcome.run_iff]
  exact simple_run (arrayDefinition_run hs hd hg ho hc hp hn hk) hk

theorem runsSimple_bareReturn {keyword : Token} (hr : keyword.kind = .kwReturn) :
    RunsSimple maxDigits 0 [keyword] (.bareReturn keyword) := by
  intro depth nested c d findings hs _ hk
  rw [← Outcome.run_iff, statementWith_of_return (by rw [hs.current_eq]; exact hr), Outcome.run_iff]
  exact simple_run (bareReturn_run hs hk) hk

theorem runsSimple_returnValue {keyword : Token} {ts : List Token} {value : Node}
    (hr : keyword.kind = .kwReturn)
    (hp : Phrase.Within n (.expression Precedence.lowest) ts [value]) :
    RunsSimple maxDigits (n + 1) (keyword :: ts) (.returnValue keyword value) := by
  intro depth nested c d findings hs hn hk
  rw [← Outcome.run_iff, statementWith_of_return (by rw [hs.current_eq]; exact hr), Outcome.run_iff]
  exact simple_run (returnValue_run hs hp hn hk) hk

theorem runsSimple_expression {first : Token} {ts : List Token} {value : Node}
    (hp : Phrase.Within n (.expression Precedence.lowest) (first :: ts) [value]) :
    RunsSimple maxDigits (n + 1) (first :: ts) (.expression first value) := by
  intro depth nested c d findings hs hn hk
  obtain ⟨u, us, heq, hu⟩ := hp.phrase.exists_cons (by simp)
  obtain ⟨rfl, rfl⟩ := List.cons.inj heq
  -- The token ahead is no `:=`, whether it belongs to the expression or ends it.
  have hd : c.peek.kind ≠ .define := by
    cases ts with
    | nil =>
      rw [hs.eq] at hk
      intro hd
      rw [hd] at hk
      cases hk
    | cons v ts =>
      rw [hs.peek_eq]
      exact hp.phrase.ne_define v (by simp)
  rw [← Outcome.run_iff, statementWith_of_expression (by rw [hs.current_eq]; exact hu),
    if_neg fun h => hd h.2, Outcome.run_iff]
  exact simple_run (expressionStatement_run hs hp hn hk) hk

end Parse

end LimLang
