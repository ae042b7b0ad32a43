import LimLang.Proofs.Courses
import LimLang.Proofs.ParsedTrees
import LimLang.Proofs.TandemParsers

/-! # Every parser keeps to a course

Parser by parser, from integers to programs: on its way through a statement a parser takes strides
and passes blocks, and where it halts the statement is given up for a reason (`GivenUp`).  As in their
definitions, the parsers of nested expressions and statements are arguments, and the knots are tied
last.

Statements are only ever parsed outside of groups, from a cursor that stands as it should.
-/
namespace LimLang

/-- **On the way through a statement** that starts at `base`, with `groups` groups open. -/
structure OnPath (base : Cursor) (groups : Nat) (c : Cursor) (ds : List Drop) : Prop where
  path : Course .path base ds c
  groups_eq : c.groups = groups

/-- On the way through a statement, at a token that belongs to it. -/
structure Lands (base : Cursor) (groups : Nat) (c : Cursor) (ds : List Drop) : Prop extends
    OnPath base groups c ds where
  plain : c.current.kind.isPlain

/-- **The statement that starts at `base` is given up**, if the parser does not crash. -/
def GivenUp (base : Cursor) : ParseHalt → Cursor → List Drop → Option Finding → Prop
  | .malformed, c, ds, found => Course .failure base ds c ∧ c.Blames found
  | .crash _, _, _, _ => True

section Paths
variable {base c : Cursor} {groups : Nat} {ds : List Drop}

theorem Cursor.kind_current_advance {kind : Kind} (h : c.peek.kind = kind)
    (hk : kind ≠ .endOfLine) : c.advance.current.kind = kind := by
  subst h
  rw [current_advance_of_peek hk]

theorem OnPath.lands {kind : Kind} (h : OnPath base groups c ds) (hk : c.current.kind = kind)
    (hp : kind.isPlain) : Lands base groups c ds :=
  ⟨h, hk ▸ hp⟩

theorem Lands.advance (h : Lands base groups c ds) : OnPath base groups c.advance ds :=
  ⟨h.path.stride (.advance h.plain), (Cursor.advance_groups c).trans h.groups_eq⟩

theorem Lands.onto {kind : Kind} (h : Lands base groups c ds) (hk : c.peek.kind = kind)
    (hp : kind.isPlain) : Lands base groups c.advance ds := by
  refine h.advance.lands (Cursor.kind_current_advance hk ?_) hp
  rintro rfl
  cases hp

theorem Lands.openGroup (h : Lands base groups c ds)
    (hk : c.current.kind = .lparen ∨ c.current.kind = .lbrack) :
    Lands base (groups + 1) c.openGroup ds :=
  ⟨⟨h.path.stride (.openGroup hk), congrArg (· + 1) h.groups_eq⟩, h.plain⟩

theorem Lands.closeGroup (h : Lands base (groups + 1) c ds) : Lands base groups c.closeGroup ds := by
  refine ⟨⟨h.path.stride (.closeGroup ?_), congrArg (· - 1) h.groups_eq⟩, h.plain⟩
  rw [h.groups_eq]
  exact Nat.succ_ne_zero _

end Paths

namespace Parse

variable {α : Type} {base c : Cursor} {groups : Nat} {ds : List Drop}
  {ok : α → Cursor → List Drop → Prop}

/-- Giving up blames the current token or the one ahead, or a bracket before. -/
theorem reject_blames {halt : ParseHalt → Cursor → List Drop → Option Finding → Prop}
    {violation : Violation} {token : Token}
    (ht : token = c.current ∨ token = c.peek ∨ token.kind = .lbrack)
    (h : ∀ found, c.Blames found → halt .malformed c ds found) :
    Told (fun _ => (reject violation token : Parse α)) c ds ok halt := by
  by_cases hi : token.kind = .illegal
  · refine .inr ⟨.malformed, c, ds, none, fun note findings => ?_, h none ?_⟩
    · refine (reject_run violation token _).trans ?_
      rw [if_pos (by simp [Token.is, hi]), Option.toList_none, List.append_nil]
    · rcases ht with rfl | rfl | ht
      · exact .inl hi
      · exact .inr hi
      · rw [ht] at hi
        cases hi
  · refine .inr ⟨.malformed, c, ds, some ⟨violation, token⟩, fun note findings => ?_,
      h _ ⟨hi, ht⟩⟩
    refine (reject_run violation token _).trans ?_
    rw [if_neg (by simp [Token.is, hi]), Option.toList_some]

theorem reject_told {violation : Violation} {token : Token} (h : Course .path base ds c)
    (ht : token = c.current ∨ token = c.peek ∨ token.kind = .lbrack) :
    Told (fun _ => (reject violation token : Parse α)) c ds ok (GivenUp base) :=
  reject_blames ht fun _ hb => ⟨.stuck h, hb⟩

/-- A token that is expected is moved on to. -/
theorem expectNamed_told {kind : Kind} {what : String} (h : Lands base groups c ds)
    (hk : kind ≠ .endOfLine) :
    Told (fun _ => expectNamed kind what) c ds
      (fun _ d es => OnPath base groups d es ∧ d.current.kind = kind) (GivenUp base) := by
  unfold expectNamed
  rw [Told.peek_bind]
  refine .ite (fun hp => ?_) fun _ => reject_told h.path (.inr (.inl rfl))
  have hpeek : c.peek.kind = kind := by simpa [Token.is] using hp
  rw [Told.advance_bind]
  exact .inl ⟨c.advance.current, c.advance, ds, fun _ _ => rfl, h.advance,
    Cursor.kind_current_advance hpeek hk⟩

theorem expectNamed_lands {kind : Kind} {what : String} (h : Lands base groups c ds)
    (hk : kind.isPlain) :
    Told (fun _ => expectNamed kind what) c ds (fun _ => Lands base groups) (GivenUp base) := by
  have hline : kind ≠ .endOfLine := by
    rintro rfl
    cases hk
  exact (expectNamed_told h hline).mono (fun _ d es hd => hd.1.lands hd.2 hk) fun _ _ _ _ h => h

theorem expect_lands {kind : Kind} (h : Lands base groups c ds) (hk : kind.isPlain) :
    Told (fun _ => expect kind) c ds (fun _ => Lands base groups) (GivenUp base) :=
  expectNamed_lands h hk

/-! ## Expressions -/

theorem integer_told {maxDigits : Nat} (h : Lands base groups c ds) :
    Told (fun _ => integer maxDigits c.current) c ds (fun _ => Lands base groups)
      (GivenUp base) := by
  unfold integer
  dsimp only
  refine .ite (fun _ => .throw trivial) fun _ => ?_
  exact .ite (fun _ => reject_told h.path (.inl rfl)) fun _ => .pure h

/-- **What is asked of a parser of nested expressions.** -/
def TellsExpressions (ex : Nat → Parse Node) : Prop :=
  ∀ {base c : Cursor} {groups : Nat} {ds : List Drop} {floor : Nat}, Precedence.lowest ≤ floor →
    OnPath base groups c ds →
      Told (fun _ => ex floor) c ds (fun _ => Lands base groups) (GivenUp base)

section Expressions
variable {ex : Nat → Parse Node} (hex : TellsExpressions ex)
include hex

theorem laterItems_told (bound : Nat) (h : Lands base groups c ds) :
    Told (fun _ => laterItems (ex Precedence.lowest) bound) c ds (fun _ => Lands base groups)
      (GivenUp base) := by
  induction bound generalizing c ds with
  | zero => exact .pure h
  | succ bound ih =>
    unfold laterItems
    rw [Told.peekIs_bind]
    refine .ite (fun hk => ?_) fun _ => .pure h
    rw [Told.advance_bind, Told.advance_bind]
    have hcomma : c.peek.kind = .comma := by simpa [Token.is] using hk
    refine (hex (Nat.le_refl _) (h.onto hcomma rfl).advance).bind fun item d es hd => ?_
    exact (ih hd).bind fun items d es hd => .pure hd

theorem items_told {closer : Kind} (hp : closer.isPlain) (h : Lands base groups c ds)
    (hk : c.current.kind = .lparen ∨ c.current.kind = .lbrack) :
    Told (fun _ => items (ex Precedence.lowest) closer) c ds (fun _ => Lands base groups)
      (GivenUp base) := by
  have hopen := h.openGroup hk
  unfold items
  rw [Told.move_bind, Told.peekIs_bind]
  refine .ite (fun hc => ?_) fun _ => ?_
  · have hcloser : c.openGroup.peek.kind = closer := by simpa [Token.is] using hc
    rw [Told.move_bind, Told.advance_bind]
    exact .pure (hopen.closeGroup.onto hcloser hp)
  · rw [Told.advance_bind]
    refine (hex (Nat.le_refl _) hopen.advance).bind fun item d es hd => ?_
    rw [Told.remaining_bind]
    refine (laterItems_told hex _ hd).bind fun items d es hd => ?_
    rw [Told.move_bind]
    exact (expect_lands hd.closeGroup hp).bind fun _ d es hd => .pure hd

theorem grouped_told {closer : Kind} (hp : closer.isPlain) (h : Lands base groups c ds)
    (hk : c.current.kind = .lparen ∨ c.current.kind = .lbrack) :
    Told (fun _ => grouped (ex Precedence.lowest) closer) c ds (fun _ => Lands base groups)
      (GivenUp base) := by
  unfold grouped
  rw [Told.move_bind, Told.advance_bind]
  refine (hex (Nat.le_refl _) (h.openGroup hk).advance).bind fun value d es hd => ?_
  rw [Told.move_bind]
  exact (expect_lands hd.closeGroup hp).bind fun _ d es hd => .pure hd

theorem operand_told {maxDigits : Nat} (h : OnPath base groups c ds) :
    Told (fun _ => operand maxDigits ex) c ds (fun _ => Lands base groups) (GivenUp base) := by
  have hunary : ∀ make : Node → Node, Lands base groups c ds →
      Told (fun _ => do advance; return make (← ex Precedence.unary)) c ds (fun _ => Lands base groups)
        (GivenUp base) := by
    intro make hk
    rw [Told.advance_bind]
    exact (hex (by decide) hk.advance).bind fun _ d es hd => .pure hd
  unfold operand
  rw [Told.current_bind]
  cases hk : c.current.kind with
  | int => exact integer_told (h.lands hk rfl)
  | bang | minus | plus => exact hunary _ (h.lands hk rfl)
  | lparen => exact grouped_told hex rfl (h.lands hk rfl) (.inl hk)
  | lbrack =>
    exact (items_told hex rfl (h.lands hk rfl) (.inr hk)).bind fun _ d es hd => .pure hd
  | ident | string | kwTrue | kwFalse | kwNull => exact .pure (h.lands hk rfl)
  | _ => exact reject_told h.path (.inl rfl)

theorem continuation_told (left : Node) (h : Lands base groups c ds) :
    Told (fun _ => continuation ex left) c ds (fun _ => Lands base groups) (GivenUp base) := by
  have hbinary : ∀ make : Node → Node,
      Told (fun _ => do advance; return make (← ex c.current.kind.precedence)) c ds
        (fun _ => Lands base groups) (GivenUp base) := by
    intro make
    rw [Told.advance_bind]
    have hfloor : Precedence.lowest ≤ c.current.kind.precedence := by
      cases c.current.kind <;> decide
    exact (hex hfloor h.advance).bind fun _ d es hd => .pure hd
  unfold continuation
  rw [Told.current_bind]
  split
  · next hk => exact (items_told hex rfl h (.inl hk)).bind fun _ d es hd => .pure hd
  · next hk => exact (grouped_told hex rfl h (.inr hk)).bind fun _ d es hd => .pure hd
  · exact hbinary _

theorem climb_told {floor : Nat} (hf : Precedence.lowest ≤ floor) (bound : Nat) (left : Node)
    (h : Lands base groups c ds) :
    Told (fun _ => climb ex floor bound left) c ds (fun _ => Lands base groups) (GivenUp base) := by
  induction bound generalizing c ds left with
  | zero => exact .pure h
  | succ bound ih =>
    unfold climb
    rw [Told.peek_bind]
    refine .ite (fun hlt => ?_) fun _ => .pure h
    rw [Told.advance_bind]
    -- Only operators bind tighter than nothing.
    have hp : c.peek.kind.isPlain := by
      revert hlt
      cases c.peek.kind <;> first | exact fun _ => rfl | exact fun hlt => absurd hlt (Nat.not_lt.2 hf)
    exact (continuation_told hex left (h.onto rfl hp)).bind fun left d es hd => ih left hd

end Expressions

/-- **Every expression keeps to a path.** -/
theorem expression_told (maxDigits depth : Nat) : TellsExpressions (expression maxDigits depth) := by
  induction depth with
  | zero =>
    intro base c groups ds floor _ _
    exact .throw trivial
  | succ depth ih =>
    intro base c groups ds floor hf h
    unfold expression
    refine (operand_told ih h).bind fun left d es hd => ?_
    rw [Told.remaining_bind]
    exact climb_told ih hf _ left hd

/-! ## Simple statements -/

section Simple
variable {ex : Nat → Parse Node} (hex : TellsExpressions ex)

theorem declaredName_told (h : Lands base groups c ds) :
    Told (fun _ => declaredName) c ds (fun _ => Lands base groups) (GivenUp base) := by
  unfold declaredName
  exact (expectNamed_lands h rfl).bind fun token d es hd => .pure hd

include hex

theorem initializer_told (zero : Node) (h : Lands base groups c ds) :
    Told (fun _ => initializer (ex Precedence.lowest) zero) c ds (fun _ => Lands base groups)
      (GivenUp base) := by
  unfold initializer
  rw [Told.atEnd_bind]
  refine .ite (fun _ => .pure h) fun _ => ?_
  refine (expect_lands h rfl).bind fun _ d es hd => ?_
  rw [Told.advance_bind]
  exact hex (Nat.le_refl _) hd.advance

theorem declaration_told (type : BasicType) (h : Lands base groups c ds) :
    Told (fun _ => declaration (ex Precedence.lowest) type) c ds (fun _ => Lands base groups)
      (GivenUp base) := by
  unfold declaration
  rw [Told.current_bind]
  refine (declaredName_told h).bind fun name d es hd => ?_
  exact (initializer_told hex _ hd).bind fun value d es hd => .pure hd

theorem arrayDeclaration_told (h : Lands base groups c ds) :
    Told (fun _ => arrayDeclaration (ex Precedence.lowest)) c ds (fun _ => Lands base groups)
      (GivenUp base) := by
  unfold arrayDeclaration
  rw [Told.current_bind]
  refine (expect_lands h rfl).bind fun _ d es hd => ?_
  refine (expect_lands hd rfl).bind fun _ d es hd => ?_
  refine (declaredName_told hd).bind fun name d es hd => ?_
  exact (initializer_told hex _ hd).bind fun value d es hd => .pure hd

theorem definition_told (h : Lands base groups c ds) (hd : c.peek.kind = .define) :
    Told (fun _ => definition (ex Precedence.lowest)) c ds (fun _ => Lands base groups)
      (GivenUp base) := by
  have hvalue := (h.onto hd rfl).advance
  unfold definition
  rw [Told.current_bind, Told.advance_bind, Told.current_bind, Told.advance_bind, Told.current_bind]
  refine .ite (fun hk => ?_) fun _ => ?_
  · refine (hex (Nat.le_refl _) hvalue).bind fun value d es hd => ?_
    split
    · exact .pure hd
    · exact reject_told hd.path (.inr (.inr (by simpa [Token.is] using hk)))
  · split
    · exact (hex (Nat.le_refl _) hvalue).bind fun value d es hd => .pure hd
    · exact reject_told hvalue.path (.inl rfl)

theorem returnStatement_told (h : Lands base groups c ds) :
    Told (fun _ => returnStatement (ex Precedence.lowest)) c ds (fun _ => Lands base groups)
      (GivenUp base) := by
  unfold returnStatement
  rw [Told.current_bind, Told.atEnd_bind]
  refine .ite (fun _ => .pure h) fun _ => ?_
  rw [Told.advance_bind]
  exact (hex (Nat.le_refl _) h.advance).bind fun value d es hd => .pure hd

theorem expressionStatement_told (h : OnPath base groups c ds) :
    Told (fun _ => expressionStatement (ex Precedence.lowest)) c ds (fun _ => Lands base groups)
      (GivenUp base) := by
  unfold expressionStatement
  rw [Told.current_bind]
  exact (hex (Nat.le_refl _) h).bind fun value d es hd => .pure hd

end Simple

theorem endStatement_told (h : Lands base groups c ds) :
    Told (fun _ => endStatement) c ds (fun _ => Lands base groups) (GivenUp base) := by
  unfold endStatement
  rw [Told.peek_bind]
  refine .ite (fun hk => .advance ?_) fun _ => ?_
  · have hsemicolon : c.peek.kind = .semicolon := by simpa [Token.is] using hk
    exact h.onto hsemicolon rfl
  · exact .ite (fun _ => reject_told h.path (.inr (.inl rfl))) fun _ => .pure h

theorem typeName_told (h : Lands base groups c ds) :
    Told (fun _ => typeName) c ds (fun _ => Lands base groups) (GivenUp base) := by
  unfold typeName
  rw [Told.current_bind, Told.peekIs_bind]
  refine .ite (fun hk => ?_) fun _ => .pure h
  have hbracket : c.peek.kind = .lbrack := by simpa [Token.is] using hk
  rw [Told.advance_bind]
  exact (expect_lands (h.onto hbracket rfl) rfl).bind fun _ d es hd => .pure hd

theorem laterParameters_told (bound : Nat) (h : Lands base groups c ds) :
    Told (fun _ => laterParameters bound) c ds (fun _ => Lands base groups) (GivenUp base) := by
  induction bound generalizing c ds with
  | zero => exact .pure h
  | succ bound ih =>
    have hfirst := h.advance
    unfold laterParameters
    rw [Told.advance_bind, Told.current_bind]
    refine .ite (fun ht => ?_) fun _ => reject_told hfirst.path (.inl rfl)
    refine (typeName_told ⟨hfirst, Kind.isPlain_of_isType ht⟩).bind fun type d es hd => ?_
    refine (expectNamed_lands hd rfl).bind fun token d es hd => ?_
    dsimp only
    rw [Told.peekIs_bind]
    refine .ite (fun hk => ?_) fun _ => .pure hd
    have hcomma : d.peek.kind = .comma := by simpa [Token.is] using hk
    rw [Told.advance_bind]
    exact (ih (hd.onto hcomma rfl)).bind fun parameters d es hd => .pure hd

theorem parameters_told (h : Lands base groups c ds) (hk : c.current.kind = .lparen) :
    Told (fun _ => parameters) c ds (fun _ => Lands base groups) (GivenUp base) := by
  have hopen := h.openGroup (.inl hk)
  unfold parameters
  rw [Told.move_bind, Told.peekIs_bind]
  refine .ite (fun hc => ?_) fun _ => ?_
  · have hcloser : c.openGroup.peek.kind = .rparen := by simpa [Token.is] using hc
    rw [Told.move_bind, Told.advance_bind]
    exact .pure (hopen.closeGroup.onto hcloser rfl)
  · rw [Told.remaining_bind]
    refine (laterParameters_told _ hopen).bind fun parameters d es hd => ?_
    rw [Told.move_bind]
    exact (expect_lands hd.closeGroup rfl).bind fun _ d es hd => .pure hd

theorem resultType_told (h : Lands base groups c ds) :
    Told (fun _ => resultType) c ds (fun _ => Lands base groups) (GivenUp base) := by
  have htype : ∀ {d : Cursor} {es : List Drop}, Lands base groups d es →
      Told (fun _ => do if (← peek).kind.isType then advance; return some (← typeName) else return none)
        d es (fun _ => Lands base groups) (GivenUp base) := by
    intro d es hd
    rw [Told.peek_bind]
    refine .ite (fun ht => ?_) fun _ => .pure hd
    rw [Told.advance_bind]
    exact (typeName_told (hd.onto rfl (Kind.isPlain_of_isType ht))).bind fun _ d es hd => .pure hd
  unfold resultType
  rw [Told.peekIs_bind]
  refine .ite (fun hk => ?_) fun _ => htype h
  have harrow : c.peek.kind = .arrow := by simpa [Token.is] using hk
  have hd := h.onto harrow rfl
  rw [Told.advance_bind, Told.peek_bind]
  refine .ite (fun _ => ?_) fun _ => htype hd
  exact (reject_told hd.path (.inr (.inl rfl))).bind
    fun _ d es (hd : Lands base groups d es) => htype hd

/-! ## Lists of statements -/

/-- **A statement has been passed.**  Only an empty one has no result. -/
def HasPassed (base : Cursor) (result : Option Node) (c : Cursor) (ds : List Drop) : Prop :=
  Course .statement base ds c ∧ (result = none → c.current.kind = .semicolon)

/-- A statement has been given up, and a note was made of it. -/
def HasDropped (base : Cursor) : ParseHalt → Cursor → List Drop → Option Finding → Prop
  | .malformed, c, ds, found => found = none ∧ ∃ before cause,
      ds = before ++ [⟨{ c with groups := base.groups }, cause⟩] ∧
        Course .failure base before c ∧ c.Blames cause
  | .crash _, _, _, _ => True

/-- **What is asked of a parser of nested statements**, with notes. -/
def TellsStatements (statement : Note → Parse (Option Node)) : Prop :=
  ∀ {c : Cursor}, c.Ready → c.groups = 0 → Told statement c [] (HasPassed c) (HasDropped c)

theorem noting_told {statement : Note → Parse (Option Node)}
    (h : Told statement c [] (HasPassed c) (GivenUp c)) :
    Told (fun note => noting note (statement note)) c [] (HasPassed c) (HasDropped c) := by
  rcases h with ⟨node, d, ds, hrun, h⟩ | ⟨⟨⟩ | crash, d, ds, found, hrun, h⟩
  · refine .inl ⟨node, d, ds, fun note findings => ?_, h⟩
    simp only [noting, hrun]
  · refine .inr ⟨.malformed, d, ds ++ [⟨{ d with groups := c.groups }, found⟩], none,
      fun note findings => ?_, rfl, ds, found, rfl, h⟩
    simp only [noting, hrun, Drop.record_append, Drop.record_singleton, Option.toList_none,
      List.append_nil, List.append_assoc]
  · refine .inr ⟨.crash crash, d, ds, found, fun note findings => ?_, trivial⟩
    simp only [noting, hrun]

/-- **How a statement is left behind**: it is passed, or what is left of it is skipped. -/
inductive Recovered (base : Cursor) : Option Node → Cursor → List Drop → Prop
  | passed {result : Option Node} {c : Cursor} {ds : List Drop} (h : HasPassed base result c ds) :
      Recovered base result c ds
  | dropped {c : Cursor} {ds : List Drop} {found : Option Finding}
      (h : Course .failure base ds c) (hb : c.Blames found) :
      Recovered base none ({ c with groups := base.groups } : Cursor).synchronize
        (ds ++ [⟨{ c with groups := base.groups }, found⟩])

theorem recovering_told {statement : Note → Parse (Option Node)}
    (h : Told statement c [] (HasPassed c) (HasDropped c)) :
    Told (fun note => recovering (statement note)) c [] (Recovered c) fun _ _ _ _ => True := by
  rcases h with ⟨node, d, ds, hrun, h⟩ | ⟨⟨⟩ | crash, d, ds, found, hrun, h⟩
  · refine .inl ⟨node, d, ds, fun note findings => ?_, .passed h⟩
    simp only [recovering, hrun]
  · obtain ⟨rfl, before, cause, rfl, hf, hb⟩ := h
    refine .inl ⟨none, _, _, fun note findings => ?_, .dropped hf hb⟩
    simp only [recovering, hrun, Option.toList_none, List.append_nil]
  · refine .inr ⟨crash, d, ds, found, fun note findings => ?_, trivial⟩
    simp only [recovering, hrun]

section Compound
variable {statement : Note → Parse (Option Node)} (hst : TellsStatements statement)
include hst

/-- **A list of statements keeps to a course.** -/
theorem statements_told {closes : Kind → Bool} (heof : closes .eof = true)
    (hsemicolon : closes .semicolon = false) (bound : Nat) (hc : c.Ready) (hg : c.groups = 0)
    (hb : c.ahead.length < bound) :
    Told (fun note => statements closes (statement note) bound) c []
      (fun _ d ds => Course (.body closes) c ds d) fun _ _ _ _ => True := by
  induction bound generalizing c with
  | zero => omega
  | succ bound ih =>
    unfold statements
    rw [Told.current_bind]
    refine .ite (fun hk => .pure (.done hk)) fun hk => ?_
    rw [Bool.not_eq_true] at hk
    have hne : c.current.kind ≠ .eof := by
      intro he
      rw [he, heof] at hk
      cases hk
    -- The rest of the list, from behind a statement that was left at `d`.
    have hrest : ∀ {d : Cursor} {ds : List Drop}, ParseState.Later ⟨c, []⟩ ⟨d, []⟩ →
        d.groups = c.groups →
        (∀ more e, Course (.body closes) d.advance more e → Course (.body closes) c (ds ++ more) e) →
        Told (fun note => statements closes (statement note) bound) d.advance ds
          (fun _ e es => Course (.body closes) c es e) fun _ _ _ _ => True := by
      intro d ds hl hgd hstep
      have hready : d.advance.Ready := hl.advance.ready
      have hlt : d.advance.ahead.length < c.ahead.length := hl.length_advance_lt hc hne
      have hzero : d.advance.groups = 0 := by rw [Cursor.advance_groups, hgd, hg]
      refine ((ih hready hzero (by omega)).frame ds).mono ?_ fun _ _ _ _ _ => trivial
      rintro _ e _ ⟨more, rfl, hbody⟩
      exact hstep more e hbody
    have hpassed : ∀ {node : Option Node} {d : Cursor} {ds : List Drop}, HasPassed c node d ds →
        Told (fun note => statements closes (statement note) bound) d.advance ds
          (fun _ e es => Course (.body closes) c es e) fun _ _ _ _ => True := fun h =>
      hrest (h.1.later hc hg) (h.1.groups_eq trivial)
        fun more e hbody => .next hk h.1 hbody
    refine (recovering_told (hst hc hg)).bind fun result d ds h => ?_
    cases result with
    | some node =>
      cases h with
      | passed h =>
        rw [Told.advance_bind]
        exact (hpassed h).bind fun nodes e es he => .pure he
    | none =>
      rw [Told.current_bind]
      cases h with
      | passed h =>
        refine .ite (fun hclose => ?_) fun _ => hpassed h
        rw [h.2 rfl, hsemicolon] at hclose
        cases hclose
      | @dropped d ds found h hb =>
        refine .ite (fun hclose => .pure (.last hk h hb hclose)) fun hclose => ?_
        rw [Bool.not_eq_true] at hclose
        refine hrest ((h.later hc hg).synchronize hg) (Cursor.synchronize_groups _)
          fun more e hbody => ?_
        rw [List.append_assoc]
        exact .skip hk h hb hclose hbody

/-- **A block is left**: its statements have been passed, and the groups around it are open again. -/
def LeavesBlock (base : Cursor) (ds : List Drop) (c : Cursor) (es : List Drop) : Prop :=
  ∃ more d, es = ds ++ more ∧ c = { d with groups := base.groups } ∧
    Course (.body Kind.closesBlock) ({ base with groups := 0 } : Cursor).advance more d

/-- A block has no end. -/
def Unclosed (base : Cursor) (ds : List Drop) :
    ParseHalt → Cursor → List Drop → Option Finding → Prop
  | .malformed, c, es, found =>
      LeavesBlock base ds c es ∧ c.current.kind = .eof ∧ c.Blames found
  | .crash _, _, _, _ => True

/-- **A block is left at a brace**, or there is none. -/
theorem block_leaves (hc : c.Ready) (ds : List Drop) :
    Told (fun note => block (statement note)) c ds
      (fun _ d es => LeavesBlock c ds d es ∧ d.current.kind = .rbrace) (Unclosed c ds) := by
  have hready : ({ c with groups := 0 } : Cursor).Ready :=
    ⟨hc.terminated, hc.current_ne, settle_zero _⟩
  show Told (fun note => Tandem.blockFrom (statement note) c.current c.groups) c ds _ _
  unfold Tandem.blockFrom
  rw [Told.move_bind, Told.advance_bind, Told.remaining_bind]
  have hbody := (statements_told hst (rfl : Kind.closesBlock .eof = true) rfl _ hready.advance
    (Cursor.advance_groups _) (Nat.lt_add_of_pos_right Nat.two_pos)).frame ds
  refine (Told.liftCrash (hbody.mono (fun _ _ _ h => h) fun _ _ _ _ _ => trivial)).bind ?_
  rintro nodes d _ ⟨more, rfl, hcourse⟩
  have hleaves : LeavesBlock c ds { d with groups := c.groups } (ds ++ more) :=
    ⟨more, d, rfl, rfl, hcourse⟩
  rw [Told.move_bind, Told.current_bind]
  refine .ite (fun hend => ?_) fun hend => ?_
  · have heof : d.current.kind = .eof := by simpa [Token.is] using hend
    exact reject_blames (.inl rfl) fun found hb => ⟨hleaves, heof, hb⟩
  · have hclose := hcourse.closes_of_body
    have hbrace : d.current.kind = .rbrace := by
      revert hclose hend
      cases hkd : d.current.kind <;> simp [Kind.closesBlock, Token.is, hkd]
    exact .pure ⟨hleaves, hbrace⟩

/-- **A block** on the way through a statement. -/
theorem block_told (hbase : base.Ready) (hg : base.groups = 0) (h : OnPath base 0 c ds)
    (hk : c.current.kind = .lbrace) :
    Told (fun note => block (statement note)) c ds
      (fun _ d es => ∃ more, es = ds ++ more ∧ Course .block c more d) (GivenUp base) := by
  have hungroup : ∀ {d : Cursor}, d.groups = 0 → ({ d with groups := 0 } : Cursor) = d := by
    intro d hd
    rw [← hd]
  -- Outside of groups there is nothing to open again.
  have hcourse : ∀ {d : Cursor} {es : List Drop}, LeavesBlock c ds d es →
      ∃ more, es = ds ++ more ∧ Course (.body Kind.closesBlock) c.advance more d := by
    rintro d es ⟨more, e, rfl, rfl, hbody⟩
    rw [hungroup h.groups_eq] at hbody
    have he := hbody.groups_eq trivial
    rw [Cursor.advance_groups, h.groups_eq] at he
    rw [h.groups_eq, hungroup he]
    exact ⟨more, rfl, hbody⟩
  refine (block_leaves hst (h.path.later hbase hg).ready ds).mono ?_ ?_
  · rintro _ d es ⟨hleaves, hbrace⟩
    obtain ⟨more, rfl, hbody⟩ := hcourse hleaves
    exact ⟨more, rfl, .block h.groups_eq hk hbody hbrace⟩
  · rintro (⟨⟩ | crash) d es found hhalt
    · obtain ⟨hleaves, heof, hb⟩ := hhalt
      obtain ⟨more, rfl, hbody⟩ := hcourse hleaves
      exact ⟨.unclosed h.path h.groups_eq hk hbody heof, hb⟩
    · trivial

/-- A block that ends a statement. -/
theorem block_ends (hbase : base.Ready) (hg : base.groups = 0) (h : OnPath base 0 c ds)
    (hk : c.current.kind = .lbrace) (make : Node → α) :
    Told (fun note => do return make (← block (statement note))) c ds
      (fun _ d es => Course .statement base es d) (GivenUp base) := by
  refine (block_told hst hbase hg h hk).bind ?_
  rintro body d _ ⟨more, rfl, hblock⟩
  exact .pure (.braced h.path (h.groups_eq.trans hg.symm) hblock)

theorem function_told (hbase : base.Ready) (hg : base.groups = 0) (h : Lands base 0 c ds) :
    Told (fun note => function (statement note)) c ds (fun _ d es => Course .statement base es d)
      (GivenUp base) := by
  unfold function
  rw [Told.current_bind]
  refine (expectNamed_lands h rfl).bind fun name d es hd => ?_
  refine (expectNamed_told hd (by decide)).bind fun _ d es hd => ?_
  refine (parameters_told (hd.1.lands hd.2 rfl) hd.2).bind fun parameters d es hd => ?_
  refine (resultType_told hd).bind fun result d es hd => ?_
  refine (expectNamed_told hd (by decide)).bind fun _ d es hd => ?_
  exact block_ends hst hbase hg hd.1 hd.2 _

/-- A chain of branches passes block after block. -/
theorem branches_told {ex : Nat → Parse Node} (hex : TellsExpressions ex) (hbase : base.Ready)
    (hg : base.groups = 0) (bound : Nat) (h : Lands base 0 c ds) :
    Told (fun note => branches (ex Precedence.lowest) (statement note) bound) c ds
      (fun _ d es => Course .statement base es d) (GivenUp base) := by
  induction bound generalizing c ds with
  | zero => exact .throw trivial
  | succ bound ih =>
    unfold branches
    rw [Told.current_bind, Told.advance_bind]
    refine (hex (Nat.le_refl _) h.advance).bind fun condition d es hd => ?_
    refine (expectNamed_told hd (by decide)).bind fun _ d es hd => ?_
    refine (block_told hst hbase hg hd.1 hd.2).bind ?_
    rintro body e _ ⟨more, rfl, hblock⟩
    rw [Told.peekIs_bind]
    refine .ite (fun helse => ?_) fun _ =>
      .pure (.braced hd.1.path (hd.1.groups_eq.trans hg.symm) hblock)
    have hpeek : e.peek.kind = .kwElse := by simpa [Token.is] using helse
    have hgroups : e.advance.groups = 0 := by
      rw [Cursor.advance_groups, hblock.groups_eq trivial, hd.1.groups_eq]
    have hpath : OnPath base 0 e.advance (es ++ more) := ⟨hd.1.path.pass hblock, hgroups⟩
    have hlands := hpath.lands (Cursor.kind_current_advance hpeek (by decide)) rfl
    rw [Told.advance_bind, Told.current_bind, Told.peek_bind]
    refine .ite (fun hk => ?_) fun _ => .ite (fun hk => ?_) fun _ => ?_
    · have hbrace : e.advance.peek.kind = .lbrace := by simpa [Token.is] using hk
      rw [Told.advance_bind]
      exact block_ends hst hbase hg hlands.advance
        (Cursor.kind_current_advance hbrace (by decide)) _
    · have hif : e.advance.peek.kind = .kwIf := by simpa [Token.is] using hk
      rw [Told.advance_bind]
      exact (ih (hlands.onto hif rfl)).bind fun rest d es hd => .pure hd
    · exact reject_told hlands.path (.inr (.inl rfl))

end Compound

theorem simple_told {x : Parse Node} (h : Told (fun _ => x) c [] (fun _ => Lands c 0) (GivenUp c))
    (hg : c.groups = 0) : Told (fun _ => simple x) c [] (HasPassed c) (GivenUp c) := by
  unfold simple
  refine h.bind fun node d ds hd => ?_
  refine (endStatement_told hd).bind fun _ d ds hd => .pure ⟨?_, by rintro ⟨⟩⟩
  exact .plain hd.path (hd.groups_eq.trans hg.symm) hd.plain

/-- A statement that no keyword of its own starts. -/
theorem otherwise_told {ex : Nat → Parse Node} (hex : TellsExpressions ex) (hg : c.groups = 0) :
    Told (fun _ =>
      match BasicType.ofKind? c.current.kind with
      | some type => do
          if ← peekIs .lbrack then simple (arrayDeclaration (ex Precedence.lowest))
          else simple (declaration (ex Precedence.lowest) type)
      | none => do
          if c.current.kind == .ident && (← peekIs .define) then
            simple (definition (ex Precedence.lowest))
          else simple (expressionStatement (ex Precedence.lowest))) c [] (HasPassed c)
      (GivenUp c) := by
  have hpath : OnPath c 0 c [] := ⟨.start c, hg⟩
  split
  · next type htype =>
    have hlands : Lands c 0 c [] := ⟨hpath, Kind.isPlain_of_isType (Kind.isType_of_ofKind? htype)⟩
    rw [Told.peekIs_bind]
    exact .ite (fun _ => simple_told (arrayDeclaration_told hex hlands) hg) fun _ =>
      simple_told (declaration_told hex type hlands) hg
  · rw [Told.peekIs_bind]
    refine .ite (fun hk => ?_) fun _ => simple_told (expressionStatement_told hex hpath) hg
    rw [Bool.and_eq_true, beq_iff_eq] at hk
    have hdefine : c.peek.kind = .define := by simpa [Token.is] using hk.2
    exact simple_told (definition_told hex (hpath.lands hk.1 rfl) hdefine) hg

/-- **One statement keeps to a course**, if those nested in it do. -/
theorem statementWith_told {ex : Nat → Parse Node} {statement : Note → Parse (Option Node)}
    (hex : TellsExpressions ex) (hst : TellsStatements statement) (hc : c.Ready)
    (hg : c.groups = 0) :
    Told (fun note => statementWith (ex Precedence.lowest) (statement note)) c [] (HasPassed c)
      (GivenUp c) := by
  have hpath : OnPath c 0 c [] := ⟨.start c, hg⟩
  have hsome : ∀ {x : Note → Parse Node},
      Told x c [] (fun _ d ds => Course .statement c ds d) (GivenUp c) →
        Told (fun note => do return some (← x note)) c [] (HasPassed c) (GivenUp c) := fun h =>
    h.bind fun node d ds hd => .pure ⟨hd, by rintro ⟨⟩⟩
  have hother := otherwise_told hex hg
  unfold statementWith
  rw [Told.current_bind]
  cases hk : c.current.kind with
  | illegal => exact .throw ⟨.stuck hpath.path, .inl hk⟩
  | semicolon => exact .pure ⟨.plain hpath.path rfl (by rw [hk]; rfl), fun _ => hk⟩
  | kwFloat | kwConst | kwStruct => exact reject_told hpath.path (.inl rfl)
  | kwFn => exact hsome (function_told hst hc hg (hpath.lands hk rfl))
  | kwIf =>
    rw [Told.remaining_bind]
    exact hsome (branches_told hst hex hc hg _ (hpath.lands hk rfl))
  | kwReturn => exact simple_told (returnStatement_told hex (hpath.lands hk rfl)) hg
  | _ =>
    rw [hk] at hother
    exact hother

/-- **Every statement keeps to a course.** -/
theorem notedStatement_told (maxDigits depth : Nat) :
    TellsStatements fun note => notedStatement note maxDigits depth := by
  induction depth with
  | zero =>
    intro c _ _
    exact .throw trivial
  | succ depth ih =>
    intro c hc hg
    exact noting_told (statementWith_told (expression_told maxDigits depth) ih hc hg)

/-- **Every program keeps to a course.** -/
theorem notedProgram_told (limits : Limits) (hc : c.Ready) (hg : c.groups = 0) :
    Told (fun note => notedProgram note limits) c []
      (fun _ d ds => Course (.body Kind.closesProgram) c ds d) fun _ _ _ _ => True := by
  unfold notedProgram
  rw [Told.remaining_bind]
  refine (statements_told (notedStatement_told _ _) rfl rfl _ hc hg ?_).bind
    fun nodes d ds hd => .pure hd
  exact Nat.lt_add_of_pos_right Nat.two_pos

end Parse

end LimLang
