import LimLang.Proofs.Acceptance
import LimLang.Proofs.Following
import LimLang.Proofs.LooseTokens
import LimLang.Proofs.TandemParsers

/-! # Parsing past newlines inside groups

Two lists of tokens that are the same but for newlines inside groups are parsed side by side.  If nothing
is found wrong with the first, the parser makes the same of the second (`Parse.program_loosened`).

The first run is followed (`Follows`), and parser by parser it is said where the cursors stand when it
starts and when it is done: an expression starts at a token in front of which as many groups are open as
the cursor has counted, and is done behind a token where they are again.
-/
namespace LimLang

open Cursor (InStep AtRest AtOpening AtStart AtClosing)

variable {α : Type}

namespace Parse

variable {groups : Nat} {kind : Kind} {pre post : Cursor → Cursor → Prop}

/-! ## Brackets and tokens between them -/

theorem expectNamed_follows (what : String) (hb : kind.isBoundary = false)
    (hshift : kind.shift groups = groups) (htype : kind.isType = false) :
    Follows (InStep groups groups) (AtRest groups) (expectNamed kind what) (expectNamed kind what) :=
  .expectNamed what (fun _ _ h => h.peek_eq id) (fun _ _ h => h.legal_peek)
    (fun _ _ h => h.current_eq) fun _ _ h hpeek => h.advance_rest hpeek hb hshift htype

theorem expect_follows (hb : kind.isBoundary = false) (hshift : kind.shift groups = groups)
    (htype : kind.isType = false) :
    Follows (InStep groups groups) (AtRest groups) (expect kind) (expect kind) :=
  expectNamed_follows _ hb hshift htype

theorem advance_follows :
    Follows (AtRest groups) (AtStart groups) (advance : Parse Unit) advance :=
  .advance fun _ _ h => h.advance

theorem advance_rest_follows (hb : kind.isBoundary = false) (hshift : kind.shift groups = groups)
    (htype : kind.isType = false) :
    Follows (fun c d => AtRest groups c d ∧ c.peek.kind = kind) (AtRest groups)
      (advance : Parse Unit) advance :=
  .advance fun _ _ h => h.1.toInStep.advance_rest h.2 hb hshift htype

theorem openGroup_follows :
    Follows (AtOpening groups) (AtRest (groups + 1)) (move Cursor.openGroup : Parse Unit)
      (move Cursor.openGroup) :=
  .move (fun _ => (List.dropWhile_sublist _).length_le) fun _ _ h => h.openGroup

/-- The end of a group that holds something. -/
theorem close_follows (hkind : kind = .rparen ∨ kind = .rbrack) (a : α) :
    Follows (AtRest (groups + 1)) (AtRest groups)
      (do move Cursor.closeGroup; let _ ← expect kind; return a : Parse α)
      (do move Cursor.closeGroup; let _ ← expect kind; return a : Parse α) := by
  have hclose : Follows (AtRest (groups + 1)) (AtClosing groups)
      (move Cursor.closeGroup : Parse Unit) (move Cursor.closeGroup) :=
    .move (fun _ => Nat.le_refl _) fun _ _ h => h.toInStep.closeGroup
  have hexpect : Follows (AtClosing groups) (AtRest groups) (expect kind) (expect kind) :=
    .expectNamed _ (fun _ _ h => h.peek_eq) (fun _ _ h => h.legal_peek) (fun _ _ h => h.current_eq)
      fun _ _ h => h.advance hkind
  exact hclose.bind fun _ => hexpect.bind fun _ => .pure a

/-- The end of a group that holds nothing. -/
theorem closeEmpty_follows (hkind : kind = .rparen ∨ kind = .rbrack) (a : α) :
    Follows (fun c d => AtRest (groups + 1) c d ∧ c.peek.kind = kind) (AtRest groups)
      (do move Cursor.closeGroup; advance; return a : Parse α)
      (do move Cursor.closeGroup; advance; return a : Parse α) := by
  have hclose : Follows (fun c d => AtRest (groups + 1) c d ∧ c.peek.kind = kind)
      (fun c d => AtClosing groups c d ∧ c.peek.kind = kind)
      (move Cursor.closeGroup : Parse Unit) (move Cursor.closeGroup) :=
    .move (fun _ => Nat.le_refl _) fun _ _ h => ⟨h.1.toInStep.closeGroup, h.2⟩
  have hadvance : Follows (fun c d => AtClosing groups c d ∧ c.peek.kind = kind) (AtRest groups)
      (advance : Parse Unit) advance := .advance fun _ _ h => h.1.advance hkind h.2
  exact hclose.bind fun _ => hadvance.bind fun _ => .pure a

/-! ## Expressions -/

theorem integer_follows (maxDigits : Nat) {t : Token} (h : ∀ c d, pre c d → t.kind ≠ .illegal) :
    Follows pre pre (integer maxDigits t) (integer maxDigits t) := by
  unfold integer
  dsimp only
  split
  · exact .crash (by rintro ⟨⟩)
  · split
    · exact .reject h
    · exact .pure _

theorem laterItems_of_eof (ex : Parse Node) (n : Nat) {s : ParseState}
    (h : s.toCursor.peek.kind = .eof) : laterItems ex n s = .ok [] s := by
  cases n with
  | zero => rfl
  | succ n =>
    have hcomma : s.toCursor.peek.is .comma = false := by
      rw [Token.is, h]
      rfl
    show (if s.toCursor.peek.is .comma = true then _ else pure [] : Parse (List Node)) s = _
    rw [hcomma]
    rfl

theorem climb_of_eof (ex : Nat → Parse Node) {floor : Nat} (hfloor : Precedence.lowest ≤ floor)
    (n : Nat) (left : Node) {s : ParseState} (h : s.toCursor.peek.kind = .eof) :
    climb ex floor n left s = .ok left s := by
  cases n with
  | zero => rfl
  | succ n =>
    have hless : ¬ floor < s.toCursor.peek.kind.precedence := by
      rw [h]
      exact Nat.not_lt_of_le hfloor
    show (if floor < s.toCursor.peek.kind.precedence then _ else pure left : Parse Node) s = _
    rw [if_neg hless]
    rfl

theorem lowest_le_precedence (kind : Kind) : Precedence.lowest ≤ kind.precedence := by
  cases kind <;> decide

section Operators
variable (h : Precedence.lowest < kind.precedence)
include h

/-- What binds tighter than nothing is no newline and not the end. -/
theorem isBoundary_of_precedence : kind.isBoundary = false := by
  cases kind <;> first | rfl | exact absurd h (by decide)

/-- What binds tighter than nothing, but for brackets, opens and closes nothing. -/
theorem shift_of_precedence (hparen : kind ≠ .lparen) (hbrack : kind ≠ .lbrack) :
    kind.shift groups = groups ∧ kind.isType = false := by
  cases kind <;> first
    | exact ⟨rfl, rfl⟩
    | exact absurd h (by decide)
    | exact absurd rfl hparen
    | exact absurd rfl hbrack

end Operators

section Expressions
variable {ex : Nat → Parse Node}
  (hex : ∀ groups floor, Precedence.lowest ≤ floor →
    Follows (AtStart groups) (AtRest groups) (ex floor) (ex floor))
include hex

theorem laterItems_follows {n n' : Nat} (hle : n ≤ n') :
    Follows (fun c d => AtRest (groups + 1) c d ∧ c.ahead.length < n + 1) (AtRest (groups + 1))
      (laterItems (ex Precedence.lowest) n) (laterItems (ex Precedence.lowest) n') := by
  induction n generalizing n' with
  | zero =>
    refine (Follows.pure_of_run fun c d findings h => ?_).weaken fun c d h => h.1
    exact laterItems_of_eof _ _ (h.1.peek_eof h.2)
  | succ n ih =>
    obtain ⟨n', rfl⟩ : ∃ k, n' = k + 1 := ⟨n' - 1, by omega⟩
    unfold laterItems
    refine .peekIs_ite (fun c d h => h.1.peek_eq) _ ?_ ((Follows.pure _).weaken fun c d h => h.1)
    have hcomma : Follows
        (fun c d => (AtRest (groups + 1) c d ∧ c.ahead.length < n + 1 + 1) ∧ c.peek.kind = .comma)
        (fun c d => AtRest (groups + 1) c d ∧ c.ahead.length < n + 1) (advance : Parse Unit) advance :=
      .advance fun c d h => by
        have hless := h.1.1.ready.length_advance_of_peek h.2 rfl
        exact ⟨h.1.1.toInStep.advance_rest h.2 rfl rfl rfl, by omega⟩
    refine hcomma.bind fun _ => ?_
    refine (advance_follows.within _).bind fun _ => ?_
    refine ((hex _ _ (Nat.le_refl _)).within _).bind fun item => ?_
    exact (ih (by omega)).bind fun items => .pure _

theorem items_follows (hkind : kind = .rparen ∨ kind = .rbrack) :
    Follows (AtOpening groups) (AtRest groups) (items (ex Precedence.lowest) kind)
      (items (ex Precedence.lowest) kind) := by
  unfold items
  refine openGroup_follows.bind fun _ => ?_
  refine .peekIs_ite (fun c d h => h.peek_eq) _ (closeEmpty_follows hkind []) ?_
  refine advance_follows.bind fun _ => ?_
  refine (hex _ _ (Nat.le_refl _)).bind fun item => ?_
  refine .remaining_bind (fun c d h => h.length_le) fun n n' hle => ?_
  exact (laterItems_follows hex hle).bind fun items => close_follows hkind _

theorem grouped_follows (hkind : kind = .rparen ∨ kind = .rbrack) :
    Follows (AtOpening groups) (AtRest groups) (grouped (ex Precedence.lowest) kind)
      (grouped (ex Precedence.lowest) kind) := by
  unfold grouped
  refine openGroup_follows.bind fun _ => ?_
  refine advance_follows.bind fun _ => ?_
  exact (hex _ _ (Nat.le_refl _)).bind fun value => close_follows hkind _

/-- An operand that stands behind an operator. -/
theorem operandAfter_follows {floor : Nat} (hfloor : Precedence.lowest ≤ floor) (make : Node → Node) :
    Follows (AtRest groups) (AtRest groups) (do advance; return make (← ex floor))
      (do advance; return make (← ex floor)) :=
  advance_follows.bind fun _ => (hex _ _ hfloor).bind fun _ => .pure _

theorem operand_follows (maxDigits : Nat) :
    Follows (AtStart groups) (AtRest groups) (operand maxDigits ex) (operand maxDigits ex) := by
  unfold operand
  refine .current_bind (fun c d h => h.current_eq) fun t => ?_
  have hlegal : ∀ c d, AtStart groups c d ∧ c.current = t → t.kind ≠ .illegal := fun c d h =>
    h.2 ▸ h.1.legal _ List.mem_cons_self
  -- At a token that opens and closes nothing the cursors are at rest.
  have hrest : ∀ {kind : Kind}, t.kind = kind → kind.shift groups = groups → kind.isType = false →
      ∀ c d, AtStart groups c d ∧ c.current = t → AtRest groups c d := fun hk hshift htype c d h =>
    h.1.atRest (h.2 ▸ hk) hshift htype
  have hopening : ∀ {kind : Kind}, t.kind = kind → kind = .lparen ∨ kind = .lbrack →
      ∀ c d, AtStart groups c d ∧ c.current = t → AtOpening groups c d := fun hk hopens c d h =>
    h.1.atOpening (h.2 ▸ hk) hopens
  split
  · next hk => exact (Follows.pure _).weaken (hrest hk rfl rfl)
  · next hk => exact (integer_follows maxDigits hlegal).weaken (hrest hk rfl rfl)
  · next hk => exact (Follows.pure _).weaken (hrest hk rfl rfl)
  · next hk => exact (Follows.pure _).weaken (hrest hk rfl rfl)
  · next hk => exact (Follows.pure _).weaken (hrest hk rfl rfl)
  · next hk => exact (Follows.pure _).weaken (hrest hk rfl rfl)
  · next hk => exact (operandAfter_follows hex (by decide) _).strengthen (hrest hk rfl rfl)
  · next hk => exact (operandAfter_follows hex (by decide) _).strengthen (hrest hk rfl rfl)
  · next hk => exact (operandAfter_follows hex (by decide) _).strengthen (hrest hk rfl rfl)
  · next hk => exact (grouped_follows hex (.inl rfl)).strengthen (hopening hk (.inl rfl))
  · next hk =>
    refine ((items_follows hex (.inr rfl)).strengthen (hopening hk (.inr rfl))).bind fun items => ?_
    exact .pure _
  · exact .reject hlegal

theorem continuation_follows (left : Node) :
    Follows (fun c d => AtStart groups c d ∧ Precedence.lowest < c.current.kind.precedence)
      (AtRest groups) (continuation ex left) (continuation ex left) := by
  unfold continuation
  refine .current_bind (fun c d h => h.1.current_eq) fun t => ?_
  split
  · next hk =>
    refine ((items_follows hex (.inl rfl)).strengthen fun c d h => ?_).bind fun _ => .pure _
    exact h.1.1.atOpening (h.2 ▸ hk) (.inl rfl)
  · next hk =>
    refine ((grouped_follows hex (.inr rfl)).strengthen fun c d h => ?_).bind fun _ => .pure _
    exact h.1.1.atOpening (h.2 ▸ hk) (.inr rfl)
  · next hparen hbrack =>
    refine (operandAfter_follows hex (lowest_le_precedence _) _).strengthen fun c d h => ?_
    obtain ⟨⟨hstart, htight⟩, rfl⟩ := h
    have hshift : c.current.kind.shift groups = groups ∧ c.current.kind.isType = false :=
      shift_of_precedence htight hparen hbrack
    exact hstart.atRest rfl hshift.1 hshift.2

theorem climb_follows {floor n n' : Nat} (hfloor : Precedence.lowest ≤ floor) (hle : n ≤ n')
    (left : Node) :
    Follows (fun c d => AtRest groups c d ∧ c.ahead.length < n + 1) (AtRest groups)
      (climb ex floor n left) (climb ex floor n' left) := by
  induction n generalizing n' left with
  | zero =>
    refine (Follows.pure_of_run fun c d findings h => ?_).weaken fun c d h => h.1
    exact climb_of_eof _ hfloor _ _ (h.1.peek_eof h.2)
  | succ n ih =>
    obtain ⟨n', rfl⟩ : ∃ k, n' = k + 1 := ⟨n' - 1, by omega⟩
    unfold climb
    refine .peek_ite (fun c d h => h.1.peek_eq) (fun kind => floor < kind.precedence) ?_
      ((Follows.pure _).weaken fun c d h => h.1)
    have hoperator : Follows
        (fun c d => (AtRest groups c d ∧ c.ahead.length < n + 1 + 1) ∧ floor < c.peek.kind.precedence)
        (fun c d => (AtStart groups c d ∧ Precedence.lowest < c.current.kind.precedence) ∧
          c.ahead.length < n + 1) (advance : Parse Unit) advance :=
      .advance fun c d h => by
        obtain ⟨⟨hrest, hlength⟩, htight⟩ := h
        have htight := Nat.lt_of_le_of_lt hfloor htight
        have hb := isBoundary_of_precedence htight
        have hless := hrest.ready.length_advance_of_peek rfl hb
        rw [hrest.ready.kind_advance rfl hb]
        exact ⟨⟨hrest.advance, htight⟩, by omega⟩
    refine hoperator.bind fun _ => ?_
    refine ((continuation_follows hex left).within _).bind fun left => ?_
    exact ih (by omega) left

end Expressions

/-- **Expressions** are the same past newlines inside groups. -/
theorem expression_follows (maxDigits depth groups : Nat) {floor : Nat}
    (hfloor : Precedence.lowest ≤ floor) :
    Follows (AtStart groups) (AtRest groups) (expression maxDigits depth floor)
      (expression maxDigits depth floor) := by
  induction depth generalizing groups floor with
  | zero => exact .crash (by rintro ⟨⟩)
  | succ depth ih =>
    have hex := fun groups floor hfloor => @ih groups floor hfloor
    refine (operand_follows hex maxDigits).bind fun left => ?_
    exact .remaining_bind (fun c d h => h.length_le) fun n n' hle => climb_follows hex hfloor hle left

/-! ## Statements that end before a terminator -/

theorem isType_of_ofKind? {type : BasicType} (h : BasicType.ofKind? kind = some type) :
    kind.isType := by
  cases kind <;> first | rfl | cases h

theorem declaredName_follows : Follows (InStep 0 0) (AtRest 0) declaredName declaredName :=
  (expectNamed_follows _ rfl rfl rfl).bind fun _ => .pure _

theorem endStatement_follows : Follows (AtRest 0) (AtRest 0) endStatement endStatement := by
  unfold endStatement
  refine .peek_bind (fun c d h => h.peek_eq) fun t => ?_
  split
  · next hk =>
    have hadvance : Follows (fun c d => AtRest 0 c d ∧ c.peek.kind = .semicolon) (AtRest 0)
        (advance : Parse Unit) advance := advance_rest_follows rfl rfl rfl
    refine hadvance.strengthen fun c d h => ⟨h.1, ?_⟩
    rw [h.2]
    simpa [Token.is] using hk
  · split
    · exact .reject fun c d h => h.2 ▸ h.1.legal_peek
    · exact (Follows.pure _).weaken fun c d h => h.1

theorem simple_follows {x : Parse Node} (h : Follows pre (AtRest 0) x x) :
    Follows pre (AtRest 0) (simple x) (simple x) :=
  h.bind fun _ => endStatement_follows.bind fun _ => .pure _

section Simple
variable {ex : Parse Node} (hex : Follows (AtStart 0) (AtRest 0) ex ex)
include hex

theorem initializer_follows (zero : Node) :
    Follows (AtRest 0) (AtRest 0) (initializer ex zero) (initializer ex zero) := by
  unfold initializer
  refine .atEnd_ite (fun c d h => h.peek_eq) (.pure _) ?_
  have hassign : Follows (AtRest 0) (AtRest 0) (expect .assign) (expect .assign) :=
    (expect_follows rfl rfl rfl).strengthen fun c d h => h.toInStep
  exact hassign.bind fun _ => advance_follows.bind fun _ => hex

theorem declaration_follows (type : BasicType) :
    Follows (InStep 0 0) (AtRest 0) (declaration ex type) (declaration ex type) := by
  unfold declaration
  refine .current_bind (fun c d h => h.current_eq) fun t => ?_
  refine (declaredName_follows.strengthen fun c d h => h.1).bind fun name => ?_
  exact (initializer_follows hex _).bind fun _ => .pure _

theorem arrayDeclaration_follows :
    Follows (fun c d => InStep 0 0 c d ∧ c.current.kind.isType) (AtRest 0) (arrayDeclaration ex)
      (arrayDeclaration ex) := by
  unfold arrayDeclaration
  refine .current_bind (fun c d h => h.1.current_eq) fun t => ?_
  have hopen : Follows (fun c d => (InStep 0 0 c d ∧ c.current.kind.isType) ∧ c.current = t)
      (AtRest 0) (expect .lbrack) (expect .lbrack) :=
    .expectNamed _ (fun c d h => h.1.1.peek_eq id) (fun c d h => h.1.1.legal_peek)
      (fun c d h => h.current_eq) fun c d h => h.1.1.advance_type h.1.2
  have hclose : Follows (AtRest 0) (InStep 0 0) (expect .rbrack) (expect .rbrack) :=
    (expect_follows rfl rfl rfl).mono (fun c d h => h.toInStep) fun c d h => h.toInStep
  refine hopen.bind fun _ => hclose.bind fun _ => ?_
  refine declaredName_follows.bind fun name => ?_
  exact (initializer_follows hex _).bind fun _ => .pure _

theorem definition_follows :
    Follows (fun c d => AtRest 0 c d ∧ c.peek.kind = .define) (AtRest 0) (definition ex)
      (definition ex) := by
  unfold definition
  refine .current_bind (fun c d h => h.1.current_eq) fun t => ?_
  refine ((advance_rest_follows rfl rfl rfl).strengthen fun c d h => h.1).bind fun _ => ?_
  refine .current_bind (fun c d h => h.current_eq) fun define => ?_
  refine (advance_follows.strengthen fun c d h => h.1).bind fun _ => ?_
  refine .current_bind (fun c d h => h.current_eq) fun leading => ?_
  have hlegal : ∀ c d, AtStart 0 c d ∧ c.current = leading →
      AtStart 0 c d ∧ leading.kind ≠ .illegal := fun c d h =>
    ⟨h.1, h.2 ▸ h.1.legal _ List.mem_cons_self⟩
  dsimp only
  split
  · refine ((hex.frame _).strengthen hlegal).bind fun value => ?_
    cases value with
    | array opener elements => exact (Follows.pure _).weaken fun c d h => h.1
    | _ => exact .reject fun c d h => h.2
  · split
    · exact (hex.strengthen fun c d h => h.1).bind fun _ => .pure _
    · exact .reject fun c d h => (hlegal c d h).2

theorem returnStatement_follows :
    Follows (AtRest 0) (AtRest 0) (returnStatement ex) (returnStatement ex) := by
  unfold returnStatement
  refine .current_bind (fun c d h => h.current_eq) fun t => ?_
  refine (Follows.atEnd_ite (fun c d h => h.peek_eq) (.pure _) ?_).strengthen fun c d h => h.1
  exact advance_follows.bind fun _ => hex.bind fun _ => .pure _

theorem expressionStatement_follows :
    Follows (AtStart 0) (AtRest 0) (expressionStatement ex) (expressionStatement ex) := by
  unfold expressionStatement
  refine .current_bind (fun c d h => h.current_eq) fun t => ?_
  exact (hex.strengthen fun c d h => h.1).bind fun _ => .pure _

end Simple

/-! ## The signatures of functions -/

/-- A type with its brackets, which are a group of their own inside of another group only. -/
theorem typeName_follows :
    Follows (fun c d => InStep groups groups c d ∧ c.current.kind.isType) (InStep groups groups)
      typeName typeName := by
  obtain ⟨depth, hzero, hpos, hback, hstep⟩ : ∃ depth, (groups = 0 → depth = 0) ∧
      (groups ≠ 0 → depth ≠ 0) ∧ Kind.rbrack.shift depth = groups ∧
      ∀ c d, InStep groups groups c d → c.current.kind.isType → c.peek.kind = .lbrack →
        InStep groups depth c.advance d.advance := by
    cases groups with
    | zero =>
      exact ⟨0, fun _ => rfl, fun h => absurd rfl h, rfl, fun c d h htype hpeek =>
        (h.advance_type htype hpeek).toInStep⟩
    | succ groups =>
      refine ⟨groups + 2, fun h => (Nat.succ_ne_zero _ h).elim, fun _ => Nat.succ_ne_zero _, rfl,
        fun c d h _ hpeek => ?_⟩
      exact h.advance_to id hpeek rfl id fun _ hzero => (Nat.succ_ne_zero _ hzero).elim
  unfold typeName
  refine .current_bind (fun c d h => h.1.current_eq) fun t => ?_
  refine .peekIs_ite (fun c d h => h.1.1.peek_eq id) _ ?_ ((Follows.pure _).weaken fun c d h => h.1.1)
  have hopen : Follows (fun c d => ((InStep groups groups c d ∧ c.current.kind.isType) ∧
      c.current = t) ∧ c.peek.kind = .lbrack) (InStep groups depth) (advance : Parse Unit) advance :=
    .advance fun c d h => hstep c d h.1.1.1 h.1.1.2 h.2
  have hclose : Follows (InStep groups depth) (InStep groups groups) (expect .rbrack)
      (expect .rbrack) := by
    refine .expectNamed _ (fun c d h => h.peek_eq hzero) (fun c d h => h.legal_peek)
      (fun c d h => h.current_eq) fun c d h hpeek => ?_
    have hnext := h.advance_to hzero hpeek rfl hpos (by rintro ⟨⟩)
    rwa [hback] at hnext
  exact hopen.bind fun _ => hclose.bind fun _ => .pure _

theorem laterParameters_follows {n n' : Nat} (hle : n ≤ n') :
    Follows (fun c d => (AtRest 1 c d ∧ c.current.kind ≠ .eof) ∧ c.ahead.length < n) (AtRest 1)
      (laterParameters n) (laterParameters n') := by
  induction n generalizing n' with
  | zero => exact .never (.pure _) fun c d h => Nat.not_lt_zero _ h.2
  | succ n ih =>
    obtain ⟨n', rfl⟩ : ∃ k, n' = k + 1 := ⟨n' - 1, by omega⟩
    unfold laterParameters
    have hfirst : Follows
        (fun c d => (AtRest 1 c d ∧ c.current.kind ≠ .eof) ∧ c.ahead.length < n + 1)
        (fun c d => AtStart 1 c d ∧ c.ahead.length < n) (advance : Parse Unit) advance :=
      .advance fun c d h => by
        have hless := h.1.1.ready.length_advance_lt h.1.2
        exact ⟨h.1.1.advance, by omega⟩
    refine hfirst.bind fun _ => ?_
    refine .current_bind (fun c d h => h.1.current_eq) fun first => ?_
    split
    · next htype =>
      have hname : Follows
          (fun c d => (AtStart 1 c d ∧ c.ahead.length < n) ∧ c.current = first)
          (fun c d => InStep 1 1 c d ∧ c.ahead.length < n) typeName typeName :=
        (typeName_follows.within n).strengthen fun c d h => by
          obtain ⟨⟨hstart, hlength⟩, rfl⟩ := h
          exact ⟨⟨hstart.inStep rfl (Kind.shift_of_isType htype 1), htype⟩, hlength⟩
      refine hname.bind fun type => ?_
      refine ((expectNamed_follows _ rfl rfl rfl).within n).bind fun token => ?_
      refine .peekIs_ite (fun c d h => h.1.peek_eq) _ ?_ ((Follows.pure _).weaken fun c d h => h.1)
      have hcomma : Follows (fun c d => (AtRest 1 c d ∧ c.ahead.length < n) ∧ c.peek.kind = .comma)
          (fun c d => (AtRest 1 c d ∧ c.current.kind ≠ .eof) ∧ c.ahead.length < n)
          (advance : Parse Unit) advance :=
        .advance fun c d h => by
          have hless := h.1.1.ready.length_advance_of_peek h.2 rfl
          refine ⟨⟨h.1.1.toInStep.advance_rest h.2 rfl rfl rfl, ?_⟩, by omega⟩
          rw [h.1.1.ready.kind_advance h.2 rfl]
          decide
      exact hcomma.bind fun _ => (ih (by omega)).bind fun _ => .pure _
    · exact .reject fun c d h => h.2 ▸ h.1.1.legal _ List.mem_cons_self

theorem parameters_follows : Follows (AtOpening 0) (AtRest 0) parameters parameters := by
  unfold parameters
  have hopen : Follows (AtOpening 0) (fun c d => AtRest 1 c d ∧ c.current.kind ≠ .eof)
      (move Cursor.openGroup : Parse Unit) (move Cursor.openGroup) :=
    .move (fun _ => (List.dropWhile_sublist _).length_le) fun c d h => ⟨h.openGroup, by
      show c.current.kind ≠ .eof
      rcases h.opens with hopens | hopens <;> rw [hopens] <;> decide⟩
  refine hopen.bind fun _ => ?_
  refine .peekIs_ite (fun c d h => h.1.peek_eq) _ ?_ ?_
  · exact (closeEmpty_follows (.inl rfl) []).strengthen fun c d h => ⟨h.1.1, h.2⟩
  · refine .remaining_bind (fun c d h => h.1.length_le) fun n n' hle => ?_
    refine (laterParameters_follows (Nat.succ_le_succ hle)).bind fun names => ?_
    exact close_follows (.inl rfl) _

theorem resultType_follows : Follows (AtRest 0) (InStep 0 0) resultType resultType := by
  have htype : Follows (AtRest 0) (InStep 0 0)
      (do if (← peek).kind.isType then advance; return some (← typeName) else return none)
      (do if (← peek).kind.isType then advance; return some (← typeName) else return none) := by
    refine .peek_ite (fun c d h => h.peek_eq) (fun kind => kind.isType = true) ?_
      ((Follows.pure _).weaken fun c d h => h.toInStep)
    have hkeyword : Follows (fun c d => AtRest 0 c d ∧ c.peek.kind.isType = true)
        (fun c d => InStep 0 0 c d ∧ c.current.kind.isType) (advance : Parse Unit) advance :=
      .advance fun c d h => by
        obtain ⟨hrest, htype⟩ := h
        have hb := Kind.isBoundary_of_isType htype
        have hkind := hrest.ready.kind_advance rfl hb
        exact ⟨hrest.advance.inStep hkind (Kind.shift_of_isType htype 0), hkind ▸ htype⟩
    exact hkeyword.bind fun _ => typeName_follows.bind fun _ => .pure _
  unfold resultType
  refine .peekIs_ite (fun c d h => h.peek_eq) _ ?_ htype
  refine (advance_rest_follows rfl rfl rfl).bind fun _ => ?_
  refine .peek_bind (fun c d h => h.peek_eq) fun t => ?_
  split
  · have hrejected : Follows (fun c d => AtRest 0 c d ∧ c.peek = t) (AtRest 0)
        (reject (.resultType t) t : Parse Unit) (reject (.resultType t) t) :=
      .reject fun c d h => h.2 ▸ h.1.legal_peek
    exact hrejected.bind fun _ => htype
  · exact htype.strengthen fun c d h => h.1

/-! ## Statements with blocks -/

section Compound
variable {st : Parse (Option Node)} (hst : Follows (AtStart 0) (AtRest 0) st st)
include hst

theorem statements_follows {closes : Kind → Bool} (heof : closes .eof)
    (hcloses : ∀ kind, closes kind → kind.shift 0 = 0 ∧ kind.isType = false) {n n' : Nat}
    (hle : n ≤ n') :
    Follows (fun c d => AtStart 0 c d ∧ c.ahead.length < n) (AtRest 0) (statements closes st n)
      (statements closes st n') := by
  induction n generalizing n' with
  | zero => exact .never (.pure _) fun c d h => Nat.not_lt_zero _ h.2
  | succ n ih =>
    obtain ⟨n', rfl⟩ : ∃ k, n' = k + 1 := ⟨n' - 1, by omega⟩
    have hmore := @ih n' (by omega)
    unfold statements
    refine .current_bind (fun c d h => h.1.current_eq) fun t => ?_
    split
    · next hclosed =>
      obtain ⟨hshift, htype⟩ := hcloses _ hclosed
      exact (Follows.pure _).weaken fun c d h => h.1.1.atRest (congrArg Token.kind h.2) hshift htype
    next hopen =>
    -- Something is ahead of a token that is not the end, so the next step leaves less.
    have hstatement : Follows (fun c d => (AtStart 0 c d ∧ c.ahead.length < n + 1) ∧ c.current = t)
        (fun c d => (AtRest 0 c d ∧ c.ahead.length < n + 1) ∧ 0 < n) (recovering st)
        (recovering st) := by
      refine ((hst.recovering.within (n + 1)).frame (0 < n)).strengthen fun c d h => ?_
      refine ⟨h.1, ?_⟩
      by_contra hzero
      have hnil : c.ahead = [] := List.length_eq_zero_iff.1 (by omega)
      have hend := h.1.1.ready.current_eq_eof hnil
      rw [h.2] at hend
      rw [hend] at hopen
      exact hopen heof
    have hnext : Follows (fun c d => (AtRest 0 c d ∧ c.ahead.length < n + 1) ∧ 0 < n)
        (fun c d => AtStart 0 c d ∧ c.ahead.length < n) (advance : Parser Crash Unit) advance :=
      .advance fun c d h => by
        obtain ⟨⟨hrest, hlength⟩, hpos⟩ := h
        refine ⟨hrest.advance, ?_⟩
        by_cases hend : c.current.kind = .eof
        · rw [Cursor.advance_of_eof hrest.ready hend, hrest.ready.ahead_eq_nil hend]
          exact hpos
        · have hless := hrest.ready.length_advance_lt hend
          omega
    refine hstatement.bind fun result => ?_
    cases result with
    | some node => exact hnext.bind fun _ => hmore.bind fun _ => .pure _
    | none =>
      refine .current_bind (fun c d h => h.1.1.current_eq) fun u => ?_
      split
      · exact (Follows.pure _).weaken fun c d h => h.1.1.1
      · exact (hnext.strengthen fun c d h => h.1).bind fun _ => hmore

theorem blockStatements_follows {n n' : Nat} (hle : n ≤ n') :
    Follows (fun c d => AtStart 0 c d ∧ c.ahead.length < n) (AtRest 0)
      (liftCrash (statements Kind.closesBlock st n)) (liftCrash (statements Kind.closesBlock st n')) := by
  refine (statements_follows hst rfl (fun kind h => ?_) hle).liftCrash
  cases kind <;> first | exact ⟨rfl, rfl⟩ | cases h

theorem blockFrom_forward (token : Token) (groups : Nat) :
    Forward (Tandem.blockFrom st token groups) := by
  have hmove : ∀ {m : Cursor → Cursor}, (∀ c, (m c).ahead.length ≤ c.ahead.length) →
      Forward (move m : Parse Unit) := fun hm s => ⟨List.prefix_refl _, hm s.toCursor⟩
  have hstatements := fun n => (blockStatements_follows hst (Nat.le_refl n)).forward
  refine .bind (hmove fun _ => Nat.le_refl _) fun _ => ?_
  refine .bind (hmove Cursor.length_ahead_advance_le) fun _ => ?_
  refine .bind (fun s => ⟨List.prefix_refl _, Nat.le_refl _⟩) fun n => ?_
  refine (hstatements _).bind fun nodes => ?_
  refine .bind (hmove fun _ => Nat.le_refl _) fun _ => ?_
  refine .bind (fun s => ⟨List.prefix_refl _, Nat.le_refl _⟩) fun last => ?_
  split
  · exact .reject _ _
  · exact .pure _

theorem block_follows : Follows (AtRest 0) (AtRest 0) (block st) (block st) := by
  have hungroup : Follows (AtRest 0) (AtRest 0)
      (move fun c => { c with groups := 0 } : Parse Unit) (move fun c => { c with groups := 0 }) :=
    .move (fun _ => Nat.le_refl _) fun c d h => by
      rw [Cursor.ungroup_eq h.groups_eq, Cursor.ungroup_eq h.groups_eq']
      exact h
  have hfrom : ∀ token, Follows (AtRest 0) (AtRest 0) (Tandem.blockFrom st token 0)
      (Tandem.blockFrom st token 0) := by
    intro token
    unfold Tandem.blockFrom
    refine hungroup.bind fun _ => advance_follows.bind fun _ => ?_
    refine .remaining_bind (fun c d h => h.length_le) fun n n' hle => ?_
    have hnodes : Follows (fun c d => AtStart 0 c d ∧ c.ahead.length < n + 1) (AtRest 0)
        (liftCrash (statements Kind.closesBlock st (n + 2)))
        (liftCrash (statements Kind.closesBlock st (n' + 2))) :=
      (blockStatements_follows hst (by omega)).strengthen fun c d h => ⟨h.1, Nat.lt_succ_of_lt h.2⟩
    refine hnodes.bind fun nodes => hungroup.bind fun _ => ?_
    refine .current_bind (fun c d h => h.current_eq) fun last => ?_
    split
    · exact .reject fun c d h => h.2 ▸ h.1.legal _ List.mem_cons_self
    · exact (Follows.pure _).weaken fun c d h => h.1
  refine ⟨fun s => blockFrom_forward hst s.current s.groups s, fun {c d findings a t} hc hrun ht => ?_,
    fun {c d findings e t} hc hrun => ?_⟩
  · rw [Tandem.block_eq] at hrun ⊢
    rw [show (ParseState.mk c findings).groups = 0 from hc.groups_eq] at hrun
    rw [show (ParseState.mk d findings).groups = 0 from hc.groups_eq',
      show (ParseState.mk d findings).current = c.current from hc.current_eq]
    exact (hfrom _).ok hc hrun ht
  · rw [Tandem.block_eq, show (ParseState.mk c findings).groups = 0 from hc.groups_eq] at hrun
    exact (hfrom _).halt hc hrun

theorem function_follows : Follows (AtRest 0) (AtRest 0) (function st) (function st) := by
  unfold function
  refine .current_bind (fun c d h => h.current_eq) fun token => ?_
  have hname : Follows (fun c d => AtRest 0 c d ∧ c.current = token) (AtRest 0)
      (expectNamed .ident "a function name") (expectNamed .ident "a function name") :=
    (expectNamed_follows _ rfl rfl rfl).strengthen fun c d h => h.1.toInStep
  have hopen : Follows (AtRest 0) (AtOpening 0) (expect .lparen) (expect .lparen) :=
    .expectNamed _ (fun c d h => h.peek_eq) (fun c d h => h.legal_peek) (fun c d h => h.current_eq)
      fun c d h hpeek => h.advance.atOpening (h.ready.kind_advance hpeek rfl) (.inl rfl)
  refine hname.bind fun name => hopen.bind fun _ => ?_
  refine parameters_follows.bind fun parameters => resultType_follows.bind fun result => ?_
  exact (expect_follows rfl rfl rfl).bind fun _ => (block_follows hst).bind fun _ => .pure _

variable {ex : Parse Node} (hex : Follows (AtStart 0) (AtRest 0) ex ex)
include hex

theorem branches_follows {n n' : Nat} (hle : n ≤ n') :
    Follows (AtRest 0) (AtRest 0) (branches ex st n) (branches ex st n') := by
  induction n generalizing n' with
  | zero => exact .crash (by rintro ⟨⟩)
  | succ n ih =>
    obtain ⟨n', rfl⟩ : ∃ k, n' = k + 1 := ⟨n' - 1, by omega⟩
    unfold branches
    refine .current_bind (fun c d h => h.current_eq) fun token => ?_
    refine (advance_follows.strengthen fun c d h => h.1).bind fun _ => hex.bind fun condition => ?_
    have hbrace : Follows (AtRest 0) (AtRest 0) (expect .lbrace) (expect .lbrace) :=
      (expect_follows rfl rfl rfl).strengthen fun c d h => h.toInStep
    refine hbrace.bind fun _ => (block_follows hst).bind fun body => ?_
    refine .peekIs_ite (fun c d h => h.peek_eq) _ ?_ (.pure _)
    refine (advance_rest_follows rfl rfl rfl).bind fun _ => ?_
    refine .current_bind (fun c d h => h.current_eq) fun otherwise => ?_
    refine .peek_bind (fun c d h => h.1.peek_eq) fun next => ?_
    -- The token ahead tells which branch comes next.
    have hahead : ∀ {kind : Kind}, next.is kind = true → ∀ c d,
        (AtRest 0 c d ∧ c.current = otherwise) ∧ c.peek = next → AtRest 0 c d ∧ c.peek.kind = kind :=
      fun hk c d h => ⟨h.1.1, by rw [h.2]; simpa [Token.is] using hk⟩
    split
    · next hk =>
      refine ((advance_rest_follows rfl rfl rfl).strengthen (hahead hk)).bind fun _ => ?_
      exact (block_follows hst).bind fun _ => .pure _
    · split
      · next hk =>
        refine ((advance_rest_follows rfl rfl rfl).strengthen (hahead hk)).bind fun _ => ?_
        exact (ih (by omega)).bind fun _ => .pure _
      · exact .reject fun c d h => h.2 ▸ h.1.1.legal_peek

theorem statementWith_follows :
    Follows (AtStart 0) (AtRest 0) (statementWith ex st) (statementWith ex st) := by
  unfold statementWith
  refine .current_bind (fun c d h => h.current_eq) fun t => ?_
  have hlegal : ∀ c d, AtStart 0 c d ∧ c.current = t → t.kind ≠ .illegal := fun c d h =>
    h.2 ▸ h.1.legal _ List.mem_cons_self
  have hrest : ∀ {kind : Kind}, t.kind = kind → kind.shift 0 = 0 → kind.isType = false →
      ∀ c d, AtStart 0 c d ∧ c.current = t → AtRest 0 c d := fun hk hshift htype c d h =>
    h.1.atRest (h.2 ▸ hk) hshift htype
  split
  · next hk => exact .never (.throw _) fun c d h => hlegal c d h hk
  · next hk => exact (Follows.pure _).weaken (hrest hk rfl rfl)
  · exact .reject hlegal
  · exact .reject hlegal
  · exact .reject hlegal
  · next hk =>
    exact ((function_follows hst).strengthen (hrest hk rfl rfl)).bind fun _ => .pure _
  · next hk =>
    refine Follows.strengthen ?_ (hrest hk rfl rfl)
    refine .remaining_bind (fun c d h => h.length_le) fun n n' hle => ?_
    refine ((branches_follows hst hex (Nat.succ_le_succ hle)).strengthen fun c d h => h.1).bind
      fun _ => .pure _
  · next hk => exact simple_follows ((returnStatement_follows hex).strengthen (hrest hk rfl rfl))
  · split
    · next type htype =>
      have hkeyword := isType_of_ofKind? htype
      have htyped : ∀ c d, AtStart 0 c d ∧ c.current = t →
          InStep 0 0 c d ∧ c.current.kind.isType := fun c d h => by
        obtain ⟨hstart, rfl⟩ := h
        exact ⟨hstart.inStep rfl (Kind.shift_of_isType hkeyword 0), hkeyword⟩
      refine .peekIs_ite (fun c d h => (htyped c d h).1.peek_eq id) _ ?_ ?_
      · exact simple_follows ((arrayDeclaration_follows hex).strengthen fun c d h => htyped c d h.1)
      · exact simple_follows ((declaration_follows hex type).strengthen fun c d h => (htyped c d h).1)
    · have hother := simple_follows (expressionStatement_follows hex)
      by_cases hident : t.kind = .ident
      · simp only [hident, beq_self_eq_true, Bool.true_and]
        refine .peekIs_ite (fun c d h => (hrest hident rfl rfl c d h).peek_eq) _ ?_
          (hother.strengthen fun c d h => h.1)
        refine simple_follows ((definition_follows hex).strengthen fun c d h => ?_)
        exact ⟨hrest hident rfl rfl c d h.1, h.2⟩
      · -- What is ahead does not matter, so it need not be the same.
        simp only [beq_eq_false_iff_ne.2 hident, Bool.false_and, Bool.false_eq_true, if_false]
        exact .peekIs_unused (hother.strengthen fun c d h => h.1)

end Compound

/-- **Statements** are the same past newlines inside groups. -/
theorem statement_follows (maxDigits depth : Nat) :
    Follows (AtStart 0) (AtRest 0) (statement maxDigits depth) (statement maxDigits depth) := by
  induction depth with
  | zero => exact .crash (by rintro ⟨⟩)
  | succ depth ih =>
    exact statementWith_follows ih (expression_follows maxDigits depth 0 (Nat.le_refl _))

theorem program_follows (limits : Limits) :
    Follows (AtStart 0) (AtRest 0) (program limits) (program limits) := by
  unfold program
  refine .remaining_bind (fun c d h => h.length_le) fun n n' hle => ?_
  have hcloses : ∀ kind : Kind, kind.closesProgram → kind.shift 0 = 0 ∧ kind.isType = false := by
    intro kind h
    cases kind <;> first | exact ⟨rfl, rfl⟩ | cases h
  have hstatements := statements_follows (statement_follows limits.digits limits.nesting) rfl hcloses
    (Nat.add_le_add_right hle 2)
  refine (hstatements.strengthen fun c d h => ⟨h.1, Nat.lt_succ_of_lt h.2⟩).bind fun _ => .pure _

/-- **A program is the same past newlines inside groups**, if nothing is wrong with it. -/
theorem program_loosened {limits : Limits} {words us : List Token} {last : Token} {tree : Node}
    {t : ParseState} (hlast : last.kind = .eof)
    (hwords : ∀ t ∈ words, t.kind ≠ .eof ∧ t.kind ≠ .illegal)
    (hloosened : Loosened .endOfLine 0 (words ++ [last]) us)
    (hrun : program limits (initial (words ++ [last]) last) = .ok tree t) (ht : t.findings = []) :
    ∃ u, program limits (initial us last) = .ok tree u ∧ u.findings = [] := by
  obtain ⟨words', rfl, hwords'⟩ := hloosened.exists_append fun t ht => (hwords t ht).1
  have heof : ∀ t ∈ words, t.kind ≠ .eof := fun t ht => (hwords t ht).1
  have hstart : AtStart 0 (initial (words ++ [last]) last).toCursor
      (initial (words' ++ [last]) last).toCursor := by
    obtain ⟨-, first, rest, -, -, -, hdrop⟩ := (terminated_append hlast heof).exists_ahead
    obtain ⟨before, rest', hdrop', hrest, hbefore⟩ := hloosened.exists_of_dropWhile hdrop
    obtain rfl : before = .endOfLine := or_self_iff.1 hbefore
    rw [Kind.depthBehind_eq_shift fun _ _ => rfl] at hrest
    have hcurrent : (initial (words ++ [last]) last).current = first := by
      show (Cursor.advance ⟨last, words ++ [last], 0⟩).current = first
      rw [Cursor.advance_of_ahead hdrop]
    rw [AtStart, hcurrent]
    refine Cursor.inStep_advance (ready_initial hlast heof) (ready_initial hlast hwords') ?_ rfl rfl
      hdrop hdrop' hrest fun hne => absurd rfl hne
    intro t ht
    have hne : last.kind ≠ .illegal := by rw [hlast]; decide
    rcases List.mem_cons.1 ht with rfl | ht
    · exact hne
    · rcases List.mem_append.1 ht with ht | ht
      · exact (hwords t ht).2
      · rw [List.mem_singleton.1 ht]
        exact hne
  obtain ⟨e, hrun', -⟩ := (program_follows limits).ok hstart hrun ht
  exact ⟨_, hrun', rfl⟩

end Parse

end LimLang
