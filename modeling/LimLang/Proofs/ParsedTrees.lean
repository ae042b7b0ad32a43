import LimLang.Parse.Program
import LimLang.Proofs.ExpressionSoundness
import LimLang.Proofs.WellFormed

/-! # The trees the parser builds

Whatever the tokens are, and whatever is found wrong with them, the tree the parser builds is
well-formed (`Node.Fits`), over any vocabulary that has what the tokens say (`Vocabulary.Has`).  And
what the parser records, it records at tokens it was given.

Both follow from one invariant of the parser's state: the tokens in view, and those that something
was found wrong at, have some property `P` (`ParseState.Holds`).  No step makes up a token, so every
parser keeps it, whether it has a result or halts.
-/
namespace LimLang

open Cursor (isNewline)

/-! ## What the tokens say -/

/-- The name of a type, as keywords with the property `P` spell it. -/
def IsTypeText (P : Token → Prop) (type : String) : Prop :=
  ∃ t, P t ∧ t.kind.isType ∧ (type = t.text ∨ type = t.text ++ " []")

/-- **The vocabulary has everything that tokens with the property `P` say**, and what the parser
says of its own: the values of variables declared without one, and types that it inferred. -/
structure Vocabulary.Has (V : Vocabulary) (P : Token → Prop) : Prop where
  varName : ∀ t, P t → t.kind = .ident → V.varName t.toIdent
  parameter : ∀ t type, P t → t.kind = .ident → IsTypeText P type →
    V.parameter { token := t, name := t.text, typeName := some type }
  functionName : ∀ t, P t → t.kind = .ident → V.functionName t.text
  result : ∀ result, (∀ type ∈ result, IsTypeText P type) → V.result result
  int : ∀ t, P t → t.kind = .int → t.number < MachineInt.bound → V.int t.number
  zero : V.int 0
  string : ∀ t, P t → t.kind = .string → V.string t.text
  empty : V.string ""
  leading : ∀ t, P t → t.kind.isPrefix → V.leading t.text
  between : ∀ t, P t → Precedence.lowest < t.kind.precedence →
    t.kind.precedence ≤ Precedence.product → V.between t.text
  element : ∀ t, P t → t.kind.isType → V.element t.text
  inferred : ∀ type : BasicType, V.element type.spelling

/-- The vocabulary that has everything. -/
def Vocabulary.anything : Vocabulary where
  varName _ := True
  parameter _ := True
  functionName _ := True
  result _ := True
  int _ := True
  string _ := True
  leading _ := True
  between _ := True
  element _ := True

theorem Vocabulary.anything_has (P : Token → Prop) : anything.Has P := by
  constructor <;> intros <;> trivial

/-! ## The invariant -/

/-- **The tokens in view have the property `P`**, and so have those that something was found wrong
at. -/
structure ParseState.Holds (P : Token → Prop) (s : ParseState) : Prop where
  view : ∀ t ∈ s.view, P t
  findings : ∀ f ∈ s.findings, P f.token

theorem Cursor.current_advance_of_peek {c : Cursor} (h : c.peek.kind ≠ .endOfLine) :
    c.advance.current = c.peek := by
  cases ha : c.ahead with
  | nil => simp [advance, peek, ha]
  | cons t ts =>
    have hp : c.peek = t := by simp [peek, ha]
    rw [hp] at h ⊢
    rw [advance_of_ahead (by rw [ha, dropWhile_of_ne h])]

theorem Cursor.skipWithin_subset (bound depth : Nat) (c : Cursor) :
    (c.skipWithin bound depth).view ⊆ c.view := by
  induction bound generalizing c depth with
  | zero => exact List.Subset.refl _
  | succ bound ih =>
    unfold skipWithin
    split
    · exact List.Subset.refl _
    · split
      · exact List.Subset.refl _
      · exact List.Subset.trans (ih _ _) (advance_sublist c).subset

namespace ParseState.Holds

variable {P : Token → Prop} {s : ParseState}

theorem current (h : s.Holds P) : P s.current :=
  h.view _ List.mem_cons_self

theorem peek (h : s.Holds P) : P s.toCursor.peek :=
  h.view _ (Cursor.peek_mem_view _)

/-- Moving on makes up no token. -/
theorem move (h : s.Holds P) {c : Cursor} (hc : c.view ⊆ s.view) : Holds P ⟨c, s.findings⟩ :=
  ⟨fun t ht => h.view t (hc ht), h.findings⟩

theorem advance (h : s.Holds P) : Holds P ⟨s.toCursor.advance, s.findings⟩ :=
  h.move (Cursor.advance_sublist _).subset

theorem openGroup (h : s.Holds P) : Holds P ⟨s.toCursor.openGroup, s.findings⟩ :=
  h.move (Cursor.openGroup_sublist _).subset

/-- Which groups are open is all the same. -/
theorem regroup (h : s.Holds P) (groups : Nat) :
    Holds P ⟨{ s.toCursor with groups := groups }, s.findings⟩ :=
  h.move (List.Subset.refl _)

end ParseState.Holds

namespace Parse

variable {ε α : Type} {P : Token → Prop} {s : ParseState}

/-- **The parser keeps the invariant, and what it builds satisfies `ok`.** -/
def Builds (P : Token → Prop) (ok : α → Prop) (x : Parser ε α) (s : ParseState) : Prop :=
  Outcome x s (fun a t => ok a ∧ t.Holds P) fun _ t => t.Holds P

theorem builds_iff {ok : α → Prop} {x : Parser ε α} :
    Builds P ok x s ↔ Outcome x s (fun a t => ok a ∧ t.Holds P) fun _ t => t.Holds P :=
  Iff.rfl

/-- Going on with what was built. -/
theorem Builds.step {ok : α → Prop} {x : Parser ε α} {ok' : α → ParseState → Prop}
    (h : Builds P ok x s) (hok : ∀ a t, ok a → t.Holds P → ok' a t) :
    Outcome x s ok' fun _ t => t.Holds P :=
  h.mono (fun a t h => hok a t h.1 h.2) fun _ _ h => h

theorem reject_holds {violation : Violation} {token : Token} {ok : α → ParseState → Prop}
    (hs : s.Holds P) (ht : P token) :
    Outcome (reject violation token : Parse α) s ok fun _ t => t.Holds P := by
  unfold reject
  by_cases hi : token.is .illegal = true
  · simpa only [hi, Bool.not_true, Bool.false_eq_true, if_false, Outcome.throw_iff] using hs
  · simp only [hi, Bool.not_false, if_true, Outcome.bind_iff, Outcome.modify_iff,
      Outcome.throw_iff]
    refine ⟨hs.view, fun f hf => ?_⟩
    rcases List.mem_append.1 hf with hf | hf
    · exact hs.findings f hf
    · rw [List.mem_singleton.1 hf]
      exact ht

theorem expectNamed_builds {kind : Kind} (hk : kind ≠ .endOfLine) (what : String)
    (hs : s.Holds P) :
    Builds P (fun t => P t ∧ t.kind = kind) (expectNamed kind what) s := by
  unfold expectNamed
  rw [builds_iff]
  simp only [Outcome.bind_iff, peek_iff]
  by_cases hp : s.toCursor.peek.kind = kind
  · simp only [Token.is, hp, beq_self_eq_true, if_true, Outcome.bind_iff, advance_iff, current_iff]
    rw [Cursor.current_advance_of_peek (hp ▸ hk)]
    exact ⟨⟨hs.peek, hp⟩, hs.advance⟩
  · simp only [Token.is, beq_iff_eq, hp, if_false]
    exact reject_holds hs hs.peek

theorem expect_builds {kind : Kind} (hk : kind ≠ .endOfLine) (hs : s.Holds P) :
    Builds P (fun t => P t ∧ t.kind = kind) (expect kind) s :=
  expectNamed_builds hk _ hs

/-! ## Expressions -/

/-- What is asked of a parser of nested expressions. -/
def BuildsExpressions (V : Vocabulary) (P : Token → Prop) (ex : Nat → Parse Node) : Prop :=
  ∀ floor, Precedence.lowest ≤ floor → ∀ s : ParseState, s.Holds P →
    Builds P (Node.Fits V .expression) (ex floor) s

section Expressions
variable {V : Vocabulary} (hV : V.Has P)
include hV

theorem integer_builds (maxDigits : Nat) {token : Token} (hs : s.Holds P) (ht : P token)
    (hk : token.kind = .int) :
    Builds P (Node.Fits V .expression) (integer maxDigits token) s := by
  unfold integer
  rw [builds_iff]
  simp only [List.length_map, String.length_toList]
  by_cases hlong : maxDigits < token.text.length
  · simpa only [hlong, if_true, Outcome.bind_iff, Outcome.throw_iff] using hs
  · simp only [hlong, if_false]
    by_cases hb : MachineInt.bound ≤ token.number
    · have hb' := hb
      unfold Token.number at hb'
      simp only [hb', if_true]
      exact reject_holds hs ht
    · have hb' := hb
      unfold Token.number at hb'
      simp only [hb', if_false]
      exact ⟨.int (hV.int token ht hk (Nat.lt_of_not_le hb)), hs⟩

omit hV in
theorem laterItems_builds {ex : Parse Node}
    (hex : ∀ s, s.Holds P → Builds P (Node.Fits V .expression) ex s) (bound : Nat)
    {s : ParseState} (hs : s.Holds P) :
    Builds P (fun nodes => ∀ e ∈ nodes, e.Fits V .expression) (laterItems ex bound) s := by
  induction bound generalizing s with
  | zero => exact ⟨by simp, hs⟩
  | succ bound ih =>
    unfold laterItems
    rw [builds_iff]
    simp only [Outcome.bind_iff, peekIs_iff]
    cases s.toCursor.peek.is .comma with
    | false => exact ⟨by simp, hs⟩
    | true =>
      simp only [if_true, Outcome.bind_iff, advance_iff, Outcome.pure_iff]
      refine (hex _ hs.advance.advance).step fun node t hn ht => ?_
      refine (ih ht).step fun nodes u hns hu => ⟨?_, hu⟩
      exact List.forall_mem_cons.2 ⟨hn, hns⟩

omit hV in
theorem items_builds {ex : Parse Node}
    (hex : ∀ s, s.Holds P → Builds P (Node.Fits V .expression) ex s) {closer : Kind}
    (hc : closer ≠ .endOfLine) (hs : s.Holds P) :
    Builds P (fun nodes => ∀ e ∈ nodes, e.Fits V .expression) (items ex closer) s := by
  unfold items
  rw [builds_iff]
  simp only [Outcome.bind_iff, move_iff, peekIs_iff]
  cases s.toCursor.openGroup.peek.is closer with
  | true =>
    simp only [if_true, Outcome.bind_iff, move_iff, advance_iff, Outcome.pure_iff]
    exact ⟨by simp, (hs.openGroup.regroup _).advance⟩
  | false =>
    simp only [Bool.false_eq_true, if_false, Outcome.bind_iff, advance_iff, remaining_iff, move_iff,
      Outcome.pure_iff]
    refine (hex _ hs.openGroup.advance).step fun node t hn ht => ?_
    refine (laterItems_builds hex _ ht).step fun nodes u hns hu => ?_
    refine (expect_builds hc (hu.regroup _)).step fun _ w _ hw => ⟨?_, hw⟩
    exact List.forall_mem_cons.2 ⟨hn, hns⟩

omit hV in
theorem grouped_builds {ex : Parse Node}
    (hex : ∀ s, s.Holds P → Builds P (Node.Fits V .expression) ex s) {closer : Kind}
    (hc : closer ≠ .endOfLine) (hs : s.Holds P) :
    Builds P (Node.Fits V .expression) (grouped ex closer) s := by
  unfold grouped
  rw [builds_iff]
  simp only [Outcome.bind_iff, move_iff, advance_iff, Outcome.pure_iff]
  refine (hex _ hs.openGroup.advance).step fun node t hn ht => ?_
  exact (expect_builds hc (ht.regroup _)).step fun _ u _ hu => ⟨hn, hu⟩

variable {ex : Nat → Parse Node} (hex : BuildsExpressions V P ex)
include hex

theorem operand_builds (maxDigits : Nat) (hs : s.Holds P) :
    Builds P (Node.Fits V .expression) (operand maxDigits ex) s := by
  have hcur := hs.current
  -- The three operators in front of an operand are built into the same tree.
  have unary : s.current.kind.isPrefix →
      Outcome (do
        advance
        return Node.unary s.current s.current.text (← ex Precedence.unary)) s
        (fun node t => node.Fits V .expression ∧ t.Holds P) fun _ t => t.Holds P := by
    intro hp
    simp only [Outcome.bind_iff, advance_iff, Outcome.pure_iff]
    exact (hex _ (by decide) _ hs.advance).step fun right t hr ht =>
      ⟨.unary (hV.leading _ hcur hp) hr, ht⟩
  unfold operand
  rw [builds_iff]
  simp only [Outcome.bind_iff, current_iff]
  split
  · next hk => exact ⟨.ident (hV.varName _ hcur hk), hs⟩
  · next hk => exact integer_builds hV maxDigits hs hcur hk
  · next hk => exact ⟨.string (hV.string _ hcur hk), hs⟩
  · exact ⟨.bool, hs⟩
  · exact ⟨.bool, hs⟩
  · exact ⟨.null, hs⟩
  · next hk => exact unary (by rw [hk]; rfl)
  · next hk => exact unary (by rw [hk]; rfl)
  · next hk => exact unary (by rw [hk]; rfl)
  · exact grouped_builds (hex _ (Nat.le_refl _)) (by decide) hs
  · simp only [Outcome.bind_iff, Outcome.pure_iff]
    exact (items_builds (hex _ (Nat.le_refl _)) (by decide) hs).step fun nodes t hn ht =>
      ⟨.array hn, ht⟩
  · exact reject_holds hs hcur

/-- What follows an operand is an operator, since it binds. -/
theorem continuation_builds {left : Node} (hl : left.Fits V .expression) (hs : s.Holds P)
    (hk : Precedence.lowest < s.current.kind.precedence) :
    Builds P (Node.Fits V .expression) (continuation ex left) s := by
  unfold continuation
  rw [builds_iff]
  simp only [Outcome.bind_iff, current_iff]
  split
  · simp only [Outcome.bind_iff, Outcome.pure_iff]
    exact (items_builds (hex _ (Nat.le_refl _)) (by decide) hs).step fun nodes t hn ht =>
      ⟨.call hl hn, ht⟩
  · simp only [Outcome.bind_iff, Outcome.pure_iff]
    exact (grouped_builds (hex _ (Nat.le_refl _)) (by decide) hs).step fun node t hn ht =>
      ⟨.index hl hn, ht⟩
  · next hp hb =>
    simp only [Outcome.bind_iff, advance_iff, Outcome.pure_iff]
    refine (hex _ (Kind.lowest_le_precedence _) _ hs.advance).step fun right t hr ht =>
      ⟨.binary ?_ hl hr, ht⟩
    exact hV.between _ hs.current hk (Kind.precedence_le_product hp hb)

theorem climb_builds {floor : Nat} (hf : Precedence.lowest ≤ floor) (bound : Nat) {left : Node}
    {s : ParseState} (hl : left.Fits V .expression) (hs : s.Holds P) :
    Builds P (Node.Fits V .expression) (climb ex floor bound left) s := by
  induction bound generalizing s left with
  | zero => exact ⟨hl, hs⟩
  | succ bound ih =>
    unfold climb
    rw [builds_iff]
    simp only [Outcome.bind_iff, peek_iff]
    by_cases hlt : floor < s.toCursor.peek.kind.precedence
    · simp only [hlt, if_true, Outcome.bind_iff, advance_iff]
      have hne : s.toCursor.peek.kind ≠ .endOfLine := by
        intro h
        rw [h] at hlt
        exact absurd hlt (Nat.not_lt.2 hf)
      have hbinds : Precedence.lowest < s.toCursor.advance.current.kind.precedence := by
        rw [Cursor.current_advance_of_peek hne]
        exact Nat.lt_of_le_of_lt hf hlt
      exact (continuation_builds hV hex hl hs.advance hbinds).step fun node t hn ht => ih hn ht
    · simp only [hlt, if_false, Outcome.pure_iff]
      exact ⟨hl, hs⟩

end Expressions

theorem expression_builds {V : Vocabulary} (hV : V.Has P) (maxDigits depth : Nat) :
    BuildsExpressions V P (expression maxDigits depth) := by
  induction depth with
  | zero =>
    intro floor _ s hs
    exact hs
  | succ depth ih =>
    intro floor hf s hs
    unfold expression
    rw [builds_iff]
    simp only [Outcome.bind_iff, remaining_iff]
    exact (operand_builds hV ih maxDigits hs).step fun left t hl ht => climb_builds hV ih hf _ hl ht

/-! ## Statements -/

section Simple
variable {V : Vocabulary} (hV : V.Has P) {ex : Parse Node}
  (hex : ∀ s, s.Holds P → Builds P (Node.Fits V .expression) ex s)
include hV

theorem declaredName_builds (hs : s.Holds P) : Builds P V.varName declaredName s := by
  unfold declaredName
  rw [builds_iff]
  simp only [Outcome.bind_iff, Outcome.pure_iff]
  exact (expectNamed_builds (by decide) _ hs).step fun token t h ht =>
    ⟨hV.varName token h.1 h.2, ht⟩

include hex

omit hV in
theorem initializer_builds {zero : Node} (hz : zero.Fits V .expression) (hs : s.Holds P) :
    Builds P (Node.Fits V .expression) (initializer ex zero) s := by
  unfold initializer
  rw [builds_iff]
  simp only [Outcome.bind_iff, atEnd_iff]
  cases s.toCursor.peek.kind.isTerminator with
  | true => exact ⟨hz, hs⟩
  | false =>
    simp only [Bool.false_eq_true, if_false, Outcome.bind_iff, advance_iff]
    exact (expect_builds (by decide) hs).step fun _ t _ ht => hex _ ht.advance

theorem declaration_builds (type : BasicType) (hs : s.Holds P) :
    Builds P (Node.Fits V .statement) (declaration ex type) s := by
  have hz : (Node.zero type).Fits V .expression := by
    cases type
    · exact .int hV.zero
    · exact .bool
    · exact .string hV.empty
  unfold declaration
  rw [builds_iff]
  simp only [Outcome.bind_iff, current_iff, Outcome.pure_iff]
  refine (declaredName_builds hV hs).step fun name t hn ht => ?_
  exact (initializer_builds hex hz ht).step fun value u hv hu => ⟨.declare hn hv, hu⟩

theorem arrayDeclaration_builds (hs : s.Holds P) (hk : s.current.kind.isType) :
    Builds P (Node.Fits V .statement) (arrayDeclaration ex) s := by
  unfold arrayDeclaration
  rw [builds_iff]
  simp only [Outcome.bind_iff, current_iff, Outcome.pure_iff]
  refine (expect_builds (by decide) hs).step fun _ t₁ _ h₁ => ?_
  refine (expect_builds (by decide) h₁).step fun _ t₂ _ h₂ => ?_
  refine (declaredName_builds hV h₂).step fun name t₃ hn h₃ => ?_
  refine (initializer_builds hex (.array (by simp)) h₃).step fun value u hv hu => ?_
  exact ⟨.declareArray (hV.element _ hs.current hk) hn hv, hu⟩

theorem definition_builds (hs : s.Holds P) (hk : s.current.kind = .ident) :
    Builds P (Node.Fits V .statement) (definition ex) s := by
  have hn := hV.varName _ hs.current hk
  have h₂ := hs.advance.advance
  unfold definition
  rw [builds_iff]
  simp only [Outcome.bind_iff, current_iff, advance_iff]
  split
  · simp only [Outcome.bind_iff]
    refine (hex _ h₂).step fun value t hv ht => ?_
    split
    · exact ⟨.declareArray (hV.inferred _) hn hv, ht⟩
    · exact reject_holds ht h₂.current
  · split
    · simp only [Outcome.bind_iff, Outcome.pure_iff]
      exact (hex _ h₂).step fun value t hv ht => ⟨.declare hn hv, ht⟩
    · exact reject_holds h₂ h₂.current

omit hV in
theorem returnStatement_builds (hs : s.Holds P) :
    Builds P (Node.Fits V .statement) (returnStatement ex) s := by
  unfold returnStatement
  rw [builds_iff]
  simp only [Outcome.bind_iff, current_iff, atEnd_iff]
  cases s.toCursor.peek.kind.isTerminator with
  | true => exact ⟨.bareReturn, hs⟩
  | false =>
    simp only [Bool.false_eq_true, if_false, Outcome.bind_iff, advance_iff, Outcome.pure_iff]
    exact (hex _ hs.advance).step fun value t hv ht => ⟨.returnValue hv, ht⟩

omit hV in
theorem expressionStatement_builds (hs : s.Holds P) :
    Builds P (Node.Fits V .statement) (expressionStatement ex) s := by
  unfold expressionStatement
  rw [builds_iff]
  simp only [Outcome.bind_iff, current_iff, Outcome.pure_iff]
  exact (hex _ hs).step fun value t hv ht => ⟨.expression hv, ht⟩

end Simple

theorem simple_builds {V : Vocabulary} {statement : Parse Node}
    (h : Builds P (Node.Fits V .statement) statement s) :
    Builds P (fun result => ∀ node ∈ result, node.Fits V .statement) (simple statement) s := by
  unfold simple endStatement Builds
  simp only [Outcome.bind_iff, peek_iff, Outcome.pure_iff]
  refine h.step fun node t hn ht => ?_
  have hsome : ∀ other ∈ some node, other.Fits V .statement := by
    intro other ho
    rw [← Option.some.inj ho]
    exact hn
  split
  · exact ⟨hsome, ht.advance⟩
  · split
    · exact reject_holds ht ht.peek
    · exact ⟨hsome, ht⟩

/-! ## Lists of statements -/

/-- What is asked of a parser of nested statements. -/
def BuildsStatements (V : Vocabulary) (P : Token → Prop) (statement : Parse (Option Node)) : Prop :=
  ∀ s : ParseState, s.Holds P →
    Builds P (fun result => ∀ node ∈ result, node.Fits V .statement) statement s

section Compound
variable {V : Vocabulary} {statement : Parse (Option Node)} (hst : BuildsStatements V P statement)
include hst

/-- A malformed statement leaves nothing behind but what was found wrong with it. -/
theorem recovering_builds (hs : s.Holds P) :
    Builds P (fun result => ∀ node ∈ result, node.Fits V .statement) (recovering statement) s := by
  refine recovering_iff.2 ((hst s hs).mono (fun _ _ h => h) ?_)
  intro halt t ht
  cases halt with
  | crash crash => exact ht
  | malformed => exact ⟨by simp, (ht.regroup s.groups).move (Cursor.skipWithin_subset _ _ _)⟩

theorem statements_builds (closes : Kind → Bool) (bound : Nat) {s : ParseState} (hs : s.Holds P) :
    Builds P (fun nodes => ∀ node ∈ nodes, node.Fits V .statement)
      (statements closes statement bound) s := by
  induction bound generalizing s with
  | zero => exact ⟨by simp, hs⟩
  | succ bound ih =>
    unfold statements
    rw [builds_iff]
    simp only [Outcome.bind_iff, current_iff]
    split
    · exact ⟨by simp, hs⟩
    · simp only [Outcome.bind_iff]
      refine (recovering_builds hst hs).step fun result t hr ht => ?_
      cases result with
      | some node =>
        simp only [Outcome.bind_iff, advance_iff, Outcome.pure_iff]
        refine (ih ht.advance).step fun nodes u hns hu => ⟨?_, hu⟩
        exact List.forall_mem_cons.2 ⟨hr node rfl, hns⟩
      | none =>
        simp only [Outcome.bind_iff, current_iff]
        split
        · exact ⟨by simp, ht⟩
        · simp only [Outcome.bind_iff, advance_iff]
          exact ih ht.advance

theorem block_builds (hs : s.Holds P) : Builds P (Node.Fits V .body) (block statement) s := by
  unfold block
  rw [builds_iff]
  simp only [Outcome.bind_iff, current_iff, Outcome.get_iff, move_iff, advance_iff, remaining_iff,
    liftCrash_iff]
  refine (statements_builds hst _ _ (hs.regroup 0).advance).step fun nodes t hn ht => ?_
  split
  · exact reject_holds (ht.regroup _) ht.current
  · exact ⟨.block hn, ht.regroup _⟩

/-! ## Statements with braces -/

omit hst

theorem typeName_builds (hs : s.Holds P) (hk : s.current.kind.isType) :
    Builds P (IsTypeText P) typeName s := by
  unfold typeName
  rw [builds_iff]
  simp only [Outcome.bind_iff, current_iff, peekIs_iff]
  split
  · simp only [Outcome.bind_iff, advance_iff, Outcome.pure_iff]
    exact (expect_builds (by decide) hs.advance).step fun _ t _ ht =>
      ⟨⟨_, hs.current, hk, .inr rfl⟩, ht⟩
  · exact ⟨⟨_, hs.current, hk, .inl rfl⟩, hs⟩

section Signature
variable (hV : V.Has P)
include hV

theorem laterParameters_builds (bound : Nat) {s : ParseState} (hs : s.Holds P) :
    Builds P (fun parameters => ∀ i ∈ parameters, V.parameter i) (laterParameters bound) s := by
  induction bound generalizing s with
  | zero => exact ⟨by simp, hs⟩
  | succ bound ih =>
    unfold laterParameters
    rw [builds_iff]
    simp only [Outcome.bind_iff, advance_iff, current_iff]
    split
    · next ht =>
      simp only [Outcome.bind_iff, peekIs_iff]
      refine (typeName_builds hs.advance ht).step fun type t htype ht => ?_
      refine (expectNamed_builds (by decide) _ ht).step fun name u hname hu => ?_
      have hp := hV.parameter name type hname.1 hname.2 htype
      split
      · simp only [Outcome.bind_iff, advance_iff, Outcome.pure_iff]
        refine (ih hu.advance).step fun parameters w hps hw => ⟨?_, hw⟩
        exact List.forall_mem_cons.2 ⟨hp, hps⟩
      · exact ⟨List.forall_mem_singleton.2 hp, hu⟩
    · exact reject_holds hs.advance hs.advance.current

theorem parameters_builds (hs : s.Holds P) :
    Builds P (fun parameters => ∀ i ∈ parameters, V.parameter i) parameters s := by
  unfold parameters
  rw [builds_iff]
  simp only [Outcome.bind_iff, move_iff, peekIs_iff]
  split
  · exact ⟨by simp, (hs.openGroup.regroup _).advance⟩
  · simp only [Outcome.bind_iff, remaining_iff, move_iff, Outcome.pure_iff]
    refine (laterParameters_builds hV _ hs.openGroup).step fun parameters t hps ht => ?_
    exact (expect_builds (by decide) (ht.regroup _)).step fun _ u _ hu => ⟨hps, hu⟩

theorem resultType_builds (hs : s.Holds P) : Builds P V.result resultType s := by
  -- A type that stands ahead is taken in.
  have typed : ∀ {t : ParseState}, t.Holds P →
      Builds P V.result (do
        if (← peek).kind.isType then
          advance
          return some (← typeName)
        else return none) t := by
    intro t ht
    unfold Builds
    simp only [Outcome.bind_iff, peek_iff]
    split
    · next hk =>
      have hne : t.toCursor.peek.kind ≠ .endOfLine := by
        intro h
        rw [h] at hk
        cases hk
      simp only [Outcome.bind_iff, advance_iff, Outcome.pure_iff]
      refine (typeName_builds ht.advance ?_).step fun type u htype hu => ?_
      · rw [Cursor.current_advance_of_peek hne]
        exact hk
      · refine ⟨hV.result _ fun other ho => ?_, hu⟩
        rw [← Option.some.inj ho]
        exact htype
    · exact ⟨hV.result _ (by simp), ht⟩
  unfold resultType
  rw [builds_iff]
  simp only [Outcome.bind_iff, peekIs_iff]
  split
  · simp only [Outcome.bind_iff, advance_iff, peek_iff]
    split
    · simp only [Outcome.bind_iff]
      exact reject_holds hs.advance hs.advance.peek
    · exact typed hs.advance
  · exact typed hs

end Signature

variable (hV : V.Has P)
include hst hV

theorem function_builds (hs : s.Holds P) :
    Builds P (Node.Fits V .statement) (function statement) s := by
  unfold function
  rw [builds_iff]
  simp only [Outcome.bind_iff, current_iff, Outcome.pure_iff]
  refine (expectNamed_builds (by decide) _ hs).step fun name t₁ hn h₁ => ?_
  refine (expect_builds (by decide) h₁).step fun _ t₂ _ h₂ => ?_
  refine (parameters_builds hV h₂).step fun parameters t₃ hp h₃ => ?_
  refine (resultType_builds hV h₃).step fun result t₄ hr h₄ => ?_
  refine (expect_builds (by decide) h₄).step fun _ t₅ _ h₅ => ?_
  refine (block_builds hst h₅).step fun body u hb hu => ?_
  exact ⟨.function (hV.functionName name hn.1 hn.2) hp hr hb, hu⟩

variable {ex : Parse Node} (hex : ∀ s, s.Holds P → Builds P (Node.Fits V .expression) ex s)
include hex

omit hV in
theorem branches_builds (bound : Nat) {s : ParseState} (hs : s.Holds P) :
    Builds P (Node.Fits V .chain) (branches ex statement bound) s := by
  induction bound generalizing s with
  | zero => exact hs
  | succ bound ih =>
    unfold branches
    rw [builds_iff]
    simp only [Outcome.bind_iff, current_iff, advance_iff, peekIs_iff]
    refine (hex _ hs.advance).step fun condition t₁ hc h₁ => ?_
    refine (expect_builds (by decide) h₁).step fun _ t₂ _ h₂ => ?_
    refine (block_builds hst h₂).step fun body t₃ hb h₃ => ?_
    split
    · simp only [Outcome.bind_iff, advance_iff, current_iff, peek_iff]
      split
      · simp only [Outcome.bind_iff, advance_iff, Outcome.pure_iff]
        refine (block_builds hst h₃.advance.advance).step fun last u hl hu => ?_
        exact ⟨.ifElse hc hb (.otherwise hl), hu⟩
      · split
        · simp only [Outcome.bind_iff, advance_iff, Outcome.pure_iff]
          refine (ih h₃.advance.advance).step fun next u hn hu => ?_
          exact ⟨.ifElse hc hb (.elseIf hn), hu⟩
        · exact reject_holds h₃.advance h₃.advance.peek
    · exact ⟨.ifThen hc hb, h₃⟩

theorem statementWith_builds : BuildsStatements V P (statementWith ex statement) := by
  intro s hs
  have hcur := hs.current
  have whole : ∀ {node : Node}, node.Fits V .statement →
      ∀ other ∈ some node, other.Fits V .statement := by
    intro node hn other ho
    rw [← Option.some.inj ho]
    exact hn
  unfold statementWith
  rw [builds_iff]
  simp only [Outcome.bind_iff, current_iff]
  split
  · exact hs
  · exact ⟨by simp, hs⟩
  · exact reject_holds hs hcur
  · exact reject_holds hs hcur
  · exact reject_holds hs hcur
  · simp only [Outcome.bind_iff, Outcome.pure_iff]
    exact (function_builds hst hV hs).step fun node t hn ht => ⟨whole hn, ht⟩
  · simp only [Outcome.bind_iff, remaining_iff, Outcome.pure_iff]
    exact (branches_builds hst hex _ hs).step fun node t hn ht => ⟨whole (.branches hn), ht⟩
  · exact simple_builds (returnStatement_builds hex hs)
  · split
    · next type htype =>
      simp only [Outcome.bind_iff, peekIs_iff]
      split
      · exact simple_builds
          (arrayDeclaration_builds hV hex hs (Kind.isType_of_ofKind? htype))
      · exact simple_builds (declaration_builds hV hex type hs)
    · simp only [Outcome.bind_iff, peekIs_iff]
      split
      · next hi =>
        simp only [Bool.and_eq_true, beq_iff_eq] at hi
        exact simple_builds (definition_builds hV hex hs hi.1)
      · exact simple_builds (expressionStatement_builds hex hs)

end Compound

theorem statement_builds {V : Vocabulary} (hV : V.Has P) (maxDigits depth : Nat) :
    BuildsStatements V P (statement maxDigits depth) := by
  induction depth with
  | zero => exact fun s hs => hs
  | succ depth ih =>
    exact statementWith_builds ih hV (expression_builds hV maxDigits depth _ (Nat.le_refl _))

/-- **The tree of a program is well-formed**, and something is found wrong only at tokens of the
program. -/
theorem program_builds {V : Vocabulary} (hV : V.Has P) (limits : Limits) (hs : s.Holds P) :
    Builds P (Node.Fits V .program) (program limits) s := by
  unfold program
  rw [builds_iff]
  simp only [Outcome.bind_iff, remaining_iff, Outcome.pure_iff]
  exact (statements_builds (statement_builds hV _ _) _ _ hs).step fun nodes t hn ht =>
    ⟨.program hn, ht⟩

theorem holds_initial {tokens : List Token} {last : Token} (ht : ∀ t ∈ tokens, P t) (hl : P last) :
    (initial tokens last).Holds P := by
  refine ⟨fun t h => ?_, by simp [initial]⟩
  have := (Cursor.advance_sublist { current := last, ahead := tokens, groups := 0 }).subset h
  exact List.forall_mem_cons.2 ⟨hl, ht⟩ t this

end Parse

/-- **What comes of a text** is what the parser makes of its tokens. -/
theorem Source.exists_run_of_parse {source : Source} {limits : Limits} {parsed : Parsed}
    (h : source.parse limits = .ok parsed) :
    ∃ t, Parse.program limits (Parse.initial source.tokens source.endToken) = .ok parsed.program t ∧
      parsed.errors = Diagnostic.inOrder
        (source.lexicalErrors ++ t.findings.map fun f => f.diagnostic source) ∧
      parsed.warnings = source.warnings := by
  unfold Source.parse at h
  split at h
  · next tree t hrun =>
    obtain rfl := Except.ok.inj h
    exact ⟨t, hrun, rfl, rfl⟩
  · cases h

/-- **Every tree that comes of a text is well-formed**, over any vocabulary that has the words of
the text. -/
theorem Source.fits_of_parse {P : Token → Prop} {V : Vocabulary} (hV : V.Has P) {source : Source}
    (ht : ∀ t ∈ source.tokens, P t) {limits : Limits} {parsed : Parsed}
    (h : source.parse limits = .ok parsed) : parsed.program.Fits V .program := by
  have hlast : source.endToken ∈ source.tokens := by simp [Source.tokens]
  have hbuilds := Parse.program_builds hV limits (Parse.holds_initial ht (ht _ hlast))
  obtain ⟨t, hrun, -⟩ := exists_run_of_parse h
  unfold Parse.Builds at hbuilds
  exact ((Outcome.iff_of_ok hrun).1 hbuilds).1

end LimLang
