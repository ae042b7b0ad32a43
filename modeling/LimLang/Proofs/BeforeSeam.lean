import LimLang.Proofs.Seam
import LimLang.Proofs.ExpressionSoundness

/-! # Every parser is the same before a seam

Parser by parser, from integers to statements: what it does on a list of tokens alone it does if the
list goes on, and it leaves as many groups open as it found (`Steady`).  The parsers of nested
expressions and statements are arguments, as in their definitions, and the knots are tied last.

The loops are bounded by the number of tokens ahead, so the bounds are different on the two sides.
They are compared for any two bounds that what is ahead does not exceed.
-/
namespace LimLang

namespace Parse

open Beside

variable {ε α : Type} {j : Seam} {base s : ParseState} {groups bound : Nat}

/-- **A parser that does the same whether the list ends or goes on**, started inside `groups`
groups, and leaves as many open as it found. -/
def Steady (j : Seam) (base : ParseState) (groups : Nat) (x : Parser ε α) : Prop :=
  ∀ {s : ParseState} {bound : Nat}, At base groups bound s →
    Beside j x x s (At base groups bound)

/-! ## Expressions -/

theorem integer_beside (maxDigits : Nat) (token : Token) :
    Steady j base groups (integer maxDigits token) := by
  intro s bound hs
  unfold integer
  dsimp only
  split
  · exact .throw
  · split
    · exact reject_beside
    · exact .pure hs

section Expressions
variable {ex : Nat → Parse Node} (hex : ∀ groups floor, Steady j base groups (ex floor))
include hex

theorem laterItems_beside {more : Nat} (hs : At base groups bound s) (hb : bound ≤ more)
    (n : Nat) (hn : more ≤ n) :
    Beside j (laterItems (ex Precedence.lowest) more) (laterItems (ex Precedence.lowest) n) s
      (At base groups bound) := by
  induction more generalizing s bound n with
  | zero => exact pure_of_bound hs hb
  | succ more ih =>
    obtain ⟨n, rfl⟩ : ∃ k, n = k + 1 := ⟨n - 1, by omega⟩
    unfold laterItems
    refine peekIs_ite ?_ (.pure hs) rfl
    refine (advance_beside hs).bind fun _ t ht => ?_
    refine (advance_beside ht).bind fun _ t ht => ?_
    refine (hex _ _ ht).bind fun item t ht => ?_
    refine (ih ht (by omega) n (by omega)).bind fun items t ht => ?_
    exact .pure (ht.mono (by omega))

theorem items_beside {closer : Kind} (hk : closer.isBoundary = false) :
    Steady j base groups (items (ex Precedence.lowest) closer) := by
  intro s bound hs
  unfold items
  refine (openGroup_beside hs).bind fun _ t ht => ?_
  refine peekIs_ite (leave_bind ht fun t ht => .pure (ht.mono (Nat.sub_le _ _))) ?_ hk
  refine (advance_beside ht).bind fun _ t ht => ?_
  refine (hex _ _ ht).bind fun item t ht => ?_
  refine remaining_bind fun n hn => ?_
  have hle := ht.length_le
  refine (laterItems_beside hex ht.tight (Nat.le_refl _) n hn).bind fun items t ht => ?_
  exact close_bind hk ht fun _ t ht => .pure (ht.mono (by omega))

theorem grouped_beside {closer : Kind} (hk : closer.isBoundary = false) :
    Steady j base groups (grouped (ex Precedence.lowest) closer) := by
  intro s bound hs
  unfold grouped
  refine (openGroup_beside hs).bind fun _ t ht => ?_
  refine (advance_beside ht).bind fun _ t ht => ?_
  refine (hex _ _ ht).bind fun value t ht => ?_
  exact close_bind hk ht fun _ t ht => .pure (ht.mono (by omega))

/-- An operand that stands behind an operator. -/
theorem operandAfter_beside {floor : Nat} {make : Node → Node} (hs : At base groups bound s) :
    Beside j (do advance; return make (← ex floor)) (do advance; return make (← ex floor)) s
      (At base groups bound) := by
  refine (advance_beside hs).bind fun _ t ht => ?_
  exact (hex _ _ ht).bind fun _ t ht => .pure (ht.mono (Nat.sub_le _ _))

theorem operand_beside (maxDigits : Nat) : Steady j base groups (operand maxDigits ex) := by
  intro s bound hs
  unfold operand
  refine current_bind ?_
  split
  · exact .pure hs
  · exact integer_beside maxDigits _ hs
  · exact .pure hs
  · exact .pure hs
  · exact .pure hs
  · exact .pure hs
  · exact operandAfter_beside hex hs
  · exact operandAfter_beside hex hs
  · exact operandAfter_beside hex hs
  · exact grouped_beside hex rfl hs
  · exact (items_beside hex rfl hs).bind fun _ t ht => .pure ht
  · exact reject_beside

theorem continuation_beside (left : Node) : Steady j base groups (continuation ex left) := by
  intro s bound hs
  unfold continuation
  refine current_bind ?_
  split
  · exact (items_beside hex rfl hs).bind fun _ t ht => .pure ht
  · exact (grouped_beside hex rfl hs).bind fun _ t ht => .pure ht
  · exact operandAfter_beside hex hs

theorem climb_beside (floor : Nat) {more : Nat} (left : Node) (hs : At base groups bound s)
    (hb : bound ≤ more) (n : Nat) (hn : more ≤ n) :
    Beside j (climb ex floor more left) (climb ex floor n left) s (At base groups bound) := by
  induction more generalizing s bound n left with
  | zero => exact pure_of_bound hs hb
  | succ more ih =>
    obtain ⟨n, rfl⟩ : ∃ k, n = k + 1 := ⟨n - 1, by omega⟩
    unfold climb
    refine peek_ite ?_ (.pure hs) (fun kind => floor < kind.precedence) Iff.rfl
    refine (advance_beside hs).bind fun _ t ht => ?_
    refine (continuation_beside hex left ht).bind fun left t ht => ?_
    exact (ih left ht (by omega) n (by omega)).mono fun t ht => ht.mono (Nat.sub_le _ _)

end Expressions

/-- **Expressions are the same on both sides.** -/
theorem expression_beside (maxDigits depth floor : Nat) :
    Steady j base groups (expression maxDigits depth floor) := by
  induction depth generalizing groups floor with
  | zero =>
    intro s bound hs
    exact .throw
  | succ depth ih =>
    intro s bound hs
    unfold expression
    refine (operand_beside (fun _ => ih) maxDigits hs).bind fun left t ht => ?_
    refine remaining_bind fun n hn => ?_
    have hclimb := climb_beside (fun _ => ih) floor left ht.tight (Nat.le_refl _) n hn
    exact hclimb.mono fun t' ht' => ht'.mono ht.length_le

/-! ## Statements that end before a terminator -/

theorem expect_beside {kind : Kind} (hk : kind.isBoundary = false) (hs : At base groups bound s) :
    Beside j (expect kind) (expect kind) s (At base groups (bound - 1)) :=
  expectNamed_beside hk hs

theorem declaredName_beside : Steady j base groups declaredName := by
  intro s bound hs
  unfold declaredName
  exact (expectNamed_beside rfl hs).bind fun _ t ht => .pure (ht.mono (Nat.sub_le _ _))

theorem endStatement_beside : Steady j base groups endStatement := by
  intro s bound hs
  have hadvance := (advance_beside (j := j) (ε := ParseHalt) hs).mono
    fun t ht => ht.mono (Nat.sub_le _ _)
  unfold endStatement
  refine peek_bind ?_ fun t heof hline => ?_
  · split
    · exact hadvance
    · split
      · exact reject_beside
      · exact .pure hs
  · simp only [Token.is, heof, hline]
    exact .pure hs

theorem simple_beside {x : Parse Node} (hx : Steady j base groups x) :
    Steady j base groups (simple x) := by
  intro s bound hs
  unfold simple
  refine (hx hs).bind fun node t ht => ?_
  exact (endStatement_beside ht).bind fun _ t ht => .pure ht

section Simple
variable {ex : Parse Node} (hex : Steady j base groups ex)
include hex

theorem initializer_beside (zero : Node) : Steady j base groups (initializer ex zero) := by
  intro s bound hs
  unfold initializer
  refine atEnd_ite (.pure hs) ?_
  refine (expect_beside rfl hs).bind fun _ t ht => ?_
  refine (advance_beside ht).bind fun _ t ht => ?_
  exact (hex ht).mono fun t ht => ht.mono (by omega)

theorem declaration_beside (type : BasicType) : Steady j base groups (declaration ex type) := by
  intro s bound hs
  unfold declaration
  refine current_bind ?_
  refine (declaredName_beside hs).bind fun name t ht => ?_
  exact (initializer_beside hex _ ht).bind fun value t ht => .pure ht

theorem arrayDeclaration_beside : Steady j base groups (arrayDeclaration ex) := by
  intro s bound hs
  unfold arrayDeclaration
  refine current_bind ?_
  refine (expect_beside rfl hs).bind fun _ t ht => ?_
  refine (expect_beside rfl ht).bind fun _ t ht => ?_
  refine (declaredName_beside ht).bind fun name t ht => ?_
  exact (initializer_beside hex _ ht).bind fun value t ht => .pure (ht.mono (by omega))

theorem definition_beside : Steady j base groups (definition ex) := by
  intro s bound hs
  unfold definition
  refine current_bind ?_
  refine (advance_beside hs).bind fun _ t ht => ?_
  refine current_bind ?_
  refine (advance_beside ht).bind fun _ t ht => ?_
  refine current_bind ?_
  dsimp only
  split
  · refine (hex ht).bind fun value t ht => ?_
    split
    · exact .pure (ht.mono (by omega))
    · exact reject_beside
  · split
    · exact (hex ht).bind fun value t ht => .pure (ht.mono (by omega))
    · exact reject_beside

theorem returnStatement_beside : Steady j base groups (returnStatement ex) := by
  intro s bound hs
  unfold returnStatement
  refine current_bind ?_
  refine atEnd_ite (.pure hs) ?_
  refine (advance_beside hs).bind fun _ t ht => ?_
  exact (hex ht).bind fun value t ht => .pure (ht.mono (Nat.sub_le _ _))

theorem expressionStatement_beside : Steady j base groups (expressionStatement ex) := by
  intro s bound hs
  unfold expressionStatement
  refine current_bind ?_
  exact (hex hs).bind fun value t ht => .pure ht

end Simple

/-! ## The signatures of functions -/

theorem typeName_beside : Steady j base groups typeName := by
  intro s bound hs
  unfold typeName
  refine current_bind ?_
  refine peekIs_ite ?_ (.pure hs) rfl
  refine (advance_beside hs).bind fun _ t ht => ?_
  exact (expect_beside rfl ht).bind fun _ t ht => .pure (ht.mono (by omega))

theorem laterParameters_beside {more : Nat} (hs : At base groups bound s) (hb : bound ≤ more)
    (n : Nat) (hn : more ≤ n) :
    Beside j (laterParameters more) (laterParameters n) s (At base groups bound) := by
  induction more generalizing s bound n with
  | zero => exact pure_of_bound hs hb
  | succ more ih =>
    obtain ⟨n, rfl⟩ : ∃ k, n = k + 1 := ⟨n - 1, by omega⟩
    unfold laterParameters
    refine (advance_beside hs).bind fun _ t ht => ?_
    refine current_bind ?_
    split
    · refine (typeName_beside ht).bind fun type t ht => ?_
      refine (expectNamed_beside rfl ht).bind fun name t ht => ?_
      refine peekIs_ite ?_ (.pure (ht.mono (by omega))) rfl
      refine (advance_beside ht).bind fun _ t ht => ?_
      refine (ih ht (by omega) n (by omega)).bind fun parameters t ht => ?_
      exact .pure (ht.mono (by omega))
    · exact reject_beside

theorem parameters_beside : Steady j base groups parameters := by
  intro s bound hs
  unfold parameters
  refine (openGroup_beside hs).bind fun _ t ht => ?_
  refine peekIs_ite (leave_bind ht fun t ht => .pure (ht.mono (Nat.sub_le _ _))) ?_ rfl
  refine remaining_bind fun n hn => ?_
  have hle := ht.length_le
  refine (laterParameters_beside ht.tight (Nat.le_succ _) (n + 1) (Nat.succ_le_succ hn)).bind
    fun items t ht => ?_
  exact close_bind rfl ht fun _ t ht => .pure (ht.mono (by omega))

theorem resultType_beside : Steady j base groups resultType := by
  intro s bound hs
  have htype : ∀ {t}, At base groups bound t →
      Beside j (do if (← peek).kind.isType then advance; return some (← typeName) else return none)
        (do if (← peek).kind.isType then advance; return some (← typeName) else return none) t
        (At base groups bound) := by
    intro t ht
    refine peek_ite ?_ (.pure ht) (fun kind => kind.isType = true) Iff.rfl
    refine (advance_beside ht).bind fun _ t ht => ?_
    exact (typeName_beside ht).bind fun type t ht => .pure (ht.mono (Nat.sub_le _ _))
  unfold resultType
  refine peekIs_ite ?_ (htype hs) rfl
  refine (advance_beside hs).bind fun _ t ht => ?_
  replace ht := ht.mono (Nat.sub_le _ _)
  refine peek_bind ?_ fun u heof hline => ?_
  · split
    · exact reject_beside.bind fun _ t (ht : At base groups bound t) => htype ht
    · exact htype ht
  · rw [if_pos (by rw [heof]; rfl), if_pos (by rw [hline]; rfl)]
    exact (reject_eof heof).bind fun _ t (ht : At base groups bound t) => htype ht

/-! ## Statements with blocks -/

theorem liftCrash_beside {x y : Parser Crash α} {after : ParseState → Prop}
    (h : Beside j x y s after) : Beside j (liftCrash x) (liftCrash y) s after := by
  have hfinal : finalState (liftCrash x s) = finalState (x s) := by
    unfold liftCrash
    cases x s <;> rfl
  refine ⟨?_, ?_, fun a t hx => ?_⟩
  · rw [hfinal]
    exact h.before
  · rw [hfinal]
    intro hend
    unfold liftCrash
    rw [h.same hend]
    cases x s <;> rfl
  · cases hr : x s with
    | ok b u =>
      simp only [liftCrash, hr, EStateM.Result.ok.injEq] at hx
      exact h.after b t (by rw [hr, hx.2])
    | error e u => simp [liftCrash, hr] at hx

/-- Outside of groups there is nothing to leave. -/
theorem ungroup_beside (hs : At base 0 bound s) :
    Beside j (move fun c => { c with groups := 0 } : Parser ε Unit)
      (move fun c => { c with groups := 0 }) s (At base 0 bound) := by
  have hstay : ({ s.toCursor with groups := 0 } : Cursor) = s.toCursor :=
    Cursor.ungroup_eq hs.groups_eq
  refine move_beside (fun h => ?_) ?_
  · rw [hstay] at h ⊢
    exact ⟨h, Cursor.ungroup_eq hs.groups_eq⟩
  · rw [hstay]
    exact hs

section Compound
variable {statement : Parse (Option Node)} (hst : Steady j base 0 (recovering statement))
include hst

theorem statements_beside (closes : Kind → Bool) {more : Nat} (hs : At base 0 bound s)
    (hb : bound ≤ more) (n : Nat) (hn : more ≤ n) :
    Beside j (statements closes statement more) (statements closes statement n) s
      (At base 0 bound) := by
  induction more generalizing s bound n with
  | zero => exact pure_of_bound hs hb
  | succ more ih =>
    obtain ⟨n, rfl⟩ : ∃ k, n = k + 1 := ⟨n - 1, by omega⟩
    unfold statements
    refine current_bind ?_
    split
    · exact .pure hs
    refine (hst hs).bind fun result t ht => ?_
    cases result with
    | some node =>
      refine (advance_beside ht).bind fun _ t ht => ?_
      refine (ih ht (by omega) n (by omega)).bind fun nodes t ht => ?_
      exact .pure (ht.mono (Nat.sub_le _ _))
    | none =>
      refine current_bind ?_
      split
      · exact .pure ht
      refine (advance_beside ht).bind fun _ t ht => ?_
      exact (ih ht (by omega) n (by omega)).mono fun t ht => ht.mono (Nat.sub_le _ _)

theorem block_beside : Steady j base 0 (block statement) := by
  intro s bound hs
  have hgroups : (s.joined j).groups = 0 := hs.groups_eq
  unfold block
  refine current_bind ?_
  refine get_bind ?_
  rw [hs.groups_eq, hgroups]
  refine (ungroup_beside hs).bind fun _ t ht => ?_
  refine (advance_beside ht).bind fun _ t ht => ?_
  refine remaining_bind fun n hn => ?_
  have hle := ht.length_le
  have hbody := liftCrash_beside
    (statements_beside hst Kind.closesBlock ht.tight (Nat.le_add_right _ 2) (n + 2) (by omega))
  refine hbody.bind fun nodes t ht => ?_
  refine (ungroup_beside ht).bind fun _ t ht => ?_
  refine current_bind ?_
  split
  · exact reject_beside
  · exact .pure (ht.mono (by omega))

theorem function_beside : Steady j base 0 (function statement) := by
  intro s bound hs
  unfold function
  refine current_bind ?_
  refine (expectNamed_beside rfl hs).bind fun name t ht => ?_
  refine (expect_beside rfl ht).bind fun _ t ht => ?_
  refine (parameters_beside ht).bind fun parameters t ht => ?_
  refine (resultType_beside ht).bind fun result t ht => ?_
  refine (expect_beside rfl ht).bind fun _ t ht => ?_
  exact (block_beside hst ht).bind fun body t ht => .pure (ht.mono (by omega))

variable {ex : Parse Node} (hex : Steady j base 0 ex)
include hex

theorem branches_beside {more : Nat} (hs : At base 0 bound s) (hb : bound ≤ more) (n : Nat)
    (hn : more ≤ n) :
    Beside j (branches ex statement more) (branches ex statement n) s (At base 0 bound) := by
  induction more generalizing s bound n with
  | zero => exact of_not_before (not_before_of_bound hs hb) (Beside.throw (j := j)).after
  | succ more ih =>
    obtain ⟨n, rfl⟩ : ∃ k, n = k + 1 := ⟨n - 1, by omega⟩
    unfold branches
    refine current_bind ?_
    refine (advance_beside hs).bind fun _ t ht => ?_
    refine (hex ht).bind fun condition t ht => ?_
    refine (expect_beside rfl ht).bind fun _ t ht => ?_
    refine (block_beside hst ht).bind fun body t ht => ?_
    refine peekIs_ite ?_ (.pure (ht.mono (by omega))) rfl
    refine (advance_beside ht).bind fun _ t ht => ?_
    refine current_bind ?_
    refine peek_bind ?_ fun u heof hline => ?_
    · split
      · refine (advance_beside ht).bind fun _ t ht => ?_
        exact (block_beside hst ht).bind fun last t ht => .pure (ht.mono (by omega))
      · split
        · refine (advance_beside ht).bind fun _ t ht => ?_
          refine (ih ht (by omega) n (by omega)).bind fun next t ht => ?_
          exact .pure (ht.mono (by omega))
        · exact reject_beside
    · simp only [Token.is, heof, beq_iff_eq, reduceCtorEq, if_false]
      exact reject_eof heof

theorem statementWith_beside : Steady j base 0 (statementWith ex statement) := by
  intro s bound hs
  unfold statementWith
  refine current_bind ?_
  split
  · exact .throw
  · exact .pure hs
  · exact reject_beside
  · exact reject_beside
  · exact reject_beside
  · exact (function_beside hst hs).bind fun node t ht => .pure ht
  · refine remaining_bind fun n hn => ?_
    refine (branches_beside hst hex hs.tight (Nat.le_succ _) (n + 1) (by omega)).bind
      fun node t ht => .pure (ht.mono hs.length_le)
  · exact simple_beside (returnStatement_beside hex) hs
  · split
    · exact peekIs_ite (simple_beside (arrayDeclaration_beside hex) hs)
        (simple_beside (declaration_beside hex _) hs) rfl
    · refine peekIs_bind rfl fun b => ?_
      split
      · exact simple_beside (definition_beside hex) hs
      · exact simple_beside (expressionStatement_beside hex) hs

end Compound

/-- **Statements are the same on both sides**, if malformed ones are skipped in the same way. -/
theorem statement_beside
    (hrec : ∀ maxDigits depth, Steady j base 0 (statement maxDigits depth) →
      Steady j base 0 (recovering (statement maxDigits depth))) (maxDigits depth : Nat) :
    Steady j base 0 (statement maxDigits depth) := by
  induction depth with
  | zero =>
    intro s bound hs
    exact .throw
  | succ depth ih =>
    exact statementWith_beside (hrec maxDigits depth ih)
      (expression_beside maxDigits depth Precedence.lowest)

end Parse

end LimLang
