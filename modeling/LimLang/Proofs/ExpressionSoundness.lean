import LimLang.Proofs.Grammar
import LimLang.Proofs.Halting

/-! # What the parser of expressions reads

Whatever the parser of expressions returns is the tree of what it read, at the level of the grammar
that it was asked for, and the token ahead binds no tighter than that; or it halts for a reason.

The loop that takes in operators keeps an invariant: what has been read is an expression at some
level `level`, not below the floor, and the token ahead does not bind tighter than what may follow
an expression of that level (`Precedence.follower`).
-/
namespace LimLang

open Cursor (isNewline)
open ParseState (Later)

/-- The tightest precedence of a token that can be ahead when an expression of a level has been read
to its end. -/
def Precedence.follower (level : Nat) : Nat :=
  if level < unary then level + 1 else if level = unary then unary else index

namespace Precedence

theorem le_follower {level : Nat} (h : level ≤ index) : level ≤ follower level := by
  unfold follower index unary at *
  split
  · omega
  · split <;> omega

/-- Only what binds tightest is followed by a call or an index. -/
theorem call_le_of_call_le_follower {level : Nat} (h : call ≤ follower level) : call ≤ level := by
  unfold follower call index unary at *
  split at h
  · omega
  · split at h <;> omega

theorem follower_mono {low high : Nat} (h : low ≤ high) : follower low ≤ follower high := by
  unfold follower index unary
  split <;> split <;> (try split) <;> (try split) <;> omega

end Precedence

theorem Kind.precedence_le_index (kind : Kind) : kind.precedence ≤ Precedence.index := by
  cases kind <;> decide

theorem Kind.lowest_le_precedence (kind : Kind) : Precedence.lowest ≤ kind.precedence := by
  cases kind <;> decide

/-- All that can follow an operand but a call or an index is an operator between operands. -/
theorem Kind.precedence_le_product {kind : Kind} (hp : kind ≠ .lparen) (hb : kind ≠ .lbrack) :
    kind.precedence ≤ Precedence.product := by
  revert hp hb
  cases kind <;> decide

namespace Parse

variable {maxDigits depth : Nat} {findings : List Finding} {base : ParseState}

/-- The parser started at `c` has read an expression of a level, and the token ahead binds no
tighter than `limit`. -/
def HasRead (c : Cursor) (findings : List Finding) (level limit : Nat) (node : Node)
    (t : ParseState) : Prop :=
  ∃ read d, t = ⟨d, findings⟩ ∧ d.Ready ∧ c.Moves read d ∧
    Phrase (.expression level) (c.current :: read) [node] ∧ d.peek.kind.precedence ≤ limit

/-- **What is asked of a parser of nested expressions.** -/
def ReadsExpressions (maxDigits depth : Nat) (ex : Nat → Parse Node) : Prop :=
  ∀ (floor : Nat) (c : Cursor) (findings : List Finding), c.Ready →
    Precedence.lowest ≤ floor → floor ≤ Precedence.unary →
    Outcome (ex floor) ⟨c, findings⟩ (HasRead c findings floor floor)
      (Halts maxDigits depth ⟨c, findings⟩)

/-- Calling on a nested parser, after at least one token has been passed. -/
theorem ReadsExpressions.step {ex : Nat → Parse Node} (hex : ReadsExpressions maxDigits depth ex)
    {floor : Nat} {c : Cursor} {ok : Node → ParseState → Prop}
    (hl : base.Later ⟨c, findings⟩) (hlt : c.view.length < base.view.length)
    (hlow : Precedence.lowest ≤ floor) (hhigh : floor ≤ Precedence.unary)
    (h : ∀ node read d, d.Ready → c.Moves read d →
      Phrase (.expression floor) (c.current :: read) [node] → d.peek.kind.precedence ≤ floor →
      ok node ⟨d, findings⟩) :
    Outcome (ex floor) ⟨c, findings⟩ ok (Halts maxDigits (depth + 1) base) := by
  refine (hex floor c findings hl.ready hlow hhigh).mono ?_ ?_
  · rintro node t ⟨read, d, rfl, hd, hm, hp, hk⟩
    exact h node read d hd hm hp hk
  · intro halt t ht
    refine ht.earlier hl fun hle => ?_
    have : depth ≤ c.view.length := hle
    omega

/-! ## Brackets -/

section Brackets
variable {ex : Nat → Parse Node} (hex : ReadsExpressions maxDigits depth ex)
include hex

/-- The items after the first one of a list. -/
theorem laterItems_reads (bound : Nat) {c : Cursor} (hl : base.Later ⟨c, findings⟩)
    (hlt : c.view.length < base.view.length) (hg : c.groups ≠ 0) :
    Outcome (laterItems (ex Precedence.lowest) bound) ⟨c, findings⟩
      (fun nodes t => ∃ read d, t = ⟨d, findings⟩ ∧ d.Ready ∧ c.Moves read d ∧
        ∀ ts node, Phrase (.expression Precedence.lowest) ts [node] →
          Phrase .items (ts ++ read) (node :: nodes))
      (Halts maxDigits (depth + 1) base) := by
  induction bound generalizing c with
  | zero =>
    refine ⟨[], c, rfl, hl.ready, .refl c, fun ts node h => ?_⟩
    simpa using Phrase.item h
  | succ bound ih =>
    unfold laterItems
    simp only [Outcome.bind_iff, peekIs_iff]
    by_cases hk : c.peek.kind = .comma
    · simp only [Token.is, hk, beq_self_eq_true, if_true, Outcome.bind_iff, advance_iff,
        Outcome.pure_iff]
      have hbound : c.peek.kind.isBoundary = false := by rw [hk]; rfl
      have hm₁ := hl.ready.moves_peek hbound
      have hl₁ := hl.advance
      have hcomma := hl.ready.current_advance hbound
      have hne : c.advance.current.kind ≠ .eof := by rw [hcomma, hk]; decide
      have hm₂ := hl₁.ready.moves_advance hne (by rw [Cursor.advance_groups]; exact hg)
      have hl₂ := hl₁.advance
      refine hex.step hl₂ ?_ (by decide) (by decide) ?_
      · exact Nat.lt_of_le_of_lt ((hm₁.trans hm₂).sublist.length_le) hlt
      · intro node read d hd hm hp _
        have hl₃ := hl₂.trans (.of_moves hm hd)
        refine (ih hl₃ ?_ ?_).mono ?_ fun _ _ h => h
        · exact Nat.lt_of_le_of_lt (((hm₁.trans hm₂).trans hm).sublist.length_le) hlt
        · rw [((hm₁.trans hm₂).trans hm).groups_eq]
          exact hg
        · rintro nodes t ⟨read', e, rfl, he, hm', hi⟩
          refine ⟨_, e, rfl, he, ((hm₁.trans hm₂).trans hm).trans hm', fun ts first hfirst => ?_⟩
          have := Phrase.later hfirst hk (hi _ _ hp)
          simpa using this
    · simp only [Token.is, beq_iff_eq, hk, if_false, Outcome.pure_iff]
      refine ⟨[], c, rfl, hl.ready, .refl c, fun ts node h => ?_⟩
      simpa using Phrase.item h

/-- A list of expressions in brackets. -/
theorem items_reads {closer : Kind} (hcb : closer.isBoundary = false) {c : Cursor}
    (hl : base.Later ⟨c, findings⟩) (hlt : c.view.length ≤ base.view.length)
    (hne : c.current.kind ≠ .eof) :
    Outcome (items (ex Precedence.lowest) closer) ⟨c, findings⟩
      (fun nodes t => ∃ stretch closing d, t = ⟨d, findings⟩ ∧ d.Ready ∧ closing.kind = closer ∧
        c.Moves (stretch ++ [closing]) d ∧ Phrase .list (unbroken stretch) nodes)
      (Halts maxDigits (depth + 1) base) := by
  unfold items
  simp only [Outcome.bind_iff, move_iff, peekIs_iff]
  have hlo := hl.openGroup
  by_cases hk : c.openGroup.peek.kind = closer
  · simp only [Token.is, hk, beq_self_eq_true, if_true, Outcome.bind_iff, move_iff, advance_iff,
      Outcome.pure_iff]
    obtain ⟨stretch, hst, hm⟩ := Cursor.Moves.leave hl.ready (.refl _) hlo.ready
      (by rw [hk]; exact hcb)
    exact ⟨stretch, _, _, rfl, hlo.closeGroup.ready.advance, hk, hm, hst ▸ Phrase.none⟩
  · simp only [Token.is, beq_iff_eq, hk, if_false, Outcome.bind_iff, advance_iff, remaining_iff,
      move_iff, Outcome.pure_iff]
    have hla := hlo.advance
    have hm₁ := hlo.ready.moves_advance hne (Nat.succ_ne_zero c.groups)
    have hshort : c.openGroup.advance.view.length < base.view.length := by
      have := hlo.ready.length_advance_lt hne
      have := (Cursor.openGroup_sublist c).length_le
      simp only [Cursor.view, List.length_cons] at *
      omega
    refine hex.step hla hshort (by decide) (by decide) ?_
    intro node read d hd hm hp _
    have hld := hla.trans (.of_moves hm hd)
    have hgd : d.groups ≠ 0 := by
      rw [(hm₁.trans hm).groups_eq]
      exact Nat.succ_ne_zero c.groups
    refine (laterItems_reads hex _ hld ?_ hgd).mono ?_ fun _ _ h => h
    · exact Nat.lt_of_le_of_lt hm.sublist.length_le hshort
    · rintro nodes t ⟨read', e, rfl, he, hm', hi⟩
      have hle := hld.trans (.of_moves hm' he)
      refine expect_step hle.closeGroup fun hk => ?_
      replace hk : e.peek.kind = closer := hk
      obtain ⟨stretch, hst, hms⟩ := Cursor.Moves.leave hl.ready ((hm₁.trans hm).trans hm') he
        (by rw [hk]; exact hcb)
      refine ⟨stretch, _, _, rfl, hle.closeGroup.ready.advance, hk, hms, ?_⟩
      rw [hst]
      exact .some (hi _ _ hp)

/-- An expression in brackets. -/
theorem grouped_reads {closer : Kind} (hcb : closer.isBoundary = false) {c : Cursor}
    (hl : base.Later ⟨c, findings⟩) (hlt : c.view.length ≤ base.view.length)
    (hne : c.current.kind ≠ .eof) :
    Outcome (grouped (ex Precedence.lowest) closer) ⟨c, findings⟩
      (fun node t => ∃ stretch closing d, t = ⟨d, findings⟩ ∧ d.Ready ∧ closing.kind = closer ∧
        c.Moves (stretch ++ [closing]) d ∧
        Phrase (.expression Precedence.lowest) (unbroken stretch) [node])
      (Halts maxDigits (depth + 1) base) := by
  unfold grouped
  simp only [Outcome.bind_iff, move_iff, advance_iff, Outcome.pure_iff]
  have hlo := hl.openGroup
  have hla := hlo.advance
  have hm₁ := hlo.ready.moves_advance hne (Nat.succ_ne_zero c.groups)
  refine hex.step hla ?_ (by decide) (by decide) ?_
  · have := hlo.ready.length_advance_lt hne
    have := (Cursor.openGroup_sublist c).length_le
    simp only [Cursor.view, List.length_cons] at *
    omega
  · intro node read d hd hm hp _
    have hld := hla.trans (.of_moves hm hd)
    refine expect_step hld.closeGroup fun hk => ?_
    replace hk : d.peek.kind = closer := hk
    obtain ⟨stretch, hst, hms⟩ := Cursor.Moves.leave hl.ready (hm₁.trans hm) hd
      (by rw [hk]; exact hcb)
    refine ⟨stretch, _, _, rfl, hld.closeGroup.ready.advance, hk, hms, ?_⟩
    rw [hst]
    exact hp

end Brackets

/-! ## Operands and operators -/

theorem integer_reads {c : Cursor} (hl : base.Later ⟨c, findings⟩) (hk : c.current.kind = .int) :
    Outcome (integer maxDigits c.current) ⟨c, findings⟩
      (fun node t => t = ⟨c, findings⟩ ∧
        Phrase (.expression Precedence.call) [c.current] [node])
      (Halts maxDigits (depth + 1) base) := by
  have hm : c.current ∈ c.view := List.mem_cons_self
  unfold integer
  simp only [List.length_map, String.length_toList]
  by_cases hlong : maxDigits < c.current.text.length
  · simp only [hlong, if_true, Outcome.bind_iff, Outcome.throw_iff]
    exact ⟨c.current, hl.sublist.subset hm, hk, hlong⟩
  · simp only [hlong, if_false]
    by_cases hb : MachineInt.bound ≤ c.current.number
    · have hb' := hb
      unfold Token.number at hb'
      simp only [hb', if_true]
      exact reject_halts hl (hl.sublist.subset hm)
    · have hb' := hb
      unfold Token.number at hb'
      simp only [hb', if_false]
      exact ⟨rfl, .int hk (Nat.lt_of_not_le hb)⟩

section Operators
variable {ex : Nat → Parse Node} (hex : ReadsExpressions maxDigits depth ex)
include hex

/-- An operator with the operand behind it. -/
theorem unary_reads {c : Cursor} (hl : base.Later ⟨c, findings⟩)
    (hlt : c.view.length ≤ base.view.length) (hp : c.current.kind.isPrefix) :
    Outcome (do
        advance
        return Node.unary c.current c.current.text (← ex Precedence.unary)) ⟨c, findings⟩
      (fun node t => ∃ level, Precedence.unary ≤ level ∧
        HasRead c findings level (Precedence.follower level) node t)
      (Halts maxDigits (depth + 1) base) := by
  have hne : c.current.kind ≠ .eof := by
    intro h
    simp [h, Kind.isPrefix] at hp
  obtain ⟨gap, t, rest, hgap, -, ht, hm₁, -⟩ := hl.ready.exists_advance hne
  have hla := hl.advance
  simp only [Outcome.bind_iff, advance_iff, Outcome.pure_iff]
  refine hex.step hla ?_ (by decide) (by decide) ?_
  · have := hl.ready.length_advance_lt hne
    simp only [Cursor.view, List.length_cons] at *
    omega
  · intro node read d hd hm hnode hk
    rw [ht] at hnode
    refine ⟨Precedence.unary, Nat.le_refl _, _, d, rfl, hd, hm₁.trans hm, ?_, hk⟩
    simpa using Phrase.unary hp hgap hnode

/-- **What an expression starts with**: all that binds tighter than the operators between operands. -/
theorem operand_reads {c : Cursor} (hl : base.Later ⟨c, findings⟩)
    (hlt : c.view.length ≤ base.view.length) :
    Outcome (operand maxDigits ex) ⟨c, findings⟩
      (fun node t => ∃ level, Precedence.unary ≤ level ∧
        HasRead c findings level (Precedence.follower level) node t)
      (Halts maxDigits (depth + 1) base) := by
  -- What ends with a bracket or is a single token may be followed by anything.
  have tight : ∀ read d node, d.Ready → c.Moves read d →
      Phrase (.expression Precedence.call) (c.current :: read) [node] →
      ∃ level, Precedence.unary ≤ level ∧
        HasRead c findings level (Precedence.follower level) node ⟨d, findings⟩ := by
    intro read d node hd hm h
    exact ⟨Precedence.call, by decide, read, d, rfl, hd, hm, h, Kind.precedence_le_index _⟩
  have single := fun node => tight [] c node hl.ready (.refl c)
  unfold operand
  simp only [Outcome.bind_iff, current_iff]
  split
  · next hk => exact single _ (.ident hk)
  · next hk =>
    refine (integer_reads hl hk).mono ?_ fun _ _ h => h
    rintro node t ⟨rfl, h⟩
    exact single node h
  · next hk => exact single _ (.string hk)
  · next hk => exact single _ (.true hk)
  · next hk => exact single _ (.false hk)
  · next hk => exact single _ (.null hk)
  · next hk => exact unary_reads hex hl hlt (by rw [hk]; rfl)
  · next hk => exact unary_reads hex hl hlt (by rw [hk]; rfl)
  · next hk => exact unary_reads hex hl hlt (by rw [hk]; rfl)
  · next hk =>
    refine (grouped_reads hex rfl hl hlt (by rw [hk]; decide)).mono ?_
      fun _ _ h => h
    rintro node t ⟨stretch, closing, d, rfl, hd, hc, hm, h⟩
    exact tight _ d node hd hm (.group hk hc h)
  · next hk =>
    simp only [Outcome.bind_iff, Outcome.pure_iff]
    refine (items_reads hex rfl hl hlt (by rw [hk]; decide)).mono ?_
      fun _ _ h => h
    rintro nodes t ⟨stretch, closing, d, rfl, hd, hc, hm, h⟩
    exact tight _ d _ hd hm (.array hk hc h)
  · exact reject_halts hl (hl.sublist.subset List.mem_cons_self)

/-- **What follows an operand.**  An expression that starts at `start` has been read up to `c`, and the
token ahead of `c` binds no tighter than what may follow the level of the expression. -/
theorem continuation_reads {start c : Cursor} {read : List Token} {level : Nat} {left : Node}
    (hl : base.Later ⟨c, findings⟩) (hm : start.Moves read c)
    (hp : Phrase (.expression level) (start.current :: read) [left])
    (hlow : Precedence.lowest < c.peek.kind.precedence)
    (hk : c.peek.kind.precedence ≤ Precedence.follower level) :
    Outcome (continuation ex left) ⟨c.advance, findings⟩
      (fun node t => t.ahead.length < c.ahead.length ∧ ∃ level',
        c.peek.kind.precedence ≤ level' + 1 ∧
        HasRead start findings level' (Precedence.follower level') node t)
      (Halts maxDigits (depth + 1) base) := by
  have hbound : c.peek.kind.isBoundary = false := by
    revert hlow
    cases c.peek.kind <;> decide
  have hm₁ := hl.ready.moves_peek hbound
  have hcur := hl.ready.current_advance hbound
  have hla := hl.advance
  have hnea : c.advance.current.kind ≠ .eof := by
    rw [hcur]
    exact Kind.ne_of_isBoundary hbound rfl
  have shorter : ∀ more d, c.advance.Moves more d → d.ahead.length < c.ahead.length := by
    intro more d h
    have := (hm₁.trans h).length_le
    simp only [List.length_append, List.length_cons] at this
    omega
  unfold continuation
  simp only [Outcome.bind_iff, current_iff, hcur]
  split
  · next hkind =>
    have htight : Precedence.call ≤ level :=
      Precedence.call_le_of_call_le_follower (by rw [hkind] at hk; exact hk)
    simp only [Outcome.bind_iff, Outcome.pure_iff]
    refine (items_reads hex rfl hla hla.length_le hnea).mono ?_ fun _ _ h => h
    rintro nodes t ⟨stretch, closing, d, rfl, hd, hc, hmi, h⟩
    refine ⟨shorter _ d hmi, Precedence.call, by rw [hkind]; decide, _, d, rfl, hd,
      (hm.trans hm₁).trans hmi, ?_,
      Kind.precedence_le_index _⟩
    simpa using Phrase.call (hp.loosen htight) hkind hc h
  · next hkind =>
    have htight : Precedence.call ≤ level :=
      Precedence.call_le_of_call_le_follower
        (Nat.le_trans (show Precedence.call ≤ Precedence.index by decide)
          (by rw [hkind] at hk; exact hk))
    simp only [Outcome.bind_iff, Outcome.pure_iff]
    refine (grouped_reads hex rfl hla hla.length_le hnea).mono ?_
      fun _ _ h => h
    rintro node t ⟨stretch, closing, d, rfl, hd, hc, hmi, h⟩
    refine ⟨shorter _ d hmi, Precedence.call, by rw [hkind]; decide, _, d, rfl, hd,
      (hm.trans hm₁).trans hmi, ?_,
      Kind.precedence_le_index _⟩
    simpa using Phrase.index (hp.loosen htight) hkind hc h
  · next hparen hbrack =>
    have hle := Kind.precedence_le_product hparen hbrack
    obtain ⟨floor, hfloor⟩ : ∃ floor, c.peek.kind.precedence = floor + 1 :=
      ⟨c.peek.kind.precedence - 1, by omega⟩
    have hbelow : floor ≤ level := by
      rw [hfloor] at hk
      unfold Precedence.follower Precedence.index Precedence.unary at hk
      split at hk
      · omega
      · split at hk
        all_goals
          rw [hfloor] at hle
          unfold Precedence.product at hle
          omega
    obtain ⟨gap, t, rest, hgap, -, ht, hm₂, -⟩ := hla.ready.exists_advance hnea
    simp only [Outcome.bind_iff, advance_iff, Outcome.pure_iff]
    have hshort : c.advance.advance.view.length < base.view.length := by
      have := hla.ready.length_advance_lt hnea
      have := hla.length_le
      simp only [Cursor.view, List.length_cons] at *
      omega
    refine hex.step hla.advance hshort (Kind.lowest_le_precedence _)
      (Nat.le_trans hle (by decide)) ?_
    intro right read' d hd hmr hr hpeek
    rw [ht] at hr
    rw [hfloor] at hpeek
    have hlowest : Precedence.lowest ≤ floor := by omega
    refine ⟨shorter _ d (hm₂.trans hmr), floor, hfloor.le, _, d, rfl, hd,
      ((hm.trans hm₁).trans hm₂).trans hmr, ?_, ?_⟩
    · have := Phrase.binary hlowest hfloor hle hgap (hp.loosen hbelow) (hfloor ▸ hr)
      simpa using this
    · refine Nat.le_trans hpeek ?_
      rw [hfloor] at hle
      unfold Precedence.product at hle
      unfold Precedence.follower Precedence.unary
      split <;> omega

/-- **The loop over operators** reads on until the token ahead binds no tighter than the floor. -/
theorem climb_reads {start : Cursor} {floor : Nat} (hlow : Precedence.lowest ≤ floor) (bound : Nat)
    {c : Cursor} {read : List Token} {level : Nat} {left : Node}
    (hl : Later ⟨start, findings⟩ ⟨c, findings⟩) (hb : c.ahead.length ≤ bound)
    (hm : start.Moves read c) (hp : Phrase (.expression level) (start.current :: read) [left])
    (hf : floor ≤ level) (hk : c.peek.kind.precedence ≤ Precedence.follower level) :
    Outcome (climb ex floor bound left) ⟨c, findings⟩ (HasRead start findings floor floor)
      (Halts maxDigits (depth + 1) ⟨start, findings⟩) := by
  induction bound generalizing c read level left with
  | zero =>
    refine ⟨read, c, rfl, hl.ready, hm, hp.loosen hf, ?_⟩
    have hnil : c.ahead = [] := List.eq_nil_of_length_eq_zero (Nat.le_zero.1 hb)
    have hpeek : c.peek = c.current := by simp [Cursor.peek, hnil]
    rw [hpeek, hl.ready.current_eq_eof hnil]
    exact hlow
  | succ bound ih =>
    unfold climb
    simp only [Outcome.bind_iff, peek_iff]
    by_cases hlt : floor < c.peek.kind.precedence
    · simp only [hlt, if_true, Outcome.bind_iff, advance_iff]
      refine (continuation_reads hex hl hm hp (Nat.lt_of_le_of_lt hlow hlt) hk).mono ?_
        fun _ _ h => h
      rintro node t ⟨hshort, level', hle, read', d, rfl, hd, hmd, hpd, hkd⟩
      replace hshort : d.ahead.length < c.ahead.length := hshort
      exact ih (.of_moves hmd hd) (by omega) hmd hpd (by omega) hkd
    · simp only [hlt, if_false, Outcome.pure_iff]
      exact ⟨read, c, rfl, hl.ready, hm, hp.loosen hf, Nat.le_of_not_lt hlt⟩

end Operators

/-- **The parser of expressions reads expressions.** -/
theorem expression_reads (maxDigits depth : Nat) :
    ReadsExpressions maxDigits depth (expression maxDigits depth) := by
  induction depth with
  | zero =>
    intro floor c findings _ _ _
    exact Nat.zero_le _
  | succ depth ih =>
    intro floor c findings hready hlow hhigh
    have hl : Later ⟨c, findings⟩ ⟨c, findings⟩ := .refl hready
    unfold expression
    simp only [Outcome.bind_iff, remaining_iff]
    refine (operand_reads ih hl (Nat.le_refl _)).mono ?_ fun _ _ h => h
    rintro node t ⟨level, hlevel, read, d, rfl, hd, hm, hp, hk⟩
    exact climb_reads ih hlow _ (.of_moves hm hd) (Nat.le_refl _) hm hp
      (Nat.le_trans hhigh hlevel) hk

end Parse

end LimLang
