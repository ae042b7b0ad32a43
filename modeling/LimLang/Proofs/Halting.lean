import LimLang.Proofs.Reading

/-! # What parsers do when they halt

A parser halts at a malformed statement, which it has recorded, or crashes.  `ParseState.Later` says
that a state comes after another one in the same list of tokens, and `ParseState.Undisturbed` that
nothing was found wrong in between; only text that is no token goes unrecorded.  `Halts` says what
is known of the state a parser halts in, and why it crashed: its nesting was bounded by fewer levels
than there are tokens, or a literal was too long.

The lemmas on single steps (`advance_iff`, `reject_halts`, `expect_step`) are stated so that a
parser is followed step by step from the state it was started in.
-/
namespace LimLang

open Cursor (isNewline)

namespace ParseState

/-- **`t` comes after `s`**: the cursor stands as it should on what is left of the tokens, and what was
recorded before still is. -/
structure Later (s t : ParseState) : Prop where
  ready : t.toCursor.Ready
  sublist : t.view.Sublist s.view
  findings : s.findings <+: t.findings

variable {s t u : ParseState}

theorem Later.refl (h : s.toCursor.Ready) : s.Later s :=
  ⟨h, .refl _, List.prefix_refl _⟩

theorem Later.trans (h : s.Later t) (h' : t.Later u) : s.Later u :=
  ⟨h'.ready, h'.sublist.trans h.sublist, h.findings.trans h'.findings⟩

theorem Later.of_moves {c d : Cursor} {read : List Token} {findings : List Finding}
    (h : c.Moves read d) (hd : d.Ready) : Later ⟨c, findings⟩ ⟨d, findings⟩ :=
  ⟨hd, h.sublist, List.prefix_refl _⟩

theorem Later.advance (h : s.Later t) : s.Later ⟨t.toCursor.advance, t.findings⟩ :=
  ⟨h.ready.advance, (Cursor.advance_sublist t.toCursor).trans h.sublist, h.findings⟩

theorem Later.openGroup (h : s.Later t) : s.Later ⟨t.toCursor.openGroup, t.findings⟩ :=
  ⟨h.ready.openGroup, (Cursor.openGroup_sublist t.toCursor).trans h.sublist, h.findings⟩

theorem Later.closeGroup (h : s.Later t) : s.Later ⟨t.toCursor.closeGroup, t.findings⟩ :=
  ⟨h.ready.closeGroup, h.sublist, h.findings⟩

theorem Later.length_le (h : s.Later t) : t.view.length ≤ s.view.length :=
  h.sublist.length_le

/-- Before the end, going on leaves less ahead. -/
theorem Later.length_advance_lt (h : s.Later t) (hs : s.toCursor.Ready)
    (hne : s.current.kind ≠ .eof) : t.toCursor.advance.ahead.length < s.ahead.length := by
  have hpos := List.length_pos_of_ne_nil (hs.terminated_ahead hne).ne_nil
  by_cases hend : t.current.kind = .eof
  · rw [Cursor.advance_of_eof h.ready hend, h.ready.ahead_eq_nil hend]
    exact hpos
  · have hlt := h.ready.length_advance_lt hend
    have hle := h.length_le
    simp only [Cursor.view, List.length_cons] at hle
    omega

/-- Outside groups nothing depends on which were open before. -/
theorem Later.ungroup (h : s.Later t) : s.Later ⟨{ t.toCursor with groups := 0 }, t.findings⟩ :=
  ⟨⟨h.ready.terminated, h.ready.current_ne, settle_zero _⟩, h.sublist, h.findings⟩

theorem Later.skipWithin (bound depth : Nat) {c : Cursor} {findings : List Finding}
    (h : s.Later ⟨c, findings⟩) : s.Later ⟨c.skipWithin bound depth, findings⟩ := by
  induction bound generalizing c depth with
  | zero => exact h
  | succ bound ih =>
    unfold Cursor.skipWithin
    split
    · exact h
    · split
      · exact h
      · exact ih _ h.advance

/-- **Nothing was found wrong from `s` to `t`**, and no token is one that goes unrecorded. -/
def Undisturbed (s t : ParseState) : Prop :=
  t.findings = s.findings ∧ ∀ token ∈ s.view, token.kind ≠ .illegal

/-- Nothing was found wrong on either half of the way. -/
theorem Undisturbed.split (h : s.Undisturbed u) (hl : s.Later t) (hl' : t.Later u) :
    s.Undisturbed t ∧ t.Undisturbed u := by
  have hs : s.findings = t.findings :=
    hl.findings.eq_of_length_le (h.1 ▸ hl'.findings.length_le)
  exact ⟨⟨hs.symm, h.2⟩, h.1.trans hs, fun token ht => h.2 token (hl.sublist.subset ht)⟩

end ParseState

theorem Cursor.skipWithin_groups (bound depth : Nat) (c : Cursor) :
    (c.skipWithin bound depth).groups = c.groups := by
  induction bound generalizing c depth with
  | zero => rfl
  | succ bound ih =>
    unfold skipWithin
    split
    · rfl
    · split
      · rfl
      · rw [ih, advance_groups]

open ParseState (Later)

/-- **Why a parser started in `s` crashes**, if it reads numerals of `maxDigits` digits at most and
is nested at most `depth` deep. -/
def Crashes (maxDigits depth : Nat) (s : ParseState) : Crash → Prop
  | .tooDeep => depth ≤ s.view.length
  | .fault _ => ∃ token ∈ s.view, token.kind = .int ∧ maxDigits < token.text.length

/-- **Why a parser started in `s` halts** in another state. -/
def Halts (maxDigits depth : Nat) (s : ParseState) : ParseHalt → ParseState → Prop
  | .malformed, t => s.Later t ∧ ¬ s.Undisturbed t
  | .crash crash, _ => Crashes maxDigits depth s crash

variable {maxDigits depth depth' : Nat} {s t u : ParseState}

theorem Crashes.earlier {crash : Crash} (hl : s.Later t)
    (hd : depth' ≤ t.view.length → depth ≤ s.view.length)
    (h : Crashes maxDigits depth' t crash) : Crashes maxDigits depth s crash := by
  cases crash with
  | tooDeep => exact hd h
  | fault fault =>
    obtain ⟨token, hm, hk⟩ := h
    exact ⟨token, hl.sublist.subset hm, hk⟩

theorem Halts.earlier {halt : ParseHalt} (hl : s.Later t)
    (hd : depth' ≤ t.view.length → depth ≤ s.view.length)
    (h : Halts maxDigits depth' t halt u) : Halts maxDigits depth s halt u := by
  cases halt with
  | malformed => exact ⟨hl.trans h.1, fun hu => h.2 (hu.split hl h.1).2⟩
  | crash crash => exact Crashes.earlier hl hd h

namespace Parse

variable {ε α : Type} {s : ParseState} {halt : ε → ParseState → Prop}

/-! ## Single steps -/

@[simp] theorem move_iff {f : Cursor → Cursor} {ok : Unit → ParseState → Prop} :
    Outcome (move f : Parser ε Unit) s ok halt ↔ ok () ⟨f s.toCursor, s.findings⟩ := Iff.rfl

@[simp] theorem advance_iff {ok : Unit → ParseState → Prop} :
    Outcome (advance : Parser ε Unit) s ok halt ↔ ok () ⟨s.toCursor.advance, s.findings⟩ := Iff.rfl

@[simp] theorem current_iff {ok : Token → ParseState → Prop} :
    Outcome (current : Parser ε Token) s ok halt ↔ ok s.current s := Iff.rfl

@[simp] theorem peek_iff {ok : Token → ParseState → Prop} :
    Outcome (peek : Parser ε Token) s ok halt ↔ ok s.toCursor.peek s := Iff.rfl

@[simp] theorem peekIs_iff {kind : Kind} {ok : Bool → ParseState → Prop} :
    Outcome (peekIs kind : Parser ε Bool) s ok halt ↔ ok (s.toCursor.peek.is kind) s := Iff.rfl

@[simp] theorem atEnd_iff {ok : Bool → ParseState → Prop} :
    Outcome (atEnd : Parser ε Bool) s ok halt ↔ ok s.toCursor.peek.kind.isTerminator s := Iff.rfl

@[simp] theorem remaining_iff {ok : Nat → ParseState → Prop} :
    Outcome (remaining : Parser ε Nat) s ok halt ↔ ok s.ahead.length s := Iff.rfl

/-- A malformed statement is skipped; crashes are passed on. -/
theorem recovering_iff {statement : Parse (Option Node)} {ok : Option Node → ParseState → Prop}
    {crashed : Crash → ParseState → Prop} :
    Outcome (recovering statement) s ok crashed ↔
      Outcome statement s ok fun halt t =>
        match halt with
        | .malformed => ok none ⟨Cursor.synchronize { t.toCursor with groups := s.groups }, t.findings⟩
        | .crash crash => crashed crash t := by
  unfold Outcome recovering
  rcases statement s with ⟨node, t⟩ | ⟨⟨⟩ | crash, t⟩ <;> rfl

theorem liftCrash_iff {parser : Parser Crash α} {ok : α → ParseState → Prop}
    {halted : ParseHalt → ParseState → Prop} :
    Outcome (liftCrash parser) s ok halted ↔
      Outcome parser s ok fun crash t => halted (.crash crash) t := by
  unfold Outcome liftCrash
  cases parser s <;> rfl

variable {maxDigits depth : Nat} {base : ParseState}

/-- Giving up at a token is recorded, unless the token is none. -/
theorem reject_halts {violation : Violation} {token : Token} {ok : α → ParseState → Prop}
    (hl : base.Later s) (hm : token ∈ base.view) :
    Outcome (reject violation token : Parse α) s ok (Halts maxDigits depth base) := by
  unfold reject
  by_cases hi : token.is .illegal = true
  · simp only [hi, Bool.not_true, Bool.false_eq_true, if_false]
    refine ⟨hl, fun hu => hu.2 token hm ?_⟩
    simpa [Token.is] using hi
  · simp only [hi, Bool.not_false, if_true, Outcome.bind_iff, Outcome.modify_iff,
      Outcome.throw_iff]
    refine ⟨hl.trans ⟨hl.ready, .refl _, List.prefix_append _ _⟩, fun hu => ?_⟩
    have short := hl.findings.length_le
    have := congrArg List.length hu.1
    simp only [List.length_append, List.length_cons] at this
    omega

/-- Expecting a token ahead either moves on to it or halts. -/
theorem expectNamed_step {kind : Kind} {what : String} {ok : Token → ParseState → Prop}
    (hl : base.Later s)
    (h : s.toCursor.peek.kind = kind →
      ok s.toCursor.advance.current ⟨s.toCursor.advance, s.findings⟩) :
    Outcome (expectNamed kind what) s ok (Halts maxDigits depth base) := by
  unfold expectNamed
  simp only [Outcome.bind_iff, peek_iff]
  by_cases hk : s.toCursor.peek.kind = kind
  · simpa [Token.is, hk] using h hk
  · simpa [Token.is, hk] using reject_halts hl (hl.sublist.subset (Cursor.peek_mem_view _))

theorem expect_step {kind : Kind} {ok : Token → ParseState → Prop} (hl : base.Later s)
    (h : s.toCursor.peek.kind = kind →
      ok s.toCursor.advance.current ⟨s.toCursor.advance, s.findings⟩) :
    Outcome (expect kind) s ok (Halts maxDigits depth base) :=
  expectNamed_step hl h

/-- A token that is ahead as expected is moved on to. -/
theorem expectNamed_run {kind : Kind} (what : String) {c : Cursor} {findings : List Finding}
    (h : c.peek.kind = kind) :
    expectNamed kind what ⟨c, findings⟩ = .ok c.advance.current ⟨c.advance, findings⟩ := by
  rw [← Outcome.run_iff]
  unfold expectNamed
  simp [Token.is, h]

theorem expect_run {kind : Kind} {c : Cursor} {findings : List Finding} (h : c.peek.kind = kind) :
    expect kind ⟨c, findings⟩ = .ok c.advance.current ⟨c.advance, findings⟩ :=
  expectNamed_run _ h

end Parse

end LimLang
