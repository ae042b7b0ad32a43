import LimLang.Parse.Program
import LimLang.Proofs.ExpressionSoundness

/-! # What the parser of statements reads

Parsers of statements recover from malformed ones, so they have results even where something is
wrong.  What is said of a result is therefore said on the condition that nothing was found wrong on
the way (`Undisturbed`): then the tree is that of the tokens read.  That a parser only moves on,
crashes for a reason, and records what made it give up holds without the condition.

A list of statements is read by a loop, whose invariant is about the tokens in front of the cursor:
those read so far are a list of statements, and the rest is in view.
-/
namespace LimLang

open Cursor (isNewline)
open ParseState (Later Undisturbed)

/-- The only expressions that start with a bracket and are arrays are array literals. -/
theorem Phrase.of_array {level : Nat} {t opening : Token} {ts : List Token} {nodes : List Node}
    (h : Phrase (.expression level) (t :: ts) [.array opening nodes]) (ht : t.kind = .lbrack) :
    ∃ inner closing, opening = t ∧ ts = inner ++ [closing] ∧ closing.kind = .rbrack ∧
      Phrase .list (unbroken inner) nodes := by
  generalize hk : PhraseKind.expression level = kind at h
  generalize hts : t :: ts = us at h
  generalize hn : [Node.array opening nodes] = trees at h
  induction h generalizing level with
  | loosen _ _ ih => exact ih rfl hts hn
  | group ho _ _ _ =>
    obtain ⟨rfl, -⟩ := List.cons.inj hts
    rw [ht] at ho
    cases ho
  | array _ hc h _ =>
    obtain ⟨rfl, rfl⟩ := List.cons.inj hts
    obtain ⟨⟨⟩, -⟩ := List.cons.inj hn
    exact ⟨_, _, rfl, rfl, hc, h⟩
  | _ => cases hn <;> cases hk

namespace Parse

variable {maxDigits depth : Nat} {findings : List Finding} {base : ParseState} {c : Cursor}

/-- Expecting a token ahead reads that token, or halts. -/
theorem expectNamed_reads {kind : Kind} (hke : kind.isBoundary = false) {what : String}
    {ok : Token → ParseState → Prop} (hl : base.Later ⟨c, findings⟩)
    (h : ∀ t d, t.kind = kind → d.current = t → c.Moves [t] d → base.Later ⟨d, findings⟩ →
      ok t ⟨d, findings⟩) :
    Outcome (expectNamed kind what) ⟨c, findings⟩ ok (Halts maxDigits depth base) := by
  refine expectNamed_step hl fun hk => ?_
  replace hk : c.peek.kind = kind := hk
  have hm := hl.ready.moves_peek (hk ▸ hke)
  have hcur := hl.ready.current_advance (hk ▸ hke)
  exact h _ _ (by rw [hcur]; exact hk) rfl (by rw [hcur]; exact hm) hl.advance

theorem expect_reads {kind : Kind} (hke : kind.isBoundary = false) {ok : Token → ParseState → Prop}
    (hl : base.Later ⟨c, findings⟩)
    (h : ∀ t d, t.kind = kind → d.current = t → c.Moves [t] d → base.Later ⟨d, findings⟩ →
      ok t ⟨d, findings⟩) :
    Outcome (expect kind) ⟨c, findings⟩ ok (Halts maxDigits depth base) :=
  expectNamed_reads hke hl h

/-- A nested expression starts where the cursor is. -/
theorem ReadsExpressions.here {ex : Nat → Parse Node} (hex : ReadsExpressions maxDigits depth ex)
    {ok : Node → ParseState → Prop} (hl : base.Later ⟨c, findings⟩)
    (h : ∀ node read d, c.Moves read d →
      Phrase (.expression Precedence.lowest) (c.current :: read) [node] →
      base.Later ⟨d, findings⟩ → ok node ⟨d, findings⟩) :
    Outcome (ex Precedence.lowest) ⟨c, findings⟩ ok (Halts maxDigits depth base) := by
  refine (hex _ c findings hl.ready (by decide) (by decide)).mono ?_ ?_
  · rintro node t ⟨read, d, rfl, hd, hm, hp, -⟩
    exact h node read d hm hp (hl.trans (.of_moves hm hd))
  · intro halt t ht
    exact ht.earlier hl fun hle => Nat.le_trans hle hl.length_le

/-! ## Statements without a brace -/

/-- **The parser has got from `s` to `t`**, and if nothing was found wrong, `P` holds of what it
read. -/
structure Covers (s t : ParseState) (P : List Token → Prop) : Prop where
  later : s.Later t
  groups_eq : t.groups = s.groups
  read : s.Undisturbed t → ∃ read, s.toCursor.Moves read t.toCursor ∧ P read

theorem Covers.of_moves {d : Cursor} {read : List Token} {P : List Token → Prop} (hm : c.Moves read d)
    (hd : d.Ready) (hp : P read) : Covers ⟨c, findings⟩ ⟨d, findings⟩ P :=
  ⟨.of_moves hm hd, hm.groups_eq, fun _ => ⟨read, hm, hp⟩⟩

theorem Covers.trans {s t u : ParseState} {P Q R : List Token → Prop} (h : Covers s t P)
    (h' : Covers t u Q) (hr : ∀ first more, P first → Q more → R (first ++ more)) : Covers s u R := by
  refine ⟨h.later.trans h'.later, h'.groups_eq.trans h.groups_eq, fun hu => ?_⟩
  obtain ⟨hu₁, hu₂⟩ := hu.split h.later h'.later
  obtain ⟨first, hm, hp⟩ := h.read hu₁
  obtain ⟨more, hm', hq⟩ := h'.read hu₂
  exact ⟨_, hm.trans hm', hr _ _ hp hq⟩

theorem Covers.mono {s t : ParseState} {P Q : List Token → Prop} (h : Covers s t P)
    (hpq : ∀ read, P read → Q read) : Covers s t Q := by
  refine ⟨h.later, h.groups_eq, fun hu => ?_⟩
  obtain ⟨read, hm, hp⟩ := h.read hu
  exact ⟨read, hm, hpq read hp⟩

/-- What has been read is a clause. -/
def HasReadClause (kind : ClauseKind) (s : ParseState) (node : Node) (t : ParseState) : Prop :=
  Covers s t fun read => Clause kind (s.current :: read) [node]

section Simple
variable {ex : Nat → Parse Node} (hex : ReadsExpressions maxDigits depth ex)
include hex

theorem initializer_reads {zero : Node} (hl : base.Later ⟨c, findings⟩) :
    Outcome (initializer (ex Precedence.lowest) zero) ⟨c, findings⟩
      (fun value t => ∃ read d, t = ⟨d, findings⟩ ∧ base.Later ⟨d, findings⟩ ∧ c.Moves read d ∧
        InitializerPhrase zero read value)
      (Halts maxDigits depth base) := by
  unfold initializer
  simp only [Outcome.bind_iff, atEnd_iff]
  by_cases hend : c.peek.kind.isTerminator = true
  · simp only [hend, if_true, Outcome.pure_iff]
    exact ⟨[], c, rfl, hl, .refl c, .none⟩
  · simp only [hend, if_false, Bool.false_eq_true, Outcome.bind_iff]
    refine expect_reads rfl hl fun assign d ha hcur hm hld => ?_
    simp only [advance_iff]
    obtain ⟨gap, t, rest, hgap, -, ht, hm₁, -⟩ := hld.ready.exists_advance (by rw [hcur, ha]; decide)
    refine hex.here hld.advance fun value read e hme hp hle => ?_
    rw [ht] at hp
    refine ⟨_, e, rfl, hle, (hm.trans hm₁).trans hme, ?_⟩
    simpa using InitializerPhrase.some ha hgap hp

theorem declaration_reads {type : BasicType} (hl : Later ⟨c, findings⟩ ⟨c, findings⟩)
    (hk : BasicType.ofKind? c.current.kind = some type) :
    Outcome (declaration (ex Precedence.lowest) type) ⟨c, findings⟩
      (HasReadClause .simple ⟨c, findings⟩) (Halts maxDigits depth ⟨c, findings⟩) := by
  unfold declaration declaredName
  simp only [Outcome.bind_iff, current_iff, Outcome.pure_iff]
  refine expectNamed_reads rfl hl fun name d hn hcur hm hld => ?_
  refine (initializer_reads hex hld).mono ?_ fun _ _ h => h
  rintro value t ⟨read, e, rfl, hle, hme, hi⟩
  exact .of_moves (hm.trans hme) hle.ready (.declare hk hn hi)

theorem arrayDeclaration_reads (hl : Later ⟨c, findings⟩ ⟨c, findings⟩) (hk : c.current.kind.isType) :
    Outcome (arrayDeclaration (ex Precedence.lowest)) ⟨c, findings⟩
      (HasReadClause .simple ⟨c, findings⟩) (Halts maxDigits depth ⟨c, findings⟩) := by
  unfold arrayDeclaration declaredName
  simp only [Outcome.bind_iff, current_iff, Outcome.pure_iff]
  refine expect_reads rfl hl fun opening d₁ ho _ hm₁ hl₁ => ?_
  refine expect_reads rfl hl₁ fun closing d₂ hc _ hm₂ hl₂ => ?_
  refine expectNamed_reads rfl hl₂ fun name d₃ hn _ hm₃ hl₃ => ?_
  refine (initializer_reads hex hl₃).mono ?_ fun _ _ h => h
  rintro value t ⟨read, e, rfl, hle, hme, hi⟩
  exact .of_moves (((hm₁.trans hm₂).trans hm₃).trans hme) hle.ready (.declareArray hk ho hc hn hi)

theorem definition_reads (hl : Later ⟨c, findings⟩ ⟨c, findings⟩) (hn : c.current.kind = .ident)
    (hd : c.peek.kind = .define) :
    Outcome (definition (ex Precedence.lowest)) ⟨c, findings⟩
      (HasReadClause .simple ⟨c, findings⟩) (Halts maxDigits depth ⟨c, findings⟩) := by
  have hbound : c.peek.kind.isBoundary = false := by rw [hd]; rfl
  have hm₁ := hl.ready.moves_peek hbound
  have hcur := hl.ready.current_advance hbound
  have hl₁ := hl.advance
  obtain ⟨gap, t, rest, hgap, -, ht, hm₂, -⟩ :=
    hl₁.ready.exists_advance (show c.advance.current.kind ≠ .eof by rw [hcur, hd]; decide)
  have hl₂ := hl₁.advance
  have hm := hm₁.trans hm₂
  subst ht
  unfold definition
  simp only [Outcome.bind_iff, current_iff, advance_iff]
  by_cases hb : c.advance.advance.current.kind = .lbrack
  · simp only [Token.is, hb, beq_self_eq_true, if_true, Outcome.bind_iff]
    refine hex.here hl₂ fun value read d hmd hp hld => ?_
    split
    · next opening elements =>
      obtain ⟨inner, closing, rfl, rfl, hc, hlist⟩ := hp.of_array hb
      refine .of_moves (hm.trans hmd) hld.ready ?_
      rw [hcur]
      simpa [Token.toIdent, BasicType.keywordAt] using Clause.defineArray hn hd hgap hb hc hlist
    · exact reject_halts hld (hl₂.sublist.subset List.mem_cons_self)
  · simp only [Token.is, beq_iff_eq, hb, if_false]
    split
    · next type htype =>
      simp only [Outcome.bind_iff, Outcome.pure_iff]
      refine hex.here hl₂ fun value read d hmd hp hld => ?_
      refine .of_moves (hm.trans hmd) hld.ready ?_
      rw [hcur]
      simpa [Token.toIdent, BasicType.keywordAt] using Clause.define hn hd hgap htype hp
    · exact reject_halts hl₂ (hl₂.sublist.subset List.mem_cons_self)

theorem returnStatement_reads (hl : Later ⟨c, findings⟩ ⟨c, findings⟩)
    (hk : c.current.kind = .kwReturn) :
    Outcome (returnStatement (ex Precedence.lowest)) ⟨c, findings⟩
      (HasReadClause .simple ⟨c, findings⟩) (Halts maxDigits depth ⟨c, findings⟩) := by
  unfold returnStatement
  simp only [Outcome.bind_iff, current_iff, atEnd_iff]
  by_cases hend : c.peek.kind.isTerminator = true
  · simp only [hend, if_true, Outcome.pure_iff]
    exact .of_moves (.refl c) hl.ready (.bareReturn hk)
  · simp only [hend, if_false, Bool.false_eq_true, Outcome.bind_iff, advance_iff, Outcome.pure_iff]
    have hbound : c.peek.kind.isBoundary = false := by
      revert hend
      cases c.peek.kind <;> decide
    have hm := hl.ready.moves_peek hbound
    have hcur := hl.ready.current_advance hbound
    refine hex.here hl.advance fun value read d hmd hp hld => ?_
    rw [hcur] at hp
    exact .of_moves (hm.trans hmd) hld.ready (.returnValue hk hp)

theorem expressionStatement_reads (hl : Later ⟨c, findings⟩ ⟨c, findings⟩) :
    Outcome (expressionStatement (ex Precedence.lowest)) ⟨c, findings⟩
      (HasReadClause .simple ⟨c, findings⟩) (Halts maxDigits depth ⟨c, findings⟩) := by
  unfold expressionStatement
  simp only [Outcome.bind_iff, current_iff, Outcome.pure_iff]
  exact hex.here hl fun value read d hmd hp hld => .of_moves hmd hld.ready (.expression hp)

end Simple

/-- **What a statement is, with what ends it**: the tokens read, the tree, and the token ahead. -/
inductive Ended : List Token → Option Node → Token → Prop
  /-- A semicolon on its own. -/
  | empty {t ahead : Token} (ht : t.kind = .semicolon) : Ended [t] none ahead
  | braced {ts : List Token} {node : Node} {ahead : Token} (h : Clause .compound ts [node]) :
      Ended ts (some node) ahead
  /-- With the semicolon that ends it. -/
  | closed {t ahead : Token} {ts : List Token} {node : Node} (h : Clause .simple ts [node])
      (ht : t.kind = .semicolon) : Ended (ts ++ [t]) (some node) ahead
  /-- In front of something else that ends it. -/
  | followed {ts : List Token} {node : Node} {ahead : Token} (h : Clause .simple ts [node])
      (ha : ahead.kind.isTerminator) (hs : ahead.kind ≠ .semicolon) : Ended ts (some node) ahead

/-- What has been read is a statement with what ends it. -/
def HasReadStatement (s : ParseState) (result : Option Node) (t : ParseState) : Prop :=
  Covers s t fun read => Ended (s.current :: read) result t.toCursor.peek

/-- **What is asked of a parser of nested statements**, outside of groups. -/
def ReadsStatements (maxDigits depth : Nat) (statement : Parse (Option Node)) : Prop :=
  ∀ s : ParseState, s.toCursor.Ready → s.groups = 0 →
    Outcome statement s (HasReadStatement s) (Halts maxDigits depth s)

/-- The end of a statement is a semicolon, or stays ahead. -/
theorem simple_reads {statement : Parse Node} {s : ParseState}
    (h : Outcome statement s (HasReadClause .simple s) (Halts maxDigits depth s)) :
    Outcome (simple statement) s (HasReadStatement s) (Halts maxDigits depth s) := by
  unfold simple endStatement
  simp only [Outcome.bind_iff, peek_iff, Outcome.pure_iff]
  refine h.mono ?_ fun _ _ h => h
  intro node t hread
  have hl := hread.later
  by_cases hs : t.toCursor.peek.kind = .semicolon
  · simp only [Token.is, hs, beq_self_eq_true, if_true, advance_iff]
    have hm := hl.ready.moves_peek (by rw [hs]; rfl)
    refine hread.trans (.of_moves hm hl.ready.advance rfl) ?_
    rintro read _ hc rfl
    exact .closed hc hs
  · simp only [Token.is, beq_iff_eq, hs, if_false]
    by_cases hend : t.toCursor.peek.kind.isTerminator = true
    · simp only [hend, Bool.not_true, Bool.false_eq_true, if_false, Outcome.pure_iff]
      exact hread.mono fun read hc => .followed hc hend hs
    · simp only [hend, Bool.not_false, if_true]
      exact reject_halts hl (hl.sublist.subset (Cursor.peek_mem_view _))

/-! ## Lists of statements -/

/-- The last token of a statement is none of those that end a line or all. -/
theorem Ended.getLast_isBoundary {ts : List Token} {result : Option Node} {ahead : Token}
    (h : Ended ts result ahead) (t : Token) : (ts.getLastD t).kind.isBoundary = false := by
  cases h with
  | empty ht => simp [ht, Kind.isBoundary]
  | braced h => exact h.getLast_isBoundary (by simp) t
  | closed _ ht => rw [getLastD_append]; simp [ht, Kind.isBoundary]
  | followed h _ _ => exact h.getLast_isBoundary (by simp) t

theorem Ended.of_none {ts : List Token} {ahead : Token} (h : Ended ts none ahead) :
    ∃ t, ts = [t] ∧ t.kind = .semicolon := by
  cases h with
  | empty ht => exact ⟨_, rfl, ht⟩

/-- **A statement in front of others.**  The token ahead of it is the first of the newlines or of
what is in view behind them. -/
theorem Ended.append {ts gap us rest : List Token} {result : Option Node} {ahead : Token}
    {nodes : List Node} {e : Cursor} (h : Ended ts result ahead) (hg : IsNewlines gap)
    (hb : Clause .body us nodes) (hv : e.view = us ++ rest) (he : e.Ready)
    (ha : ∃ more, gap ++ e.view = ahead :: more) :
    Clause .body (ts ++ (gap ++ us)) (result.toList ++ nodes) := by
  have hgb := hb.gap hg
  cases h with
  | @empty t _ ht =>
    have hsep : t.kind.isSeparator := by rw [ht]; rfl
    exact .separator hsep hgb
  | braced h => exact .braced h hgb
  | @closed t _ ts _ h ht =>
    have hsep : t.kind.isSeparator := by rw [ht]; rfl
    rw [List.append_assoc]
    exact .ended h hsep hgb
  | @followed ts node ahead h hterm hs =>
    cases gap with
    | cons t gap =>
      refine .ended h (by rw [hg t List.mem_cons_self]; rfl) (.gap (fun u hu => hg u ?_) hb)
      exact List.mem_cons_of_mem _ hu
    | nil =>
      obtain ⟨more, ha⟩ := ha
      have hcur : ahead = e.current := (List.cons.inj ha).1.symm
      cases us with
      | nil =>
        rw [hb.eq_nil]
        simpa using Clause.last h
      | cons u us =>
        -- The token ahead would end the statement and start another one.
        have hu : u = ahead := (List.cons.inj (hv.symm.trans ha)).1
        have hopen := hb.head_closesBlock
        have hline := he.current_ne
        rw [hu] at hopen
        rw [← hcur] at hline
        revert hterm hs hopen hline
        cases ahead.kind <;> simp [Kind.isTerminator, Kind.closesBlock]

/-- A malformed statement is skipped. -/
theorem recovering_reads {statement : Parse (Option Node)}
    (hst : ReadsStatements maxDigits depth statement) {s : ParseState} (hs : s.toCursor.Ready)
    (hg : s.groups = 0) :
    Outcome (recovering statement) s (HasReadStatement s)
      (fun crash _ => Crashes maxDigits depth s crash) := by
  refine recovering_iff.2 ((hst s hs hg).mono (fun _ _ h => h) ?_)
  intro halt t ht
  cases halt with
  | crash crash => exact ht
  | malformed =>
    obtain ⟨hl, hu⟩ := ht
    rw [hg]
    exact ⟨hl.ungroup.skipWithin _ _, (Cursor.skipWithin_groups _ _ _).trans hg.symm,
      fun h => absurd h hu⟩

/-- **The loop over statements** reads them up to a token that closes their list. -/
theorem statements_reads {closes : Kind → Bool} (hce : closes .eof = true)
    (hcs : closes .semicolon = false) {statement : Parse (Option Node)}
    (hst : ReadsStatements maxDigits depth statement) (bound : Nat) {s : ParseState}
    (hs : s.toCursor.Ready) (hg : s.groups = 0) (hb : s.ahead.length < bound) :
    Outcome (statements closes statement bound) s
      (fun nodes t => s.Later t ∧ t.groups = 0 ∧ closes t.current.kind ∧
        (s.Undisturbed t → ∃ body, s.view = body ++ t.view ∧ Clause .body body nodes))
      (fun crash _ => Crashes maxDigits depth s crash) := by
  induction bound generalizing s with
  | zero => omega
  | succ bound ih =>
    unfold statements
    simp only [Outcome.bind_iff, current_iff]
    by_cases hcl : closes s.current.kind = true
    · simp only [hcl, if_true, Outcome.pure_iff]
      exact ⟨.refl hs, hg, trivial, fun _ => ⟨[], rfl, .empty⟩⟩
    · simp only [hcl, Bool.false_eq_true, if_false, Outcome.bind_iff]
      have hne : s.current.kind ≠ .eof := fun h => hcl (by rw [h]; exact hce)
      refine (recovering_reads hst hs hg).mono ?_ fun _ _ h => h
      rintro result t ⟨hl, hgt, hread⟩
      -- After the statement the loop goes on behind the next newlines.
      have hlater := hl.advance
      have hbound : t.toCursor.advance.ahead.length < bound := by
        have := hl.length_advance_lt hs hne
        omega
      have next : Outcome (statements closes statement bound) ⟨t.toCursor.advance, t.findings⟩
          (fun nodes u => s.Later u ∧ u.groups = 0 ∧ closes u.current.kind ∧
            (s.Undisturbed u → ∃ body, s.view = body ++ u.view ∧
              Clause .body body (result.toList ++ nodes)))
          (fun crash _ => Crashes maxDigits depth s crash) := by
        refine (ih hlater.ready (by rw [Cursor.advance_groups, hgt, hg]) hbound).mono ?_ ?_
        · rintro nodes u ⟨hlu, hgu, hcu, hbody⟩
          refine ⟨hlater.trans hlu, hgu, hcu, fun hu => ?_⟩
          obtain ⟨hu₁, hu₂⟩ := hu.split hlater hlu
          obtain ⟨read, hm, hend⟩ := hread hu₁
          obtain ⟨body, hview, hclause⟩ := hbody hu₂
          have hte : t.current.kind ≠ .eof := by
            have := hend.getLast_isBoundary s.current
            rw [List.getLastD_cons, ← hm.current_eq] at this
            exact Kind.ne_of_isBoundary this rfl
          obtain ⟨gap, hgap, hahead⟩ := hl.ready.exists_view hte (hgt.trans hg)
          refine ⟨_, ?_, hend.append hgap hclause hview hlater.ready ?_⟩
          · have := hm.reads
            rw [hg, reads_zero, hahead] at this
            rw [Cursor.view, this]
            replace hview : Cursor.view t.toCursor.advance = body ++ u.view := hview
            rw [hview]
            simp
          · rw [← hahead]
            obtain ⟨w, ws, hws⟩ := List.exists_cons_of_ne_nil (hl.ready.terminated_ahead hte).ne_nil
            exact ⟨ws, by simp [Cursor.peek, hws]⟩
        · intro crash u hc
          exact hc.earlier hlater fun hle => Nat.le_trans hle hlater.length_le
      cases result with
      | some node =>
        simp only [Outcome.bind_iff, advance_iff, Outcome.pure_iff]
        exact next
      | none =>
        simp only [Outcome.bind_iff, current_iff]
        by_cases hct : closes t.current.kind = true
        · simp only [hct, if_true, Outcome.pure_iff]
          refine ⟨hl, hgt.trans hg, trivial, fun hu => ?_⟩
          -- A semicolon closes nothing, so something was found wrong.
          obtain ⟨read, hm, hend⟩ := hread hu
          obtain ⟨semicolon, hts, hk⟩ := hend.of_none
          obtain ⟨rfl, rfl⟩ := List.cons.inj hts
          rw [show t.current = s.current from hm.current_eq, hk, hcs] at hct
          cases hct
        · simp only [hct, Bool.false_eq_true, if_false, Outcome.bind_iff, advance_iff]
          exact next

/-! ## The signatures of functions -/

theorem typeName_reads (hl : base.Later ⟨c, findings⟩) (ht : c.current.kind.isType) :
    Outcome typeName ⟨c, findings⟩
      (fun type t => ∃ read d, t = ⟨d, findings⟩ ∧ base.Later ⟨d, findings⟩ ∧ c.Moves read d ∧
        TypePhrase (c.current :: read) type)
      (Halts maxDigits depth base) := by
  unfold typeName
  simp only [Outcome.bind_iff, current_iff, peekIs_iff]
  by_cases hb : c.peek.kind = .lbrack
  · simp only [Token.is, hb, beq_self_eq_true, if_true, Outcome.bind_iff, advance_iff,
      Outcome.pure_iff]
    have hm := hl.ready.moves_peek (by rw [hb]; rfl)
    refine expect_reads rfl hl.advance fun closing d hc _ hmd hld => ?_
    exact ⟨_, d, rfl, hld, hm.trans hmd, .array ht hb hc⟩
  · simp only [Token.is, beq_iff_eq, hb, if_false, Outcome.pure_iff]
    exact ⟨[], c, rfl, hl, .refl c, .basic ht⟩

/-- The parameters, from the first or from the one after a comma. -/
theorem laterParameters_reads (bound : Nat) {c : Cursor} (hl : base.Later ⟨c, findings⟩)
    (hg : c.groups ≠ 0) (hne : c.current.kind ≠ .eof) (hb : c.ahead.length < bound) :
    Outcome (laterParameters bound) ⟨c, findings⟩
      (fun parameters t => ∃ read d, t = ⟨d, findings⟩ ∧ base.Later ⟨d, findings⟩ ∧
        c.Moves read d ∧ ParameterPhrase read parameters)
      (Halts maxDigits depth base) := by
  induction bound generalizing c with
  | zero => omega
  | succ bound ih =>
    have hm₁ := hl.ready.moves_advance hne hg
    have hla := hl.advance
    unfold laterParameters
    simp only [Outcome.bind_iff, advance_iff, current_iff]
    by_cases ht : c.advance.current.kind.isType = true
    · simp only [ht, if_true, Outcome.bind_iff, peekIs_iff]
      refine (typeName_reads hla ht).mono ?_ fun _ _ h => h
      rintro type t ⟨read, d, rfl, hld, hmd, htype⟩
      refine expectNamed_reads rfl hld fun name e hn hcur hme hle => ?_
      have hm := (hm₁.trans hmd).trans hme
      by_cases hk : e.peek.kind = .comma
      · simp only [Token.is, hk, beq_self_eq_true, if_true, Outcome.bind_iff, advance_iff,
          Outcome.pure_iff]
        have hm₂ := hle.ready.moves_peek (by rw [hk]; rfl)
        have hcomma := hle.ready.current_advance (by rw [hk]; rfl)
        have hgc : e.advance.groups ≠ 0 := by
          rw [(hm.trans hm₂).groups_eq]
          exact hg
        have hshort : e.advance.ahead.length < bound := by
          have := (hm.trans hm₂).length_le
          simp only [List.length_append, List.length_cons] at this
          omega
        refine (ih hle.advance hgc (by rw [hcomma, hk]; decide) hshort).mono ?_ fun _ _ h => h
        rintro parameters u ⟨more, f, rfl, hlf, hmf, hps⟩
        refine ⟨_, f, rfl, hlf, (hm.trans hm₂).trans hmf, ?_⟩
        simpa using ParameterPhrase.more htype hn hk hps
      · simp only [Token.is, beq_iff_eq, hk, if_false, Outcome.pure_iff]
        refine ⟨_, e, rfl, hle, hm, ?_⟩
        simpa using ParameterPhrase.one htype hn
    · simp only [ht, Bool.false_eq_true, if_false]
      exact reject_halts hla (hla.sublist.subset List.mem_cons_self)

theorem parameters_reads (hl : base.Later ⟨c, findings⟩) (hk : c.current.kind = .lparen) :
    Outcome parameters ⟨c, findings⟩
      (fun parameters t => ∃ stretch closing d, t = ⟨d, findings⟩ ∧ base.Later ⟨d, findings⟩ ∧
        closing.kind = .rparen ∧ c.Moves (stretch ++ [closing]) d ∧
        ParametersPhrase (unbroken stretch) parameters)
      (Halts maxDigits depth base) := by
  have hlo := hl.openGroup
  unfold parameters
  simp only [Outcome.bind_iff, move_iff, peekIs_iff]
  by_cases hp : c.openGroup.peek.kind = .rparen
  · simp only [Token.is, hp, beq_self_eq_true, if_true, Outcome.bind_iff, move_iff, advance_iff,
      Outcome.pure_iff]
    obtain ⟨stretch, hst, hm⟩ := Cursor.Moves.leave hl.ready (.refl _) hlo.ready (by rw [hp]; rfl)
    exact ⟨stretch, _, _, rfl, hlo.closeGroup.advance, hp, hm, hst ▸ .none⟩
  · simp only [Token.is, beq_iff_eq, hp, if_false, Outcome.bind_iff, remaining_iff, move_iff,
      Outcome.pure_iff]
    refine (laterParameters_reads _ hlo (Nat.succ_ne_zero c.groups)
      (show c.current.kind ≠ .eof by rw [hk]; decide) (Nat.lt_succ_self _)).mono ?_ fun _ _ h => h
    rintro parameters t ⟨read, d, rfl, hld, hmd, hps⟩
    refine expect_step hld.closeGroup fun hc => ?_
    replace hc : d.peek.kind = .rparen := hc
    obtain ⟨stretch, hst, hm⟩ := Cursor.Moves.leave hl.ready hmd hld.ready (by rw [hc]; rfl)
    exact ⟨stretch, _, _, rfl, hld.closeGroup.advance, hc, hm, hst ▸ .some hps⟩

theorem resultType_reads (hl : base.Later ⟨c, findings⟩) :
    Outcome resultType ⟨c, findings⟩
      (fun result t => ∃ read d, t = ⟨d, findings⟩ ∧ base.Later ⟨d, findings⟩ ∧ c.Moves read d ∧
        ResultPhrase read result)
      (Halts maxDigits depth base) := by
  -- A type that stands ahead is read.
  have typed : ∀ {d : Cursor}, base.Later ⟨d, findings⟩ → d.peek.kind.isType →
      Outcome typeName ⟨d.advance, findings⟩
        (fun type t => ∃ read e, t = ⟨e, findings⟩ ∧ base.Later ⟨e, findings⟩ ∧
          d.Moves read e ∧ TypePhrase read type)
        (Halts maxDigits depth base) := by
    intro d hld ht
    have hb : d.peek.kind.isBoundary = false := by
      revert ht
      cases d.peek.kind <;> decide
    have hm := hld.ready.moves_peek hb
    have hcur := hld.ready.current_advance hb
    refine (typeName_reads hld.advance (by rw [hcur]; exact ht)).mono ?_ fun _ _ h => h
    rintro type t ⟨read, e, rfl, hle, hme, htype⟩
    rw [hcur] at htype
    exact ⟨_, e, rfl, hle, hm.trans hme, htype⟩
  unfold resultType
  simp only [Outcome.bind_iff, peekIs_iff]
  by_cases ha : c.peek.kind = .arrow
  · simp only [Token.is, ha, beq_self_eq_true, if_true, Outcome.bind_iff, advance_iff, peek_iff]
    have hm := hl.ready.moves_peek (by rw [ha]; rfl)
    by_cases ht : c.advance.peek.kind.isType = true
    · simp only [ht, Bool.not_true, Bool.false_eq_true, if_false, if_true, Outcome.bind_iff, peek_iff,
        advance_iff, Outcome.pure_iff]
      refine (typed hl.advance ht).mono ?_ fun _ _ h => h
      rintro type t ⟨read, e, rfl, hle, hme, htype⟩
      exact ⟨_, e, rfl, hle, hm.trans hme, .arrow ha htype⟩
    · simp only [ht, Bool.not_false, if_true, Outcome.bind_iff]
      exact reject_halts hl.advance (hl.advance.sublist.subset (Cursor.peek_mem_view _))
  · simp only [Token.is, beq_iff_eq, ha, if_false, Outcome.bind_iff, peek_iff]
    by_cases ht : c.peek.kind.isType = true
    · simp only [ht, if_true, Outcome.bind_iff, advance_iff, Outcome.pure_iff]
      refine (typed hl ht).mono ?_ fun _ _ h => h
      rintro type t ⟨read, e, rfl, hle, hme, htype⟩
      exact ⟨read, e, rfl, hle, hme, .plain htype⟩
    · simp only [ht, Bool.false_eq_true, if_false, Outcome.pure_iff]
      exact ⟨[], c, rfl, hl, .refl c, .none⟩

/-! ## Statements with braces -/

/-- After `else` comes another branch. -/
theorem covers_alternative {kind : ClauseKind} {next : Node} {s u : ParseState}
    (hs : s.toCursor.Ready) (he : s.toCursor.peek.kind = .kwElse)
    (hb : s.toCursor.advance.peek.kind.isBoundary = false)
    (h : HasReadClause kind ⟨s.toCursor.advance.advance, s.findings⟩ next u) :
    Covers s u fun read => ∃ es, read = s.toCursor.peek :: es ∧ Clause kind es [next] := by
  have hm₁ := hs.moves_peek (by rw [he]; rfl)
  have hm₂ := hs.advance.moves_peek hb
  refine (Covers.of_moves (hm₁.trans hm₂) hs.advance.advance rfl).trans h ?_
  rintro _ read rfl hc
  replace hc : Clause kind (s.toCursor.advance.advance.current :: read) [next] := hc
  rw [hs.advance.current_advance hb] at hc
  exact ⟨_, rfl, hc⟩

section Compound
variable {statement : Parse (Option Node)} (hst : ReadsStatements maxDigits (depth - 1) statement)
include hst

/-- A block is read up to the brace that closes it. -/
theorem block_reads {s : ParseState} (hl : base.Later s) (hg : s.groups = 0)
    (hk : s.current.kind = .lbrace) :
    Outcome (block statement) s (HasReadClause .block s) (Halts maxDigits depth base) := by
  have hne : s.current.kind ≠ .eof := by rw [hk]; decide
  have hs := hl.ready
  have hla := hl.advance
  unfold block
  simp only [Outcome.bind_iff, current_iff, Outcome.get_iff, move_iff, hg, Cursor.ungroup_eq hg,
    advance_iff, remaining_iff, liftCrash_iff]
  refine (statements_reads rfl rfl hst _ hla.ready
    (by rw [Cursor.advance_groups, hg]) (Nat.lt_add_of_pos_right Nat.two_pos)).mono ?_ ?_
  · rintro nodes t ⟨hlt, hgt, hclose, hbody⟩
    rw [Cursor.ungroup_eq hgt]
    have hlast : Later s t := (Later.refl hs).advance.trans hlt
    by_cases he : t.current.kind = .eof
    · simp only [Token.is, he, beq_self_eq_true, if_true]
      exact reject_halts (hl.trans hlast) (hl.sublist.subset (hlast.sublist.subset List.mem_cons_self))
    · simp only [Token.is, beq_iff_eq, he, if_false, Outcome.pure_iff]
      refine ⟨hlast, hgt.trans hg.symm, fun hu => ?_⟩
      obtain ⟨body, hview, hclause⟩ := hbody (hu.split (Later.refl hs).advance hlt).2
      have hr : t.current.kind = .rbrace := by
        revert hclose he
        cases t.current.kind <;> simp [Kind.closesBlock]
      obtain ⟨gap, hgap, hahead⟩ := hs.exists_view hne hg
      replace hview : s.toCursor.advance.view = body ++ t.view := hview
      refine ⟨gap ++ body ++ [t.current], ⟨hgt.trans hg.symm, ?_, ?_⟩, ?_⟩
      · rw [hg, reads_zero, hahead, hview]
        simp [Cursor.view]
      · rw [getLastD_append]
        rfl
      · exact .block hk hr (hclause.gap hgap)
  · intro crash t hc
    refine hc.earlier hla fun hle => ?_
    have := hs.length_advance_lt hne
    have := hl.length_le
    simp only [Cursor.view, List.length_cons] at *
    omega

theorem function_reads {c : Cursor} {findings : List Finding} (hl : base.Later ⟨c, findings⟩)
    (hg : c.groups = 0) (hk : c.current.kind = .kwFn) :
    Outcome (function statement) ⟨c, findings⟩ (HasReadClause .compound ⟨c, findings⟩)
      (Halts maxDigits depth base) := by
  unfold function
  simp only [Outcome.bind_iff, current_iff, Outcome.pure_iff]
  refine expectNamed_reads rfl hl fun name d₁ hn _ hm₁ hl₁ => ?_
  refine expect_reads rfl hl₁ fun opening d₂ ho hcur₂ hm₂ hl₂ => ?_
  refine (parameters_reads hl₂ (by rw [hcur₂]; exact ho)).mono ?_ fun _ _ h => h
  rintro parameters _ ⟨ps, closing, d₃, rfl, hl₃, hc, hm₃, hps⟩
  refine (resultType_reads hl₃).mono ?_ fun _ _ h => h
  rintro result _ ⟨rs, d₄, rfl, hl₄, hm₄, hrs⟩
  refine expect_reads rfl hl₄ fun brace d₅ hb hcur₅ hm₅ hl₅ => ?_
  have hm := (((hm₁.trans hm₂).trans hm₃).trans hm₄).trans hm₅
  refine (block_reads hst hl₅ (hm.groups_eq.trans hg) (by rw [hcur₅]; exact hb)).mono ?_
    fun _ _ h => h
  intro body t hbody
  refine (Covers.of_moves hm hl₅.ready rfl).trans hbody ?_
  rintro _ read rfl hblock
  replace hblock : Clause .block (d₅.current :: read) [body] := hblock
  rw [hcur₅] at hblock
  simpa using Clause.function hk hn ho hps hc hrs hblock

variable {ex : Nat → Parse Node} (hex : ReadsExpressions maxDigits depth ex)
include hex

/-- A chain of branches is read to its last block. -/
theorem branches_reads (bound : Nat) {c : Cursor} {findings : List Finding}
    (hl : base.Later ⟨c, findings⟩) (hg : c.groups = 0) (hk : c.current.kind = .kwIf)
    (hb : c.ahead.length < bound) :
    Outcome (branches (ex Precedence.lowest) statement bound) ⟨c, findings⟩
      (HasReadClause .chain ⟨c, findings⟩) (Halts maxDigits depth base) := by
  induction bound generalizing c findings with
  | zero => omega
  | succ bound ih =>
    obtain ⟨gap, t, rest, hgap, -, ht, hm₁, -⟩ := hl.ready.exists_advance (by rw [hk]; decide)
    unfold branches
    simp only [Outcome.bind_iff, current_iff, advance_iff]
    refine hex.here hl.advance fun condition read d₁ hmc hp hl₁ => ?_
    refine expect_reads rfl hl₁ fun opening d₂ ho hcur hm₂ hl₂ => ?_
    have hm := (hm₁.trans hmc).trans hm₂
    rw [ht] at hp
    refine (block_reads hst hl₂ (hm.groups_eq.trans hg) (by rw [hcur]; exact ho)).mono ?_
      fun _ _ h => h
    intro body t₁ hbody
    -- The condition and the block of the first branch.
    have first : Covers ⟨c, findings⟩ t₁ fun read => ∃ cs bs, read = gap ++ (cs ++ bs) ∧
        Phrase (.expression Precedence.lowest) cs [condition] ∧ Clause .block bs [body] := by
      refine (Covers.of_moves hm hl₂.ready rfl).trans hbody ?_
      rintro _ rb rfl hblock
      replace hblock : Clause .block (d₂.current :: rb) [body] := hblock
      rw [hcur] at hblock
      exact ⟨_, _, by simp, hp, hblock⟩
    have hl₃ := hl₂.trans hbody.later
    have hg₃ : t₁.toCursor.advance.advance.groups = 0 := by
      rw [Cursor.advance_groups, Cursor.advance_groups]
      exact first.groups_eq.trans hg
    simp only [peekIs_iff]
    by_cases he : t₁.toCursor.peek.kind = .kwElse
    · simp only [Token.is, he, beq_self_eq_true, if_true, Outcome.bind_iff, advance_iff, current_iff,
        peek_iff]
      have hcur₁ := hl₃.ready.current_advance (by rw [he]; rfl)
      by_cases hbrace : t₁.toCursor.advance.peek.kind = .lbrace
      · simp only [hbrace, beq_self_eq_true, if_true, Outcome.bind_iff, advance_iff,
          Outcome.pure_iff]
        have hcur₂ := hl₃.advance.ready.current_advance (by rw [hbrace]; rfl)
        refine (block_reads hst hl₃.advance.advance hg₃ (by rw [hcur₂]; exact hbrace)).mono ?_
          fun _ _ h => h
        intro last u hlast
        refine first.trans (covers_alternative hl₃.ready he (by rw [hbrace]; rfl) hlast) ?_
        rintro _ _ ⟨cs, bs, rfl, hcs, hbs⟩ ⟨es, rfl, hes⟩
        rw [hcur₁]
        simpa using Clause.ifOtherwise hk hgap hcs hbs he hes
      · simp only [beq_iff_eq, hbrace, if_false]
        by_cases hif : t₁.toCursor.advance.peek.kind = .kwIf
        · simp only [hif, if_true, Outcome.bind_iff, advance_iff, Outcome.pure_iff]
          have hcur₂ := hl₃.advance.ready.current_advance (by rw [hif]; rfl)
          have hshort : t₁.toCursor.advance.advance.ahead.length < bound := by
            have := first.later.length_le
            have := Cursor.length_ahead_advance_le t₁.toCursor.advance
            have := (hl₃.ready.moves_peek (by rw [he]; rfl)).length_le
            simp only [Cursor.view, List.length_cons] at *
            omega
          refine (ih hl₃.advance.advance hg₃ (by rw [hcur₂]; exact hif) hshort).mono ?_
            fun _ _ h => h
          intro next u hnext
          refine first.trans (covers_alternative hl₃.ready he (by rw [hif]; rfl) hnext) ?_
          rintro _ _ ⟨cs, bs, rfl, hcs, hbs⟩ ⟨es, rfl, hes⟩
          simpa using Clause.ifElse hk hgap hcs hbs he hes
        · simp only [hif, if_false]
          exact reject_halts hl₃.advance (hl₃.advance.sublist.subset (Cursor.peek_mem_view _))
    · simp only [Token.is, beq_iff_eq, he, if_false, Outcome.pure_iff]
      refine first.mono ?_
      rintro _ ⟨cs, bs, rfl, hcs, hbs⟩
      exact .ifThen hk hgap hcs hbs

/-- **One statement**, recognised by its first token. -/
theorem statementWith_reads :
    ReadsStatements maxDigits depth (statementWith (ex Precedence.lowest) statement) := by
  rintro ⟨c, findings⟩ hc hg
  have hl : Later ⟨c, findings⟩ ⟨c, findings⟩ := .refl hc
  have hm : c.current ∈ c.view := List.mem_cons_self
  unfold statementWith
  simp only [Outcome.bind_iff, current_iff]
  split
  · next hk => exact ⟨hl, fun hu => hu.2 _ hm hk⟩
  · next hk => exact .of_moves (.refl c) hc (.empty hk)
  · exact reject_halts hl hm
  · exact reject_halts hl hm
  · exact reject_halts hl hm
  · next hk =>
    simp only [Outcome.bind_iff, Outcome.pure_iff]
    refine (function_reads hst hl hg hk).mono ?_ fun _ _ h => h
    exact fun node t h => h.mono fun _ => .braced
  · next hk =>
    simp only [Outcome.bind_iff, remaining_iff, Outcome.pure_iff]
    refine (branches_reads hst hex _ hl hg hk (Nat.lt_succ_self _)).mono ?_ fun _ _ h => h
    exact fun node t h => h.mono fun _ hchain => .braced (.branches hchain)
  · next hk => exact simple_reads (returnStatement_reads hex hl hk)
  · split
    · next type htype =>
      simp only [Outcome.bind_iff, peekIs_iff]
      by_cases hb : c.peek.kind = .lbrack
      · simp only [Token.is, hb, beq_self_eq_true, if_true]
        exact simple_reads (arrayDeclaration_reads hex hl (Kind.isType_of_ofKind? htype))
      · simp only [Token.is, beq_iff_eq, hb, if_false]
        exact simple_reads (declaration_reads hex hl htype)
    · simp only [Outcome.bind_iff, peekIs_iff]
      by_cases hi : c.current.kind = .ident ∧ c.peek.kind = .define
      · simp only [Token.is, hi.1, hi.2, beq_self_eq_true, Bool.and_self, if_true]
        exact simple_reads (definition_reads hex hl hi.1 hi.2)
      · simp only [Token.is, Bool.and_eq_true, beq_iff_eq, hi, if_false]
        exact simple_reads (expressionStatement_reads hex hl)

end Compound

/-- **The parser of statements reads statements.** -/
theorem statement_reads (maxDigits depth : Nat) :
    ReadsStatements maxDigits (depth - 1) (statement maxDigits depth) := by
  induction depth with
  | zero =>
    intro s _ _
    exact Nat.zero_le _
  | succ depth ih => exact statementWith_reads ih (expression_reads maxDigits depth)

/-- **The parser of programs reads programs**, up to the end. -/
theorem program_reads (limits : Limits) {s : ParseState} (hs : s.toCursor.Ready)
    (hg : s.groups = 0) :
    Outcome (program limits) s
      (fun tree t => ∃ nodes, tree = .program nodes ∧ s.Later t ∧ t.current.kind = .eof ∧
        (s.Undisturbed t → ∃ body, s.view = body ++ t.view ∧ Clause .body body nodes))
      (fun crash _ => Crashes limits.digits (limits.nesting - 1) s crash) := by
  unfold program
  simp only [Outcome.bind_iff, remaining_iff, Outcome.pure_iff]
  refine (statements_reads rfl rfl (statement_reads limits.digits limits.nesting) _ hs hg
    (Nat.lt_add_of_pos_right Nat.two_pos)).mono ?_ fun _ _ h => h
  rintro nodes t ⟨hl, -, hclose, hbody⟩
  refine ⟨nodes, rfl, hl, ?_, hbody⟩
  revert hclose
  cases t.current.kind <;> simp [Kind.closesProgram]

end Parse

end LimLang
