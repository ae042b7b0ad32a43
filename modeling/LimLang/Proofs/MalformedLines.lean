import LimLang.Proofs.Concatenation
import LimLang.Proofs.CourseParsers

/-! # Malformed lines

A text without opening brackets may be malformed in any way: it is parsed in front of another one, on
lines of its own, as if each stood alone, unless something is wrong with its end
(`Source.parse_join_flat`).

Without brackets there are no groups and no blocks, so a malformed statement is skipped up to the end
of its line at most.  If what is wrong with it is not the end of the text, it is given up before the
end, and skipping stops before the end too (`Cursor.Flat.skipWithin_ne_eof`).  So every statement ends
before the seam of the two texts, and is skipped in the same way whether the text goes on or not
(`Cursor.Ready.skipWithin_joined`).
-/
namespace LimLang

open ParseState (Later)

/-- The seam behind tokens that anything may be wrong with, but not their end. -/
def Seam.mended (last newline : Token) (more : List Token) (hlast : last.kind = .eof)
    (hnewline : newline.kind = .endOfLine) : Seam where
  last := last
  newline := newline
  more := more
  Clean findings := ∀ f ∈ findings, f.token.kind ≠ .eof
  last_kind := hlast
  newline_kind := hnewline
  clean_of_append _ _ h := fun f hf => h f (List.mem_append_left _ hf)
  ne_eof_of_clean _ _ h := h _ (List.mem_append_right _ List.mem_cons_self)

/-! ## Skipping where no bracket opens -/

namespace Cursor

variable {j : Seam} {c d : Cursor}

/-- **No bracket opens** from here on. -/
def Flat (c : Cursor) : Prop :=
  ∀ t ∈ c.view, t.kind.isOpener = false

theorem Flat.later {s u : ParseState} (h : s.toCursor.Flat) (hl : s.Later u) : u.toCursor.Flat :=
  fun t ht => h t (hl.sublist.subset ht)

/-- At the end there is nothing but the end to blame, and a bracket before it. -/
theorem Blames.exists_of_eof {found : Option Finding} (h : c.Blames found) (hc : c.Ready)
    (heof : c.current.kind = .eof) :
    ∃ f, found = some f ∧ (f.token.kind = .eof ∨ f.token.kind = .lbrack) := by
  have hpeek : c.peek = c.current := by
    rw [peek, hc.ahead_eq_nil heof]
    rfl
  cases found with
  | none =>
    rw [Blames, hpeek, or_self, heof] at h
    cases h
  | some f =>
    refine ⟨f, rfl, ?_⟩
    rcases h.2 with hcurrent | hahead | hbracket
    · exact .inl (hcurrent ▸ heof)
    · exact .inl (hahead.trans hpeek ▸ heof)
    · exact .inr hbracket

/-- Skipping that ends before the seam is the same if the list goes on. -/
theorem Ready.skipWithin_joined {bound bound' : Nat} (hc : c.Ready) (hb : c.ahead.length < bound)
    (hle : bound ≤ bound') (hg : c.groups = 0) (depth : Nat)
    (h : (c.skipWithin bound depth).Before j) :
    c.Before j ∧ (c.joined j).skipWithin bound' depth = (c.skipWithin bound depth).joined j := by
  induction bound generalizing c bound' depth with
  | zero => omega
  | succ bound ih =>
    obtain ⟨bound', rfl⟩ : ∃ n, bound' = n + 1 := ⟨bound' - 1, by omega⟩
    rw [skipWithin] at h ⊢
    rw [skipWithin, show (c.joined j).current = c.current from rfl]
    cases hd : depthAfter depth c.current.kind with
    | none =>
      rw [hd] at h
      exact ⟨h, rfl⟩
    | some depth' =>
      rw [hd] at h
      dsimp only at h ⊢
      -- Both sides stop, or neither does: a newline and the end are the same to them.
      have hstop : c.Before j → endsBefore (c.joined j).peek.kind = endsBefore c.peek.kind := by
        intro hbefore
        rcases hbefore.peek_joined with heq | ⟨heof, hline⟩
        · rw [heq]
        · rw [heof, hline]
          rfl
      by_cases hstops : (depth' = 0 && endsBefore c.peek.kind) = true
      · rw [if_pos hstops] at h ⊢
        rw [hstop h, if_pos hstops]
        exact ⟨h, rfl⟩
      · rw [if_neg hstops] at h ⊢
        have hne : c.current.kind ≠ .eof := by
          intro heof
          rw [heof] at hd
          cases hd
        have hlt := hc.length_advance_lt hne
        obtain ⟨hnext, hsame⟩ := ih hc.advance (by omega) (Nat.le_of_succ_le_succ hle)
          ((advance_groups c).trans hg) depth' h
        obtain ⟨⟨rest, ha, -⟩, hadvance⟩ := exists_of_advance hnext
        have hbefore : c.Before j := ⟨rest, ha, fun h => absurd hg h⟩
        rw [hstop hbefore, if_neg hstops, hadvance, hsame]
        exact ⟨hbefore, rfl⟩

/-- **Skipping stops before the end**, where no bracket opens. -/
theorem Flat.skipWithin_ne_eof (h : c.Flat) (hne : c.current.kind ≠ .eof) (bound : Nat) :
    (c.skipWithin bound 0).current.kind ≠ .eof := by
  induction bound generalizing c with
  | zero => exact hne
  | succ bound ih =>
    rw [skipWithin]
    have hzero : depthAfter 0 c.current.kind = none ∨ depthAfter 0 c.current.kind = some 0 := by
      have hopen := h c.current List.mem_cons_self
      revert hopen
      cases c.current.kind <;> decide
    rcases hzero with hnone | hzero
    · rw [hnone]
      exact hne
    · rw [hzero]
      dsimp only
      by_cases hstops : endsBefore c.peek.kind = true
      · rw [if_pos (by simp [hstops])]
        exact hne
      · rw [if_neg (by simp [hstops])]
        have hpeek : c.peek.kind ≠ .eof ∧ c.peek.kind ≠ .endOfLine := by
          revert hstops
          cases c.peek.kind <;> decide
        refine ih (fun t ht => h t ((advance_sublist c).subset ht)) ?_
        rw [current_advance_of_peek hpeek.2]
        exact hpeek.1

end Cursor

namespace Course

variable {c d : Cursor} {ds : List Drop}

/-- Where no bracket opens there are no groups. -/
theorem groups_of_path (h : Course .path c ds d) (hc : c.Ready) (hg : c.groups = 0)
    (hflat : c.Flat) : d.groups = 0 := by
  generalize hstretch : Stretch.path = stretch at h
  induction h with
  | start => exact hg
  | @stride c d e ds hp hs ih =>
    cases hs with
    | advance => exact (Cursor.advance_groups _).trans (ih hc hg hflat hstretch)
    | openGroup hk =>
      have hopen : d.current.kind.isOpener = false :=
        hflat _ ((hp.later hc hg).sublist.subset List.mem_cons_self)
      rcases hk with hk | hk <;>
      · rw [hk] at hopen
        cases hopen
    | closeGroup hopen => exact absurd (ih hc hg hflat hstretch) hopen
  | pass _ hb _ _ =>
    rw [Cursor.advance_groups, hb.groups_eq trivial, hb.groups_of_block]
  | _ => cases hstretch

theorem groups_of_failure (h : Course .failure c ds d) (hc : c.Ready) (hg : c.groups = 0)
    (hflat : c.Flat) : d.groups = 0 := by
  cases h with
  | stuck hp => exact hp.groups_of_path hc hg hflat
  | unclosed _ hz _ hbody _ =>
    rw [hbody.groups_eq trivial, Cursor.advance_groups, hz]

end Course

namespace Parse

variable {maxDigits depth : Nat} {j : Seam} {base s t u : ParseState}

/-! ## Statements -/

/-- A statement that is given up, told from what a run does. -/
theorem exists_failure (hs : s.toCursor.Ready) (hg : s.groups = 0)
    (h : statement maxDigits depth s = .error .malformed t) :
    ∃ ds, Course .failure s.toCursor ds t.toCursor := by
  rcases (notedStatement_told maxDigits depth hs hg).plain (notedStatement_nothing _ _) with
    ⟨node, d, ds, hrun, -⟩ | ⟨halt, d, ds, found, hrun, hhalt⟩
  · have hplain := h.symm.trans (hrun s.findings)
    cases hplain
  · have hplain := h.symm.trans (hrun s.findings)
    injection hplain with hmalformed hstate
    subst hmalformed hstate
    obtain ⟨-, before, cause, -, hfailure, -⟩ := hhalt
    exact ⟨before, hfailure⟩

/-- Where no bracket opens, malformed statements are skipped in the same way on both sides. -/
theorem recovering_beside_of_flat (hflat : base.toCursor.Flat) (maxDigits depth : Nat)
    (hst : Steady j base 0 (statement maxDigits depth)) :
    Steady j base 0 (recovering (statement maxDigits depth)) := by
  refine recovering_steady hst fun s t hl hg hrun _ hbefore => ?_
  obtain ⟨ds, hfailure⟩ := exists_failure hl.ready hg hrun
  have hready := (hfailure.later hl.ready hg).ready
  have hzero := hfailure.groups_of_failure hl.ready hg (hflat.later hl)
  have hsame : ∀ {c : Cursor}, c.groups = 0 → ({ c with groups := s.groups } : Cursor) = c := by
    intro c hc
    rw [hg, ← hc]
  rw [hsame hzero] at hbefore ⊢
  rw [hsame (show (t.toCursor.joined j).groups = 0 from hzero)]
  refine hready.skipWithin_joined (Nat.lt_succ_self _) ?_ hzero 0 hbefore
  exact Nat.succ_le_succ (Cursor.length_joined_le j t.toCursor)

/-- **A statement does not end at the end**, if no bracket opens and nothing is wrong with the end. -/
theorem ne_eof_of_recovering {result : Option Node} (hs : s.toCursor.Ready) (hg : s.groups = 0)
    (hflat : s.toCursor.Flat)
    (hrun : recovering (statement maxDigits depth) s = .ok result u)
    (hclean : ∀ f ∈ u.findings, f.token.kind ≠ .eof) : u.current.kind ≠ .eof := by
  have htold := recovering_told (notedStatement_told maxDigits depth hs hg)
  rcases htold.plain (congrArg recovering (notedStatement_nothing _ _)) with
    ⟨result', d, ds, hplain, hrecovered⟩ | ⟨crash, d, ds, found, hplain, -⟩
  · have hsame := hrun.symm.trans (hplain s.findings)
    injection hsame with hresult hstate
    subst hresult hstate
    cases hrecovered with
    | passed h => exact h.1.ne_eof_of_statement
    | @dropped d ds found hfailure hblames =>
      have hl := hfailure.later hs hg
      have hflat₀ : ParseState.Holds (fun t => t.kind.isOpener = false) ⟨s.toCursor, []⟩ :=
        ⟨hflat, by simp⟩
      have hholds := ((Outcome.iff_of_ok (hplain [])).1 (recovering_builds
        (statement_builds (Vocabulary.anything_has _) maxDigits depth) hflat₀)).2
      have hne : d.current.kind ≠ .eof := by
        intro heof
        obtain ⟨f, rfl, hkind⟩ := hblames.exists_of_eof hl.ready heof
        have hf : f ∈ (ds ++ [(⟨{ d with groups := s.groups }, some f⟩ : Drop)]).filterMap
            Drop.finding := by simp
        rcases hkind with hend | hbracket
        · exact hclean f (List.mem_append_right _ hf) hend
        · -- No bracket is blamed that is not there.
          have hopener := hholds.findings f hf
          rw [hbracket] at hopener
          cases hopener
      have hflat' : ({ d with groups := s.groups } : Cursor).Flat :=
        fun t ht => hflat t (hl.sublist.subset ht)
      exact hflat'.skipWithin_ne_eof hne _
  · have hsame := hrun.symm.trans (hplain s.findings)
    cases hsame

/-- **Every statement ends before the seam**, where no bracket opens. -/
theorem endBefore_of_flat (hclean : ∀ findings, j.Clean findings → ∀ f ∈ findings,
      f.token.kind ≠ .eof) (hflat : base.toCursor.Flat) (maxDigits depth : Nat) :
    EndBefore j base maxDigits depth := by
  have hrec := recovering_beside_of_flat (j := j) hflat
  refine endBefore_of_steady (hrec _ _ (statement_beside hrec _ _)) ?_
  intro s u result hl hg _ hrun hu
  exact ne_eof_of_recovering hl.ready hg (hflat.later hl) hrun (hclean _ hu)

/-! ## Programs -/

/-- **What was found wrong before is kept, and changes nothing.** -/
theorem program_after (limits : Limits) (hs : s.toCursor.Ready) (hg : s.groups = 0)
    (hnone : s.findings = []) (findings : List Finding) :
    program limits ⟨s.toCursor, findings⟩ =
      match program limits s with
      | .ok tree t => .ok tree ⟨t.toCursor, findings ++ t.findings⟩
      | .error crash t => .error crash ⟨t.toCursor, findings ++ t.findings⟩ := by
  have hstart : s = ⟨s.toCursor, []⟩ := by rw [← hnone]
  rcases (notedProgram_told limits hs hg).plain (notedProgram_nothing _) with
    ⟨tree, d, ds, hrun, -⟩ | ⟨crash, d, ds, found, hrun, -⟩
  · rw [hstart, hrun, hrun, List.nil_append]
  · rw [hstart, hrun, hrun, List.nil_append, List.append_assoc]

end Parse

/-! ## Texts -/

namespace Source

variable {s : Source} {limits : Limits}

theorem line_le_of_mem_tokens {t : Token} (h : t ∈ s.tokens) : t.line ≤ s.stop.line := by
  rcases List.mem_append.1 h with h | h
  · obtain ⟨placed, hplaced, ht⟩ := List.mem_filterMap.1 h
    obtain ⟨contents, -, rfl⟩ := Option.map_eq_some_iff.1 ht
    have hle := (Lexeme.line_of_mem_place hplaced).2
    rwa [Lexeme.flatMap_text_cut] at hle
  · rw [List.mem_singleton.1 h]
    exact Int.le_refl _

theorem line_of_mem_lexicalErrors {d : Diagnostic} (h : d ∈ s.lexicalErrors) :
    s.firstLine ≤ d.line ∧ d.line ≤ s.stop.line := by
  obtain ⟨⟨p, l⟩, hplaced, hd⟩ := List.mem_filterMap.1 h
  have hline : d.line = p.line := by
    cases l <;> cases hd <;> rfl
  have hlines := Lexeme.line_of_mem_place hplaced
  rw [Lexeme.flatMap_text_cut] at hlines
  rw [hline]
  exact hlines

/-- What is reported of a text stands on its lines. -/
theorem line_of_mem_reported {found : List Finding} (hfound : ∀ f ∈ found, f.token ∈ s.tokens)
    {d : Diagnostic} (h : d ∈ s.lexicalErrors ++ found.map fun f => f.diagnostic s) :
    s.firstLine ≤ d.line ∧ d.line ≤ s.stop.line := by
  rcases List.mem_append.1 h with h | h
  · exact line_of_mem_lexicalErrors h
  · obtain ⟨f, hf, rfl⟩ := List.mem_map.1 h
    exact ⟨firstLine_le_of_mem_tokens (hfound f hf), line_le_of_mem_tokens (hfound f hf)⟩

/-- **What is reported of joined texts** is what is reported of each, one after the other. -/
theorem reported_join (more : List Char) (hclosed : s.IsClosed) {found found' : List Finding}
    (hfound : ∀ f ∈ found, f.token ∈ s.tokens)
    (hfound' : ∀ f ∈ found', f.token ∈ (s.behind more).tokens) :
    Diagnostic.inOrder ((s.join more).lexicalErrors ++
        (found ++ found').map fun f => f.diagnostic (s.join more)) =
      Diagnostic.inOrder (s.lexicalErrors ++ found.map fun f => f.diagnostic s) ++
        Diagnostic.inOrder ((s.behind more).lexicalErrors ++
          found'.map fun f => f.diagnostic (s.behind more)) := by
  have hstart : (s.behind more).firstLine = s.stop.line + 1 := by
    rw [line_stop]
    rfl
  have hfirst : (found.map fun f => f.diagnostic (s.join more)) =
      found.map fun f => f.diagnostic s := by
    refine List.map_congr_left fun f hf => ?_
    have hle := line_le_of_mem_tokens (hfound f hf)
    rw [Finding.diagnostic, Finding.diagnostic, line_join_of_lt s more (by omega)]
  have hsecond : (found'.map fun f => f.diagnostic (s.join more)) =
      found'.map fun f => f.diagnostic (s.behind more) := by
    refine List.map_congr_left fun f hf => ?_
    rw [Finding.diagnostic, Finding.diagnostic,
      line_join s more (firstLine_le_of_mem_tokens (hfound' f hf))]
  rw [lexicalErrors_join more hclosed, List.map_append, hfirst, hsecond]
  refine Diagnostic.inOrder_append_append (s.behind more).firstLine (fun d hd => ?_) fun d hd => ?_
  · have hle := (line_of_mem_reported hfound hd).2
    omega
  · have hle := (line_of_mem_reported hfound' hd).1
    omega

/-- The two programs, if no bracket opens in the first and nothing is wrong with its end. -/
theorem program_join_of_flat {tree : Node} {t : ParseState} (more : List Char)
    (hclosed : s.IsClosed) (hflat : ∀ t ∈ s.tokens, t.kind.isOpener = false)
    (hrun : Parse.program limits (Parse.initial s.tokens s.endToken) = .ok tree t)
    (ht : ∀ f ∈ t.findings, f.token.kind ≠ .eof) :
    Parse.program limits (Parse.initial (s.join more).tokens (s.join more).endToken) =
      match
        Parse.program limits (Parse.initial (s.behind more).tokens (s.behind more).endToken) with
      | .ok rest u => .ok (.program (tree.statements ++ rest.statements))
          ⟨u.toCursor, t.findings ++ u.findings⟩
      | .error crash u => .error crash ⟨u.toCursor, t.findings ++ u.findings⟩ := by
  have hwords : ∀ t ∈ s.words, t.kind ≠ .eof := fun t h => (kind_of_mem_words h).1
  have hmore : ∀ t ∈ (s.behind more).words, t.kind ≠ .eof := fun t h => (kind_of_mem_words h).1
  have hview : (Parse.initial s.tokens s.endToken).toCursor.Flat := fun t ht =>
    hflat t ((view_initial_sublist s).subset ht)
  let j := Seam.mended s.endToken s.seam (s.behind more).tokens rfl rfl
  have hends : Parse.EndBefore j (Parse.initial s.tokens s.endToken) limits.digits
      limits.nesting := Parse.endBefore_of_flat (fun _ h => h) hview _ _
  have hjoin := Parse.program_seam (j := j) hwords rfl rfl hmore hends hrun ht
  have hafter : Parse.program limits ⟨Cursor.ofTokens j.more (s.behind more).endToken, t.findings⟩ =
      _ := Parse.program_after limits (ready_initial (s.behind more)) (Parse.groups_initial _ _) rfl
        t.findings
  rw [hafter] at hjoin
  rw [tokens_join more hclosed, endToken_join]
  refine hjoin.trans ?_
  cases Parse.program limits (Parse.initial (s.behind more).tokens (s.behind more).endToken) <;> rfl

/-- **A malformed text does not disturb what follows on the next line**, if no bracket opens in it, it
ends outside of strings and comments, and nothing is wrong with its end: the statements and all that
is reported are those of the two texts, one after the other. -/
theorem parse_join_flat (text more : List Char) (n : Int) (limits : Limits) (first : Parsed)
    (hflat : ∀ t ∈ tokens { text := text, firstLine := n }, t.kind.isOpener = false)
    (hclosed : ∀ l ∈ Lexeme.cut text, l.isClosed)
    (hfirst : parse { text := text, firstLine := n } limits = .ok first)
    (hend : ∀ e ∈ first.errors,
      ¬ (e.line = (endToken { text := text, firstLine := n }).line ∧
        e.start = (endToken { text := text, firstLine := n }).col)) :
    parse { text := text ++ '\n' :: more, firstLine := n } limits =
      (parse { text := more, firstLine := n + text.count '\n' + 1 } limits).map fun second =>
        { program := .program (first.program.statements ++ second.program.statements)
          errors := first.errors ++ second.errors
          warnings := first.warnings ++ second.warnings } := by
  let s : Source := { text := text, firstLine := n }
  show parse (s.join more) limits = (parse (s.behind more) limits).map _
  have hclosed' : s.IsClosed := hclosed
  obtain ⟨t, hrun, hreport, hwarn⟩ := exists_run_of_parse hfirst
  have hmem := mem_tokens_of_program hrun
  -- The only token that ends the text is where nothing is wrong.
  have hclean : ∀ f ∈ t.findings, f.token.kind ≠ .eof := by
    intro f hf heof
    have hlast : f.token = s.endToken := eq_endToken (hmem f hf) heof
    refine hend (f.diagnostic s) ?_ ?_
    · rw [hreport, (Diagnostic.perm_inOrder _).mem_iff]
      exact List.mem_append_right _ (List.mem_map_of_mem hf)
    · rw [Finding.diagnostic, hlast]
      exact ⟨rfl, rfl⟩
  have hprogram := program_join_of_flat more hclosed' hflat hrun hclean
  unfold parse
  rw [hprogram]
  cases hsecond : Parse.program limits
      (Parse.initial (s.behind more).tokens (s.behind more).endToken) with
  | error crash u => rfl
  | ok rest u =>
    have hjoined := reported_join more hclosed' hmem (mem_tokens_of_program hsecond)
    simp only [Except.map, warnings_join more hclosed', hjoined, hreport, hwarn]
    rfl

/-- A statement and a malformed one, which has no name where one is expected; the second text closes a
brace that was never opened. -/
theorem parse_join_flat_declaration :
    ∃ first, parse { text := "x; int 5".toList, firstLine := 1 } Limits.standard = .ok first ∧
      first.errors.length = 1 ∧
      parse { text := "x; int 5".toList ++ '\n' :: "\x7d y".toList, firstLine := 1 }
          Limits.standard =
        (parse { text := "\x7d y".toList, firstLine := 1 + "x; int 5".toList.count '\n' + 1 }
          Limits.standard).map fun second =>
            { program := .program (first.program.statements ++ second.program.statements)
              errors := first.errors ++ second.errors
              warnings := first.warnings ++ second.warnings } := by
  obtain ⟨tree, error, hfirst, hcol⟩ : ∃ tree error,
      parse { text := "x; int 5".toList, firstLine := 1 } Limits.standard =
        .ok { program := tree, errors := Diagnostic.inOrder [error], warnings := [] } ∧
      error.start = 7 := ⟨_, _, rfl, rfl⟩
  have herrors := Diagnostic.perm_inOrder [error]
  refine ⟨_, hfirst, herrors.length_eq, parse_join_flat _ _ _ _ _ ?_ ?_ hfirst ?_⟩
  · decide
  · decide
  · rintro e he ⟨-, hend⟩
    rw [List.mem_singleton.1 (herrors.mem_iff.1 he), hcol] at hend
    revert hend
    decide

end Source

end LimLang
