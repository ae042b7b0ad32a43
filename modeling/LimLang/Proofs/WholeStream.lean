import LimLang.Proofs.CourseParsers
import LimLang.Proofs.Reparsing
import LimLang.Proofs.Tiling

/-! # Texts are read to their end

Whatever a text is, the parser gets to its end, unless a limit is in its way, and nothing that is wrong
with the text is lost (`Source.parse_reads_through`).  What the scanner has recorded by then is all that
there is to record, for the parser has drawn every token.  Of the statements that were given up, each
is reported once, or was given up at text that is no token; such text is in the scanner's report, so
the parser adds nothing to it.

Why a statement was given up is a fact about the course of the parse (`Course.grounded`).  Nothing is
reported exactly if there is neither such text nor such a statement.
-/
namespace LimLang

open ParseState (Later)

/-! ## Statements are given up for a reason -/

/-- **There is a reason to give up a statement** among the tokens `ts`. -/
structure Drop.Grounded (ts : List Token) (drop : Drop) : Prop where
  blames : drop.cursor.Blames drop.finding
  sublist : drop.cursor.view.Sublist ts

namespace Drop.Grounded

variable {drop : Drop} {ts us : List Token}

theorem mono (h : drop.Grounded ts) (hs : ts.Sublist us) : drop.Grounded us :=
  ⟨h.blames, h.sublist.trans hs⟩

/-- If nothing is recorded, some text is no token. -/
theorem exists_illegal (h : drop.Grounded ts) (hnone : drop.finding = none) :
    ∃ t ∈ ts, t.kind = .illegal := by
  have hblames := h.blames
  rw [hnone] at hblames
  rcases hblames with hk | hk
  · exact ⟨_, h.sublist.subset List.mem_cons_self, hk⟩
  · exact ⟨_, h.sublist.subset (Cursor.peek_mem_view _), hk⟩

end Drop.Grounded

namespace Course

variable {c d : Cursor} {ds : List Drop} {stretch : Stretch}

/-- **Every statement is given up for a reason.** -/
theorem grounded (h : Course stretch c ds d) (hc : c.Ready) (hg : c.groups = 0) :
    ∀ drop ∈ ds, drop.Grounded c.view := by
  induction h with
  | start => exact List.forall_mem_nil _
  | stride _ _ ih => exact ih hc hg
  | pass hp hb ihp ihb =>
    have hl := hp.later hc hg
    refine List.forall_mem_append.2 ⟨ihp hc hg, fun drop hd => ?_⟩
    exact (ihb hl.ready hb.groups_of_block drop hd).mono hl.sublist
  | block hz _ _ _ ih =>
    have hl := (Later.refl (s := ⟨_, []⟩) hc).advance
    intro drop hd
    exact (ih hl.ready ((Cursor.advance_groups _).trans hz) drop hd).mono hl.sublist
  | plain _ _ _ ih => exact ih hc hg
  | braced hp _ hb ihp ihb =>
    have hl := hp.later hc hg
    refine List.forall_mem_append.2 ⟨ihp hc hg, fun drop hd => ?_⟩
    exact (ihb hl.ready hb.groups_of_block drop hd).mono hl.sublist
  | stuck _ ih => exact ih hc hg
  | unclosed hp hz _ _ _ ihp ih =>
    have hl := (hp.later hc hg).advance
    refine List.forall_mem_append.2 ⟨ihp hc hg, fun drop hd => ?_⟩
    exact (ih hl.ready ((Cursor.advance_groups _).trans hz) drop hd).mono hl.sublist
  | done => exact List.forall_mem_nil _
  | next _ hst _ ihs ih =>
    have hl := (hst.later hc hg).advance
    refine List.forall_mem_append.2 ⟨ihs hc hg, fun drop hd => ?_⟩
    exact (ih hl.ready (hst.groups_advance hg) drop hd).mono hl.sublist
  | last _ hf hblames _ ihf =>
    -- What is in view does not depend on the groups, which are set back before skipping.
    refine List.forall_mem_append.2 ⟨ihf hc hg, List.forall_mem_singleton.2 ?_⟩
    exact ⟨hblames, (hf.later hc hg).sublist⟩
  | skip _ hf hblames _ _ ihf ih =>
    have hl := ((hf.later hc hg).synchronize hg).advance
    refine List.forall_mem_append.2 ⟨ihf hc hg, List.forall_mem_cons.2 ⟨?_, fun drop hd => ?_⟩⟩
    · exact ⟨hblames, (hf.later hc hg).sublist⟩
    · refine (ih hl.ready ?_ drop hd).mono hl.sublist
      rw [Cursor.advance_groups, Cursor.synchronize_groups, hg]

end Course

/-! ## What the scanner has recorded -/

namespace Scanner

theorem take_add (m n : Nat) (z : Scanner) :
    z.take (m + n) = ((z.take m).1 ++ ((z.take m).2.take n).1, ((z.take m).2.take n).2) := by
  induction m generalizing z with
  | zero => rw [Nat.zero_add]; rfl
  | succ m ih => rw [Nat.succ_add, take, ih, take]; rfl

/-- **The scanner hands out the tokens of a text**, and from then on the last of them. -/
theorem take_initial (s : Source) (more : Nat) :
    (initial s).take (s.tokens.length + more) =
      (s.tokens ++ List.replicate more s.endToken, (initial s).final) := by
  have htake : (initial s).take s.tokens.length = (s.tokens, (initial s).final) := by
    rw [show s.tokens.length = (initial s).words.length + 1 from List.length_append]
    exact (initial s).take_words
  rw [take_add, htake, take_of_nil rfl]
  rfl

end Scanner

namespace Source

variable {s : Source} {limits : Limits} {parsed : Parsed}

/-- **Text that is no token is reported**, and nothing else by the scanner. -/
theorem lexicalErrors_eq_nil_iff : s.lexicalErrors = [] ↔ ∀ t ∈ s.tokens, t.kind ≠ .illegal := by
  constructor
  · intro herrors t ht
    rcases List.mem_append.1 ht with ht | ht
    · exact (kind_of_mem_words ht).2 herrors
    · rw [List.mem_singleton.1 ht]
      rintro ⟨⟩
  · -- Each of the lexemes that are reported stands for an illegal token.
    intro hlegal
    refine List.filterMap_eq_nil_iff.2 fun placed hplaced => ?_
    have htoken : ∀ text, placed.2.token? ≠ some (.illegal, text) := by
      intro text htext
      have hplace : Lexeme.tokenAt? placed = some _ := Option.map_eq_some_iff.2 ⟨_, htext, rfl⟩
      exact hlegal _ (List.mem_append_left _ (List.mem_filterMap.2 ⟨_, hplaced, hplace⟩)) rfl
    obtain ⟨p, l⟩ := placed
    cases l with
    | openString | numberedWord | stray => exact absurd rfl (htoken _)
    | _ => rfl

/-! ## Reading to the end -/

/-- **A text has been read to its end.**  What came of it is `parsed`; the parser stands at `c`, has
given up the statements `drops`, and has left the scanner that its tokens come from as `scanner`. -/
structure ReadThrough (s : Source) (limits : Limits) (parsed : Parsed) (c : Cursor)
    (drops : List Drop) (scanner : Scanner) : Prop where
  /-- The parser ends at `c` and has recorded what is wrong with the statements it gave up. -/
  program_eq : Parse.program limits (Parse.initial s.tokens s.endToken) =
    .ok parsed.program ⟨c, drops.filterMap Drop.finding⟩
  /-- If it is to make notes of the statements it gives up, it makes them of these. -/
  noted_eq : ∀ note, Parse.notedProgram note limits (Parse.initial s.tokens s.endToken) =
    .ok parsed.program ⟨c, Drop.record note drops⟩
  current_eq : c.current = s.endToken
  ahead_eq : c.ahead = []
  /-- Once all tokens are drawn, nothing more is recorded, however many are asked for. -/
  scanned : ∀ more, (Scanner.initial s).take (s.tokens.length + more) =
    (s.tokens ++ List.replicate more s.endToken, scanner)
  warnings_eq : parsed.warnings = scanner.warnings
  /-- A statement is given up without a record only at text that is no token. -/
  grounded : ∀ drop ∈ drops, drop.Grounded s.tokens
  errors_perm : parsed.errors.Perm
    (scanner.errors ++ (drops.filterMap Drop.finding).map fun f => f.diagnostic s)
  errors_sorted : parsed.errors.Pairwise fun a b =>
    a.line < b.line ∨ a.line = b.line ∧ a.start ≤ b.start
  errors_eq_nil_iff : parsed.errors = [] ↔ (∀ t ∈ s.tokens, t.kind ≠ .illegal) ∧ drops = []

/-- The parser follows a course through the whole text. -/
theorem exists_course {tree : Node} {t : ParseState}
    (hrun : Parse.program limits (Parse.initial s.tokens s.endToken) = .ok tree t) :
    ∃ drops, Course (.body Kind.closesProgram) (Parse.initial s.tokens s.endToken).toCursor drops
        t.toCursor ∧ t.findings = drops.filterMap Drop.finding ∧
      ∀ note, Parse.notedProgram note limits (Parse.initial s.tokens s.endToken) =
        .ok tree ⟨t.toCursor, Drop.record note drops⟩ := by
  have hnothing : Parse.notedProgram (fun _ => []) limits (Parse.initial s.tokens s.endToken) =
      .ok tree t := by
    rw [Parse.notedProgram_nothing, hrun]
  rcases Parse.notedProgram_told limits (ready_initial s) (Parse.groups_initial _ _) with
    ⟨tree', c, drops, hnoted, hcourse⟩ | ⟨crash, c, drops, found, hnoted, -⟩
  · cases hnothing.symm.trans (hnoted (fun _ => []) [])
    exact ⟨drops, hcourse, Drop.record_nothing drops, fun note => hnoted note []⟩
  · cases hnothing.symm.trans (hnoted (fun _ => []) [])

/-- **Nothing is reported** exactly if every text is a token and no statement is given up. -/
theorem reported_eq_nil_iff {drops : List Drop} (h : ∀ drop ∈ drops, drop.Grounded s.tokens) :
    s.lexicalErrors ++ (drops.filterMap Drop.finding).map (fun f => f.diagnostic s) = [] ↔
      (∀ t ∈ s.tokens, t.kind ≠ .illegal) ∧ drops = [] := by
  rw [List.append_eq_nil_iff, lexicalErrors_eq_nil_iff, List.map_eq_nil_iff,
    List.filterMap_eq_nil_iff]
  refine and_congr_right fun hlegal => ⟨fun hnone => ?_, ?_⟩
  · refine List.eq_nil_iff_forall_not_mem.2 fun drop hd => ?_
    obtain ⟨t, ht, hk⟩ := (h drop hd).exists_illegal (hnone drop hd)
    exact hlegal t ht hk
  · rintro rfl
    exact List.forall_mem_nil _

/-- Whatever is parsed has been read to its end. -/
theorem exists_readThrough (h : s.parse limits = .ok parsed) :
    ∃ c drops scanner, s.ReadThrough limits parsed c drops scanner := by
  obtain ⟨t, hrun, hreport, hwarnings⟩ := exists_run_of_parse h
  obtain ⟨drops, hcourse, hfindings, hnoted⟩ := exists_course hrun
  have hlater := hcourse.later (ready_initial s) (Parse.groups_initial _ _)
  have heof : t.current.kind = .eof := by
    have hcloses := hcourse.closes_of_body
    by_contra hne
    rw [Parse.closesProgram_eq_false hne] at hcloses
    cases hcloses
  have hgrounded : ∀ drop ∈ drops, drop.Grounded s.tokens := fun drop hd =>
    (hcourse.grounded (ready_initial s) (Parse.groups_initial _ _) drop hd).mono (view_initial_sublist s)
  rw [hfindings] at hreport
  refine ⟨t.toCursor, drops, (Scanner.initial s).final, ?_⟩
  exact {
    program_eq := by rw [hrun, ← hfindings]
    noted_eq := hnoted
    current_eq := eq_endToken
      ((hlater.sublist.trans (view_initial_sublist s)).subset List.mem_cons_self) heof
    ahead_eq := hlater.ready.ahead_eq_nil heof
    scanned := Scanner.take_initial s
    warnings_eq := hwarnings
    grounded := hgrounded
    errors_perm := by
      rw [hreport]
      exact Diagnostic.perm_inOrder _
    errors_sorted := by
      rw [hreport]
      exact Diagnostic.pairwise_inOrder _
    errors_eq_nil_iff := by
      rw [hreport, Diagnostic.inOrder_eq_nil_iff]
      exact reported_eq_nil_iff hgrounded }

/-- **Every text is read to its end, and nothing that is wrong with it is lost.**  Within limits that its
tokens do not exceed, a text is parsed; and whatever is parsed has been read to its end. -/
theorem parse_reads_through (s : Source) (limits : Limits) :
    ((∀ t ∈ s.tokens, t.kind = .int → t.text.length ≤ limits.digits) →
      s.tokens.length + 1 < limits.nesting → ∃ parsed, s.parse limits = .ok parsed) ∧
    ∀ parsed, s.parse limits = .ok parsed →
      ∃ c drops scanner, s.ReadThrough limits parsed c drops scanner := by
  refine ⟨fun hdigits hnesting => ?_, fun parsed => exists_readThrough⟩
  have hlength : s.tokens.length = s.words.length + 1 := List.length_append
  refine exists_parse_of_readable (fun t ht => hdigits t (List.mem_append_left _ ht)) ?_
  omega

/-- Two statements are given up, one of them at a character that starts no token, and a comment is
never closed. -/
theorem parse_reads_through_stray :
    ∃ parsed c drops scanner,
      parse { text := "int 5\n@\ny /*".toList } Limits.standard = .ok parsed ∧
      parsed.errors.length = 2 ∧ parsed.warnings.length = 1 ∧ parsed.program.render = "y" ∧
      ReadThrough { text := "int 5\n@\ny /*".toList } Limits.standard parsed c drops scanner := by
  obtain ⟨hexists, hthrough⟩ :=
    parse_reads_through { text := "int 5\n@\ny /*".toList } Limits.standard
  obtain ⟨parsed, hparse⟩ := hexists (by decide) (by decide)
  obtain ⟨c, drops, scanner, hread⟩ := hthrough parsed hparse
  obtain ⟨tree, errors, warnings, heval, herrors, hwarnings, hrender⟩ : ∃ tree errors warnings,
      parse { text := "int 5\n@\ny /*".toList } Limits.standard =
        .ok { program := tree, errors := Diagnostic.inOrder errors, warnings } ∧
      errors.length = 2 ∧ warnings.length = 1 ∧ tree.render = "y" :=
    ⟨_, _, _, rfl, rfl, rfl, rfl⟩
  obtain rfl := Except.ok.inj (heval.symm.trans hparse)
  have hlength := (Diagnostic.perm_inOrder errors).length_eq.trans herrors
  exact ⟨_, c, drops, scanner, hparse, hlength, hwarnings, hrender, hread⟩

end Source

end LimLang
