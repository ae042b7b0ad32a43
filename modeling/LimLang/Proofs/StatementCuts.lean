import LimLang.Proofs.Concatenation
import LimLang.Proofs.RenderedLines
import LimLang.Proofs.TandemParsers

/-! # Rendered programs, cut between statements

A rendered program is read back wherever as many levels of nesting are allowed as its tree has
(`Source.program_of_levels`).  In a rendered program every statement has a line to itself, and so the
program can be cut behind any of them: each statement with its newline is read as the same tree, with
its tokens where they stand in the program (`Source.program_cons`).
-/
namespace LimLang

namespace Parse

/-- At first the first token is current, if it is no newline. -/
theorem initial_cons {t : Token} (ht : t.kind ≠ .endOfLine) (ts : List Token) (last : Token) :
    initial (t :: ts) last = ⟨⟨t, ts, 0⟩, []⟩ := by
  show (⟨Cursor.advance ⟨last, t :: ts, 0⟩, []⟩ : ParseState) = _
  rw [Cursor.advance_of_ahead (dropWhile_of_ne ht ts), settle_zero]

theorem eq_of_program {limits : Limits} {s t : ParseState} {tree : Node}
    (h : program limits s = .ok tree t) :
    ∃ nodes, tree = .program nodes ∧ toEnd limits s = .ok nodes t := by
  rw [program_eq] at h
  cases hend : toEnd limits s with
  | error crash u =>
    rw [hend] at h
    cases h
  | ok nodes u =>
    rw [hend] at h
    injection h with htree hu
    exact ⟨nodes, htree.symm, by rw [hu]⟩

end Parse

/-! ## Texts -/

namespace Node

theorem length_eq_of_sameAll {as bs : List Node} (h : sameAll as bs) : as.length = bs.length := by
  induction as generalizing bs with
  | nil =>
    cases bs with
    | nil => rfl
    | cons b bs => cases h
  | cons a as ih =>
    cases bs with
    | nil => cases h
    | cons b bs =>
      rw [sameAll, Bool.and_eq_true] at h
      rw [List.length_cons, List.length_cons, ih h.2]

theorem render_single (statement : Node) : (program [statement]).render = statement.render := by
  rw [render_program]
  rfl

/-- The first statement of a program stands on lines of its own. -/
theorem toList_render_cons (statement : Node) {statements : List Node} (h : statements ≠ []) :
    (program (statement :: statements)).render.toList =
      statement.render.toList ++ '\n' :: (program statements).render.toList := by
  rcases List.exists_cons_of_ne_nil h with ⟨next, rest, rfl⟩
  rw [render_program, render_program, String.toList_intercalate, String.toList_intercalate]
  simp [List.intercalate]

end Node

namespace Source

variable {s : Source} {limits : Limits}

section Clean
variable (hs : ∀ l ∈ Lexeme.cut s.text, l.isClean)
include hs

/-- Nothing is wrong with the lexemes, and nothing suspicious about them. -/
theorem faultless_of_clean : s.lexicalErrors = [] ∧ s.warnings = [] := by
  have hplaced : ∀ placed ∈ s.lexemes, placed.2.isClean := fun placed h =>
    hs _ (Lexeme.mem_of_mem_place h)
  exact ⟨List.filterMap_eq_nil_iff.2 fun placed h => s.lexicalError?_of_isClean (hplaced placed h),
    List.filterMap_eq_nil_iff.2 fun placed h => s.lexicalWarning?_of_isClean (hplaced placed h)⟩

theorem readable_of_clean (hdigits : 19 ≤ limits.digits) : Readable limits.digits s.words := by
  intro t ht hk
  have hmem : t.contents ∈ (Lexeme.cut s.text).filterMap Lexeme.token? := by
    rw [← Lexeme.map_contents s.start]
    exact List.mem_map_of_mem ht
  obtain ⟨l, hl, htoken⟩ := List.mem_filterMap.1 hmem
  exact ((Lexeme.token?_of_isClean (hs l hl) htoken).2 hk).trans hdigits

end Clean

theorem length_words_le (s : Source) : s.words.length ≤ s.text.length := by
  have hcount := congrArg List.length (Lexeme.map_contents s.start (Lexeme.cut s.text))
  rw [List.length_map] at hcount
  calc s.words.length = ((Lexeme.cut s.text).filterMap Lexeme.token?).length := hcount
    _ ≤ (Lexeme.cut s.text).length := List.length_filterMap_le _ _
    _ ≤ s.text.length := Lexeme.length_cutWithin_le _ _

/-- Nothing is read of a text that is empty. -/
theorem program_of_nil (hs : s.text = []) :
    Parse.program limits (Parse.initial s.tokens s.endToken) =
      .ok (.program []) ⟨⟨s.endToken, [], 0⟩, []⟩ := by
  have htokens : s.tokens = [s.endToken] := by
    rw [tokens, lexemes, hs]
    rfl
  have hline : s.endToken.kind ≠ .endOfLine := by rintro ⟨⟩
  rw [htokens, Parse.initial_cons hline, Parse.program_eq, Parse.toEnd_of_eof rfl]

section Rendered
variable {program : Node} (hp : program.Fits Vocabulary.standard .program)
  (hs : s.text = program.render.toList) (hdigits : 19 ≤ limits.digits)
include hp hs

theorem rendered_words :
    (∀ l ∈ Lexeme.cut s.text, l.isClean) ∧ program.IsReadAs .program s.words := by
  have hread : Rereads Lexeme.endsAny s.text (program.IsReadAs .program) := by
    rw [hs]
    exact hp.rereadable
  exact hread.words

theorem faultless_of_render : s.lexicalErrors = [] ∧ s.warnings = [] :=
  faultless_of_clean (rendered_words hp hs).1

/-- A newline behind a rendered program makes no difference. -/
theorem parse_line {nodes : List Node} {t : ParseState}
    (hrun : Parse.program limits (Parse.initial s.tokens s.endToken) = .ok (.program nodes) t)
    (ht : t.findings = []) :
    (s.join []).parse limits = .ok { program := .program nodes, errors := [], warnings := [] } := by
  obtain ⟨he, hw⟩ := faultless_of_render hp hs
  have hclosed := isClosed_of_errors he hw
  have hjoin := program_join [] he hw hrun ht
  rw [program_of_nil (s := s.behind []) rfl] at hjoin
  rw [← List.append_nil nodes]
  refine parse_faultless ?_ ?_ hjoin rfl
  · rw [lexicalErrors_join [] hclosed, he]
    rfl
  · rw [warnings_join [] hclosed, hw]
    rfl

include hdigits

/-- **A rendered program is read back**, if it may be nested as deep as its tree says: what is parsed
differs from it in its tokens only. -/
theorem program_of_levels (hnesting : program.levels ≤ limits.nesting) :
    ∃ nodes, (Node.program nodes).Alike program ∧
      Parse.program limits (Parse.initial s.tokens s.endToken) =
        .ok (.program nodes) ⟨⟨s.endToken, [], 0⟩, []⟩ := by
  obtain ⟨hclean, nodes, hbody, halike⟩ := rendered_words hp hs
  exact ⟨nodes, halike, Parse.program_run rfl (fun t h => (kind_of_mem_words h).1)
    (readable_of_clean hclean hdigits) hbody hnesting⟩

/-- A rendered program is read back, if there are fewer words than there may be levels. -/
theorem program_of_render (hnesting : s.words.length < limits.nesting) :
    ∃ nodes, (Node.program nodes).Alike program ∧
      Parse.program limits (Parse.initial s.tokens s.endToken) =
        .ok (.program nodes) ⟨⟨s.endToken, [], 0⟩, []⟩ := by
  obtain ⟨hclean, nodes, hbody, halike⟩ := rendered_words hp hs
  exact ⟨nodes, halike, Parse.program_run rfl (fun t h => (kind_of_mem_words h).1)
    (readable_of_clean hclean hdigits) hbody.clause.within hnesting⟩

end Rendered

/-- **A rendered statement in front of a text** is read as it is with its newline alone, and the text as
it is read alone. -/
theorem program_cons {statement : Node} (hst : statement.Fits Vocabulary.standard .statement)
    (hs : s.text = statement.render.toList) (hdigits : 19 ≤ limits.digits)
    (hnesting : statement.levels < limits.nesting) :
    ∃ node,
      (s.join []).parse limits = .ok { program := .program [node], errors := [], warnings := [] } ∧
      ∀ (text : List Char) (nodes : List Node) (t : ParseState),
        Parse.program limits (Parse.initial (s.behind text).tokens (s.behind text).endToken) =
          .ok (.program nodes) t →
        Parse.program limits (Parse.initial (s.join text).tokens (s.join text).endToken) =
          .ok (.program (node :: nodes)) t := by
  have hfits : (Node.program [statement]).Fits Vocabulary.standard .program :=
    .program (List.forall_mem_singleton.2 hst)
  have htext : s.text = (Node.program [statement]).render.toList := by rw [Node.render_single, hs]
  have hlevels : (Node.program [statement]).levels ≤ limits.nesting :=
    Nat.max_le.2 ⟨hnesting, Nat.zero_le _⟩
  obtain ⟨nodes, halike, hrun⟩ := program_of_levels hfits htext hdigits hlevels
  obtain ⟨node, rfl⟩ := List.length_eq_one_iff.1 (Node.length_eq_of_sameAll halike.1)
  refine ⟨node, parse_line hfits htext hrun rfl, fun text nodes t hrest => ?_⟩
  obtain ⟨he, hw⟩ := faultless_of_render hfits htext
  rw [program_join text he hw hrun rfl, hrest]
  rfl

end Source

end LimLang
