import LimLang.Proofs.StatementCompleteness

/-! # The parser accepts its grammar

A list of tokens is parsed without anything found wrong exactly if it is a program of the grammar,
and then the result is the program's tree.  The two halves are that what is read undisturbed is a
program (`Parse.program_reads`) and that a program is read undisturbed (`Parse.program_run`).

Text that is no token is reported by the lexer and not again by the parser, so the statement is
about lists of tokens without it.  The limits on nesting and on the digits of literals are not part
of the grammar; they must be wide enough for the list.
-/
namespace LimLang

open Cursor (isNewline)

namespace Parse

variable {ts : List Token} {last : Token}

theorem terminated_append (hlast : last.kind = .eof) (hts : ∀ t ∈ ts, t.kind ≠ .eof) :
    Terminated (ts ++ [last]) :=
  .append hts (by simp [Terminated, hlast])

theorem groups_initial (ts : List Token) (last : Token) : (initial ts last).groups = 0 :=
  Cursor.advance_groups _

section Initial
variable (hlast : last.kind = .eof) (hts : ∀ t ∈ ts, t.kind ≠ .eof)
include hlast hts

/-- At first the tokens are in view, from the first that is no newline. -/
theorem view_initial : (initial (ts ++ [last]) last).view = (ts ++ [last]).dropWhile isNewline := by
  obtain ⟨-, t, us, -, -, -, hd⟩ := (terminated_append hlast hts).exists_ahead
  show (Cursor.advance ⟨last, ts ++ [last], 0⟩).view = _
  rw [hd, Cursor.advance_of_ahead hd]
  rfl

theorem ready_initial : (initial (ts ++ [last]) last).toCursor.Ready := by
  have hview := view_initial hlast hts
  refine ⟨?_, ?_, by rw [groups_initial, settle_zero]⟩
  · show Terminated (initial (ts ++ [last]) last).view
    rw [hview]
    exact (terminated_append hlast hts).dropWhile
  · obtain ⟨-, t, us, -, -, ht, hd⟩ := (terminated_append hlast hts).exists_ahead
    rw [hd] at hview
    rw [show (initial (ts ++ [last]) last).current = t from (List.cons.inj hview).1]
    exact ht

end Initial

/-- **A program is read undisturbed**, if it is not nested too deep. -/
theorem program_run {limits : Limits} {n : Nat} {nodes : List Node} (hlast : last.kind = .eof)
    (hts : ∀ t ∈ ts, t.kind ≠ .eof) (hr : Readable limits.digits ts)
    (h : Clause.Within n .body ts nodes) (hn : n ≤ limits.nesting) :
    program limits (initial (ts ++ [last]) last) = .ok (.program nodes) ⟨⟨last, [], 0⟩, []⟩ := by
  have hin : InView limits.digits Kind.closesProgram ts
      (initial (ts ++ [last]) last).toCursor ⟨last, [], 0⟩ := {
    ready := ready_initial hlast hts
    groups_eq := groups_initial _ _
    last_groups_eq := rfl
    closesBlock := fun kind => by cases kind <;> simp [Kind.closesProgram, Kind.closesBlock]
    closed := by rw [hlast]; rfl
    view_eq := view_initial hlast hts
    readable := hr }
  have hrun := h.runs limits.digits limits.nesting Kind.closesProgram _ _ []
    ((initial (ts ++ [last]) last).ahead.length + 2) hin hn (Nat.lt_add_of_pos_right Nat.two_pos)
  rw [← Outcome.run_iff]
  unfold program
  simp only [Outcome.bind_iff, remaining_iff]
  exact (Outcome.iff_of_ok hrun).2 ⟨rfl, rfl⟩

/-- Within limits that are wide enough for the tokens, the parser does not crash. -/
theorem not_crashes {limits : Limits} (hlast : last.kind = .eof) (hts : ∀ t ∈ ts, t.kind ≠ .eof)
    (hr : Readable limits.digits ts) (hn : ts.length + 2 < limits.nesting) (crash : Crash) :
    ¬ Crashes limits.digits (limits.nesting - 1) (initial (ts ++ [last]) last) crash := by
  have hsub : (initial (ts ++ [last]) last).view.Sublist (ts ++ [last]) := by
    rw [view_initial hlast hts]
    exact List.dropWhile_sublist _
  rcases crash with _ | fault
  · intro hc
    have hlen := hsub.length_le
    rw [List.length_append, List.length_singleton] at hlen
    have : limits.nesting - 1 ≤ (initial (ts ++ [last]) last).view.length := hc
    omega
  · rintro ⟨token, hm, hk, hlong⟩
    rcases List.mem_append.1 (hsub.subset hm) with hm | hm
    · exact absurd (hr token hm hk) (Nat.not_le.2 hlong)
    · rw [List.mem_singleton.1 hm, hlast] at hk
      cases hk

/-- **What is read undisturbed is a program**, whatever the limits. -/
theorem program_clause {limits : Limits} {tree : Node} {t : ParseState} (hlast : last.kind = .eof)
    (hts : ∀ t ∈ ts, t.kind ≠ .eof ∧ t.kind ≠ .illegal)
    (hrun : program limits (initial (ts ++ [last]) last) = .ok tree t) (hf : t.findings = []) :
    ∃ nodes, tree = .program nodes ∧ Clause .body ts nodes := by
  have hne : ∀ t ∈ ts, t.kind ≠ .eof := fun t ht => (hts t ht).1
  have hview := view_initial hlast hne
  have hsub : (initial (ts ++ [last]) last).view.Sublist (ts ++ [last]) := by
    rw [hview]
    exact List.dropWhile_sublist _
  obtain ⟨nodes, rfl, hl, heof, hbody⟩ := (Outcome.iff_of_ok hrun).1
    (program_reads limits (ready_initial hlast hne) (groups_initial _ _))
  refine ⟨nodes, rfl, ?_⟩
  have hundisturbed : (initial (ts ++ [last]) last).Undisturbed t := by
    refine ⟨hf, fun token hm hk => ?_⟩
    rcases List.mem_append.1 (hsub.subset hm) with hm | hm
    · exact (hts token hm).2 hk
    · rw [List.mem_singleton.1 hm, hlast] at hk
      cases hk
  -- All but the newlines in front and the last token has been read.
  obtain ⟨body, hsplit, hclause⟩ := hbody hundisturbed
  obtain ⟨gap, u, us, hgap, hall, -, hd⟩ := (terminated_append hlast hne).exists_ahead
  rw [hview, hd, Cursor.view, hl.ready.ahead_eq_nil heof] at hsplit
  rw [hsplit, ← List.append_assoc] at hall
  rw [(List.append_inj' hall rfl).1]
  exact hclause.gap hgap

/-- The parser always gets to the end. -/
theorem program_sound {limits : Limits} (hlast : last.kind = .eof)
    (hts : ∀ t ∈ ts, t.kind ≠ .eof ∧ t.kind ≠ .illegal) (hr : Readable limits.digits ts)
    (hn : ts.length + 2 < limits.nesting) :
    ∃ nodes t, program limits (initial (ts ++ [last]) last) = .ok (.program nodes) t ∧
      (t.findings = [] → Clause .body ts nodes) := by
  have hne : ∀ t ∈ ts, t.kind ≠ .eof := fun t ht => (hts t ht).1
  have houtcome := program_reads limits (ready_initial hlast hne) (groups_initial _ _)
  obtain ⟨tree, t, hrun, nodes, rfl, -⟩ :=
    (houtcome.mono (fun _ _ h => h) fun crash _ => not_crashes hlast hne hr hn crash).exists_ok
  refine ⟨nodes, t, hrun, fun hf => ?_⟩
  obtain ⟨nodes', heq, hclause⟩ := program_clause hlast hts hrun hf
  obtain rfl := Node.program.inj heq
  exact hclause

/-- **The parser accepts exactly its grammar.**  It comes to the end of every list of tokens; it has
found nothing wrong exactly if the list is a program, and then the result is the program's tree. -/
theorem program_accepts_iff (limits : Limits) (ts : List Token) (last : Token)
    (hlast : last.kind = .eof) (hts : ∀ t ∈ ts, t.kind ≠ .eof ∧ t.kind ≠ .illegal)
    (hdigits : ∀ t ∈ ts, t.kind = .int → t.text.length ≤ limits.digits)
    (hnesting : ts.length + 2 < limits.nesting) :
    ∃ tree t, program limits (initial (ts ++ [last]) last) = .ok tree t ∧
      (t.findings = [] ↔ ∃ nodes, Clause .body ts nodes) ∧
      ∀ nodes, Clause .body ts nodes → tree = .program nodes := by
  obtain ⟨nodes, t, hrun, hsound⟩ := program_sound hlast hts hdigits hnesting
  have hcomplete : ∀ nodes', Clause .body ts nodes' → nodes' = nodes ∧ t.findings = [] := by
    intro nodes' h
    have hlevels : ClauseKind.body.levels ts ≤ limits.nesting := by
      show ts.length + 1 ≤ _
      omega
    have := program_run hlast (fun t ht => (hts t ht).1) hdigits h.within hlevels
    rw [hrun] at this
    cases this
    exact ⟨rfl, rfl⟩
  refine ⟨.program nodes, t, hrun, ⟨fun hf => ⟨nodes, hsound hf⟩, ?_⟩, fun nodes' h => ?_⟩
  · rintro ⟨nodes', h⟩
    exact (hcomplete nodes' h).2
  · rw [(hcomplete nodes' h).1]

/-- `if x { return 1 }` -/
theorem program_accepts_iff_branch :
    ∃ tree t, program Limits.standard
        (initial ([{ kind := .kwIf, text := "if" }, { kind := .ident, text := "x" },
          { kind := .lbrace, text := "\x7b" }, { kind := .kwReturn, text := "return" },
          { kind := .int, text := "1" }, { kind := .rbrace, text := "\x7d" }] ++
          [{ kind := .eof, text := "" }]) { kind := .eof, text := "" }) = .ok tree t ∧
      (t.findings = [] ↔ ∃ nodes, Clause .body
        [{ kind := .kwIf, text := "if" }, { kind := .ident, text := "x" },
          { kind := .lbrace, text := "\x7b" }, { kind := .kwReturn, text := "return" },
          { kind := .int, text := "1" }, { kind := .rbrace, text := "\x7d" }] nodes) ∧
      ∀ nodes, Clause .body
        [{ kind := .kwIf, text := "if" }, { kind := .ident, text := "x" },
          { kind := .lbrace, text := "\x7b" }, { kind := .kwReturn, text := "return" },
          { kind := .int, text := "1" }, { kind := .rbrace, text := "\x7d" }] nodes →
        tree = .program nodes :=
  program_accepts_iff Limits.standard _ _ rfl (by decide) (by decide) (by decide)

end Parse

end LimLang
