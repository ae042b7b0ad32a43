import LimLang.Proofs.Acceptance
import LimLang.Proofs.BeforeSeam
import LimLang.Proofs.JoinedText
import LimLang.Proofs.ParsedTrees
import LimLang.Proofs.ReportOrder

/-! # Parsing joined texts

A text that nothing is wrong with is parsed in front of another one, on lines of its own, as if each
stood alone: its statements come first, then those of the other, and anything that is reported is
about the other, however malformed it is (`Source.parse_join`).

The two texts meet at a seam.  If every statement before it ends before it (`Parse.EndBefore`), the
parser does the same on the first text alone and on the two, and once it steps over the end of the
first text it stands where it starts on the second, with no group open
(`Cursor.advance_joined_of_nil`); the rest is the number of steps, which is no limit
(`statements_bound`).  Where nothing may be found wrong (`Seam.faultless`) statements do end before
the seam, since each ends with a token of its own.
-/
namespace LimLang

open Cursor (isNewline)

/-- A list that is terminated has its only `eof` at the end. -/
theorem Terminated.exists_last {ts : List Token} (h : Terminated ts) :
    ∃ us last, ts = us ++ [last] ∧ last.kind = .eof ∧ ∀ t ∈ us, t.kind ≠ .eof := by
  induction ts with
  | nil => exact absurd h id
  | cons t ts ih =>
    by_cases ht : t.kind = .eof
    · exact ⟨[], t, by rw [h.tail_eq_nil ht, List.nil_append], ht, by simp⟩
    · obtain ⟨us, last, rfl, hlast, hus⟩ := ih (h.tail ht)
      exact ⟨t :: us, last, rfl, hlast, List.forall_mem_cons.2 ⟨ht, hus⟩⟩

/-- What was found before is no worse than what was found later. -/
theorem Seam.clean_of_prefix (j : Seam) {before after : List Finding} (h : before <+: after)
    (hclean : j.Clean after) : j.Clean before := by
  obtain ⟨more, rfl⟩ := h
  induction more using List.reverseRecOn with
  | nil => rwa [List.append_nil] at hclean
  | append_singleton more finding ih =>
    rw [← List.append_assoc] at hclean
    exact ih (j.clean_of_append _ _ hclean)

/-- The seam behind tokens in which nothing is found wrong. -/
def Seam.faultless (last newline : Token) (more : List Token) (hlast : last.kind = .eof)
    (hnewline : newline.kind = .endOfLine) : Seam where
  last := last
  newline := newline
  more := more
  Clean findings := findings = []
  last_kind := hlast
  newline_kind := hnewline
  clean_of_append _ _ h := by simp at h
  ne_eof_of_clean _ _ h := by simp at h

namespace Cursor

variable {j : Seam} {c : Cursor}

/-- Which token was current before the first is all the same. -/
theorem ofTokens_eq {tokens : List Token} (h : Terminated tokens) (last : Token) (hg : c.groups = 0)
    (hc : c.ahead.dropWhile isNewline = tokens.dropWhile isNewline) :
    c.advance = ofTokens tokens last := by
  obtain ⟨-, t, ts, -, -, -, hd⟩ := h.exists_ahead
  rw [ofTokens, advance_of_ahead (hc.trans hd), advance_of_ahead hd, hg]

/-- **At the seam** the list alone is at its end where the other list begins. -/
theorem advance_joined_of_nil (h : c.Before j) (hg : c.groups = 0) (hend : c.advance.ahead = [])
    (hmore : Terminated j.more) (last : Token) : (c.joined j).advance = ofTokens j.more last := by
  obtain ⟨rest, ha, -⟩ := h
  refine ofTokens_eq hmore last hg ?_
  cases hd : c.ahead.dropWhile isNewline with
  | nil =>
    rw [advance_of_nil hd, ha] at hend
    simp at hend
  | cons t ts =>
    -- Only newlines stand in front of the end.
    rw [advance_of_ahead hd, hg] at hend
    obtain ⟨gap, hgap, hahead, -⟩ := exists_gap hd
    rw [show ts = [] from hend, ha] at hahead
    obtain rfl := (List.append_inj' hahead rfl).1
    rw [joined_of_ahead ha, hgap.dropWhile_append,
      List.dropWhile_cons_of_pos (isNewline_iff.2 j.newline_kind)]

/-- Outside of groups, what has the end ahead is before the seam as long as anything is ahead. -/
theorem Before.of_suffix {d : Cursor} (h : c.Before j) (hs : d.ahead <:+ c.ahead)
    (hne : d.ahead ≠ []) (hg : d.groups = 0) : d.Before j := by
  obtain ⟨rest, ha, -⟩ := h
  obtain ⟨read, hread⟩ := hs
  rcases List.eq_nil_or_concat d.ahead with hnil | ⟨us, t, hus⟩
  · exact absurd hnil hne
  · rw [List.concat_eq_append] at hus
    rw [ha, hus, ← List.append_assoc] at hread
    obtain rfl := List.singleton_inj.1 (List.append_inj' hread rfl).2
    exact ⟨us, hus, fun h => absurd hg h⟩

/-- What comes later outside of groups is before the seam as long as it is not at the end. -/
theorem Before.of_later {s u : ParseState} (h : s.toCursor.Before j) (hs : s.toCursor.Ready)
    (hl : s.Later u) (hne : u.current.kind ≠ .eof) (hg : u.groups = 0) : u.toCursor.Before j := by
  obtain ⟨rest, ha, -⟩ := h
  obtain ⟨us, t, hus, ht, -⟩ := (hl.ready.terminated_ahead hne).exists_last
  obtain ⟨init, last, hview, -, hinit⟩ := Terminated.exists_last hs.terminated
  rw [view, ha, ← List.cons_append] at hview
  obtain ⟨rfl, hlast⟩ := List.append_inj' hview rfl
  have hmem : t ∈ s.view := hl.sublist.subset (by simp [view, hus])
  rw [view, ha, ← List.cons_append, List.mem_append, List.mem_singleton] at hmem
  obtain rfl := hmem.resolve_left fun h => hinit t h ht
  exact ⟨us, hus, fun h => absurd hg h⟩

theorem advance_suffix (hg : c.groups = 0) : c.advance.ahead <:+ c.ahead := by
  cases hd : c.ahead.dropWhile isNewline with
  | nil => exact ⟨[], by rw [advance_of_nil hd, List.nil_append]⟩
  | cons t ts =>
    rw [advance_of_ahead hd, hg]
    exact (List.suffix_cons t ts).trans (hd ▸ List.dropWhile_suffix isNewline)

end Cursor

namespace Parse

variable {maxDigits depth : Nat} {j : Seam} {base s : ParseState} {closes : Kind → Bool}

/-! ## Malformed statements -/

/-- **A statement is left behind in the same way on both sides**, if malformed ones are skipped in
the same way. -/
theorem recovering_steady (hst : Steady j base 0 (statement maxDigits depth))
    (hskip : ∀ ⦃s t : ParseState⦄, base.Later s → s.groups = 0 →
      statement maxDigits depth s = .error .malformed t → j.Clean t.findings →
      (Cursor.synchronize { t.toCursor with groups := s.groups }).Before j →
        t.toCursor.Before j ∧ Cursor.synchronize { t.toCursor.joined j with groups := s.groups } =
          (Cursor.synchronize { t.toCursor with groups := s.groups }).joined j) :
    Steady j base 0 (recovering (statement maxDigits depth)) := by
  intro s bound hs
  have hready := hs.later.ready
  have hafter : ∀ a t, recovering (statement maxDigits depth) s = .ok a t → At base 0 bound t := by
    intro a t hrun
    obtain ⟨hl, hg, -⟩ := (Outcome.iff_of_ok hrun).1
      (recovering_reads (statement_reads maxDigits depth) hready hs.groups_eq)
    have hle := hl.length_le
    simp only [Cursor.view, List.length_cons] at hle
    exact ⟨hs.later.trans hl, hg.trans hs.groups_eq, by have := hs.length_le; omega⟩
  have hbefore := (hst hs).before
  have hsame := (hst hs).same
  cases hrun : statement maxDigits depth s with
  | ok node t =>
    rw [hrun] at hbefore hsame
    refine ⟨?_, fun hend => ?_, hafter⟩
    · simpa only [recovering, hrun, finalState] using hbefore
    · simp only [recovering, hrun, finalState] at hend ⊢
      simp only [hsame hend, Seam.carry]
  | error halt t =>
    rw [hrun] at hbefore hsame
    cases halt with
    | crash crash =>
      refine ⟨?_, fun hend => ?_, hafter⟩
      · simpa only [recovering, hrun, finalState] using hbefore
      · simp only [recovering, hrun, finalState] at hend ⊢
        simp only [hsame hend, Seam.carry]
    | malformed =>
      refine ⟨fun hend => ?_, fun hend => ?_, hafter⟩
      · simp only [recovering, hrun, finalState] at hend
        exact hbefore ⟨hend.clean, (hskip hs.later hs.groups_eq hrun hend.clean hend.cursor).1⟩
      · simp only [recovering, hrun, finalState] at hend ⊢
        obtain ⟨hcursor, hsync⟩ := hskip hs.later hs.groups_eq hrun hend.clean hend.cursor
        simp only [hsame ⟨hend.clean, hcursor⟩, Seam.carry]
        exact congrArg (fun c => EStateM.Result.ok none (ParseState.mk c t.findings)) hsync

/-- Where nothing is found wrong, no statement is skipped. -/
theorem recovering_beside (hclean : ∀ findings, j.Clean findings → findings = [])
    (hlegal : ∀ t ∈ base.view, t.kind ≠ .illegal) (maxDigits depth : Nat)
    (hst : Steady j base 0 (statement maxDigits depth)) :
    Steady j base 0 (recovering (statement maxDigits depth)) := by
  refine recovering_steady hst fun s t hl hg hrun hfound _ => ?_
  have hhalts := statement_reads maxDigits depth s hl.ready hg
  unfold Outcome at hhalts
  rw [hrun] at hhalts
  obtain ⟨hlt, hdisturbed⟩ := hhalts
  refine absurd ⟨?_, fun token htoken => hlegal token (hl.sublist.subset htoken)⟩ hdisturbed
  have hprefix := hlt.findings
  rw [hclean _ hfound] at hprefix ⊢
  exact (List.prefix_nil.1 hprefix).symm

/-! ## Lists of statements -/

/-- Statements put in front of those that come of what follows. -/
def prepend (nodes : List Node) :
    EStateM.Result Crash ParseState (List Node) → EStateM.Result Crash ParseState (List Node)
  | .ok more s => .ok (nodes ++ more) s
  | .error crash s => .error crash s

theorem prepend_prepend (nodes more : List Node)
    (r : EStateM.Result Crash ParseState (List Node)) :
    prepend nodes (prepend more r) = prepend (nodes ++ more) r := by
  cases r with
  | ok rest s => simp only [prepend, List.append_assoc]
  | error crash s => rfl

theorem statements_of_closes {statement : Parse (Option Node)}
    (hc : closes s.current.kind = true) (bound : Nat) :
    statements closes statement bound s = .ok [] s := by
  cases bound with
  | zero => rfl
  | succ bound =>
    show (if closes s.current.kind = true then _ else _ : Parser Crash (List Node)) s = _
    rw [if_pos hc]
    rfl

/-- One statement, and then the others: the loop stops where a malformed statement was skipped up to
what closes the list, and else goes on. -/
theorem statements_succ {statement : Parse (Option Node)} (hc : closes s.current.kind = false)
    (bound : Nat) :
    statements closes statement (bound + 1) s =
      match recovering statement s with
      | .error crash t => .error crash t
      | .ok result t =>
          if result = none ∧ closes t.current.kind = true then .ok [] t
          else prepend result.toList
            (statements closes statement bound ⟨t.toCursor.advance, t.findings⟩) := by
  show (if closes s.current.kind = true then _ else _ : Parser Crash (List Node)) s = _
  rw [if_neg (by simp [hc])]
  cases hr : recovering statement s with
  | error crash t => exact bind_of_error hr _
  | ok result t =>
    rw [bind_of_ok hr]
    cases result with
    | some node =>
      show EStateM.bind (statements closes statement bound) _ ⟨t.toCursor.advance, t.findings⟩ = _
      unfold EStateM.bind
      simp only [reduceCtorEq, false_and, if_false]
      cases statements closes statement bound ⟨t.toCursor.advance, t.findings⟩ <;> rfl
    | none =>
      show (if closes t.current.kind = true then _ else _ : Parser Crash (List Node)) t = _
      simp only [true_and]
      split
      · rfl
      · show statements closes statement bound ⟨t.toCursor.advance, t.findings⟩ = _
        cases statements closes statement bound ⟨t.toCursor.advance, t.findings⟩ <;> rfl

/-- **The bound of a list of statements is no limit**, if there are as many steps as tokens. -/
theorem statements_bound {statement : Parse (Option Node)} (hce : closes .eof = true)
    (hst : ReadsStatements maxDigits depth statement) {n m : Nat} (hs : s.toCursor.Ready)
    (hg : s.groups = 0) (hn : s.ahead.length < n) (hm : s.ahead.length < m) :
    statements closes statement n s = statements closes statement m s := by
  induction n generalizing s m with
  | zero => omega
  | succ n ih =>
    obtain ⟨m, rfl⟩ : ∃ k, m = k + 1 := ⟨m - 1, by omega⟩
    cases hc : closes s.current.kind with
    | true => rw [statements_of_closes hc, statements_of_closes hc]
    | false =>
      have hne : s.current.kind ≠ .eof := by
        intro h
        rw [h, hce] at hc
        cases hc
      rw [statements_succ hc, statements_succ hc]
      cases hr : recovering statement s with
      | error crash t => rfl
      | ok result t =>
        obtain ⟨hl, hgt, -⟩ := (Outcome.iff_of_ok hr).1 (recovering_reads hst hs hg)
        have hlt := hl.length_advance_lt hs hne
        have hnext := @ih ⟨t.toCursor.advance, t.findings⟩ m hl.advance.ready
          ((Cursor.advance_groups _).trans (hgt.trans hg)) (Nat.lt_of_lt_of_le hlt (by omega))
          (Nat.lt_of_lt_of_le hlt (by omega))
        simp only [hnext]

/-! ## Programs -/

variable {limits : Limits}

/-- The statements from a state to the end of the list. -/
def toEnd (limits : Limits) (s : ParseState) : EStateM.Result Crash ParseState (List Node) :=
  statements Kind.closesProgram (statement limits.digits limits.nesting) (s.ahead.length + 2) s

theorem closesProgram_eq_false {kind : Kind} (h : kind ≠ .eof) : kind.closesProgram = false := by
  cases kind <;> first | rfl | exact absurd rfl h

theorem toEnd_of_eof (h : s.current.kind = .eof) : toEnd limits s = .ok [] s :=
  statements_of_closes (by rw [h]; rfl) _

theorem toEnd_eq (hs : s.toCursor.Ready) (hg : s.groups = 0) (hne : s.current.kind ≠ .eof) :
    toEnd limits s =
      match recovering (statement limits.digits limits.nesting) s with
      | .error crash t => .error crash t
      | .ok result t =>
          if result = none ∧ t.current.kind = .eof then .ok [] t
          else prepend result.toList (toEnd limits ⟨t.toCursor.advance, t.findings⟩) := by
  have hreads := statement_reads limits.digits limits.nesting
  unfold toEnd
  rw [statements_succ (closesProgram_eq_false hne)]
  cases hr : recovering (statement limits.digits limits.nesting) s with
  | error crash t => rfl
  | ok result t =>
    obtain ⟨hl, hgt, -⟩ := (Outcome.iff_of_ok hr).1 (recovering_reads hreads hs hg)
    have hlt := hl.length_advance_lt hs hne
    have hclose : t.current.kind.closesProgram = true ↔ t.current.kind = .eof := by
      cases t.current.kind <;> simp [Kind.closesProgram]
    simp only [hclose]
    rw [statements_bound rfl hreads (s := ⟨t.toCursor.advance, t.findings⟩) hl.advance.ready
      ((Cursor.advance_groups _).trans (hgt.trans hg)) (Nat.lt_succ_of_lt hlt)
      (Nat.lt_add_of_pos_right Nat.two_pos)]

/-- What is found wrong stays recorded. -/
theorem findings_toEnd {nodes : List Node} {t : ParseState} (hs : s.toCursor.Ready)
    (hg : s.groups = 0) (hrun : toEnd limits s = .ok nodes t) : s.findings <+: t.findings := by
  have hreads := statement_reads limits.digits limits.nesting
  have hall := (Outcome.iff_of_ok hrun).1
    (statements_reads rfl rfl hreads _ hs hg (Nat.lt_add_of_pos_right Nat.two_pos))
  exact hall.1.findings

/-- The first statement of a list that is read to its end. -/
theorem exists_of_toEnd {nodes : List Node} {t : ParseState} (hs : s.toCursor.Ready)
    (hg : s.groups = 0) (hne : s.current.kind ≠ .eof) (hrun : toEnd limits s = .ok nodes t) :
    ∃ result u, recovering (statement limits.digits limits.nesting) s = .ok result u ∧
      u.findings <+: t.findings ∧
      (u.current.kind = .eof ∨
        ∃ more, toEnd limits ⟨u.toCursor.advance, u.findings⟩ = .ok more t ∧
          nodes = result.toList ++ more) := by
  have hreads := statement_reads limits.digits limits.nesting
  rw [toEnd_eq hs hg hne] at hrun
  cases hr : recovering (statement limits.digits limits.nesting) s with
  | error crash u =>
    rw [hr] at hrun
    cases hrun
  | ok result u =>
    simp only [hr] at hrun
    refine ⟨result, u, rfl, ?_⟩
    split at hrun
    · next hstop =>
      obtain rfl : u = t := by injection hrun
      exact ⟨List.prefix_refl _, .inl hstop.2⟩
    · cases hmore : toEnd limits ⟨u.toCursor.advance, u.findings⟩ with
      | error crash v =>
        rw [hmore] at hrun
        cases hrun
      | ok more v =>
        rw [hmore] at hrun
        obtain ⟨rfl, rfl⟩ : result.toList ++ more = nodes ∧ v = t := by
          injection hrun with h h'
          exact ⟨h, h'⟩
        obtain ⟨hl, hgu, -⟩ := (Outcome.iff_of_ok hr).1 (recovering_reads hreads hs hg)
        have hkept := findings_toEnd hl.advance.ready
          ((Cursor.advance_groups _).trans (hgu.trans hg)) hmore
        exact ⟨hkept, .inr ⟨more, rfl, rfl⟩⟩

theorem program_eq (limits : Limits) (s : ParseState) :
    program limits s =
      match toEnd limits s with
      | .ok nodes t => .ok (.program nodes) t
      | .error crash t => .error crash t := by
  show EStateM.bind (statements _ _ _) _ s = _
  unfold EStateM.bind toEnd
  cases statements Kind.closesProgram (statement limits.digits limits.nesting)
    (s.ahead.length + 2) s <;> rfl

/-- **Every statement ends before the seam**, if it starts there and nothing is found wrong at the
end, and is the same if the list goes on. -/
def EndBefore (j : Seam) (base : ParseState) (maxDigits depth : Nat) : Prop :=
  ∀ ⦃s u : ParseState⦄ ⦃result : Option Node⦄, base.Later s → s.groups = 0 → s.toCursor.Before j →
    recovering (statement maxDigits depth) s = .ok result u → j.Clean u.findings →
      u.toCursor.Before j ∧ u.groups = 0 ∧ s.Later u ∧ u.current.kind ≠ .eof ∧
        recovering (statement maxDigits depth) (s.joined j) = .ok result (u.joined j)

/-- A statement that does not end at the end ends before the seam. -/
theorem endBefore_of_steady (hst : Steady j base 0 (recovering (statement maxDigits depth)))
    (hne : ∀ ⦃s u : ParseState⦄ ⦃result : Option Node⦄, base.Later s → s.groups = 0 →
      s.current.kind ≠ .eof → recovering (statement maxDigits depth) s = .ok result u →
        j.Clean u.findings → u.current.kind ≠ .eof) :
    EndBefore j base maxDigits depth := by
  intro s u result hl hg hb hr hclean
  obtain ⟨hlu, hgu, -⟩ := (Outcome.iff_of_ok hr).1
    (recovering_reads (statement_reads maxDigits depth) hl.ready hg)
  have hstart : s.current.kind ≠ .eof := fun h => hb.not_nil (hl.ready.ahead_eq_nil h)
  have hend := hne hl hg hstart hr hclean
  have hbu : u.toCursor.Before j := hb.of_later hl.ready hlu hend (hgu.trans hg)
  have hsame := (hst ⟨hl, hg, Nat.le_refl _⟩).same
  rw [hr] at hsame
  exact ⟨hbu, hgu.trans hg, hlu, hend, hsame ⟨hclean, hbu⟩⟩

/-- Where nothing is found wrong, every statement ends before the seam. -/
theorem endBefore_of_faultless (hclean : ∀ findings, j.Clean findings → findings = [])
    (hlegal : ∀ t ∈ base.view, t.kind ≠ .illegal) (maxDigits depth : Nat) :
    EndBefore j base maxDigits depth := by
  have hrec := recovering_beside hclean hlegal
  refine endBefore_of_steady (hrec _ _ (statement_beside hrec _ _)) ?_
  intro s u result hl hg _ hr hu
  obtain ⟨hlu, -, hread⟩ := (Outcome.iff_of_ok hr).1
    (recovering_reads (statement_reads maxDigits depth) hl.ready hg)
  have hundisturbed : s.Undisturbed u := by
    have hprefix := hlu.findings
    rw [hclean _ hu] at hprefix
    exact ⟨(hclean _ hu).trans (List.prefix_nil.1 hprefix).symm,
      fun token htoken => hlegal token (hl.sublist.subset htoken)⟩
  obtain ⟨read, hmoves, hended⟩ := hread hundisturbed
  have hlast := hended.getLast_isBoundary s.current
  rw [List.getLastD_cons, ← hmoves.current_eq] at hlast
  exact Kind.ne_of_isBoundary hlast rfl

/-- **The statements up to the seam, and those behind it.**  The list alone is read to its end; if
it goes on, so does the parser, with what was found wrong so far. -/
theorem toEnd_join (hends : EndBefore j base limits.digits limits.nesting)
    (hmore : Terminated j.more) (last : Token) {c : Cursor} {findings : List Finding}
    {nodes : List Node} {t : ParseState} (hc : c.Before j) (hg : c.groups = 0)
    (hl : base.Later ⟨c.advance, findings⟩) (hl' : (c.joined j).advance.Ready)
    (hrun : toEnd limits ⟨c.advance, findings⟩ = .ok nodes t) (ht : j.Clean t.findings) :
    toEnd limits ⟨(c.joined j).advance, findings⟩ =
      prepend nodes (toEnd limits ⟨Cursor.ofTokens j.more last, t.findings⟩) := by
  induction hn : c.advance.ahead.length using Nat.strong_induction_on
    generalizing c findings nodes with
  | _ n ih =>
    have hsg : c.advance.groups = 0 := (Cursor.advance_groups c).trans hg
    by_cases hend : c.advance.ahead = []
    · -- The list alone is at its end, and the other begins.
      rw [toEnd_of_eof (s := ⟨c.advance, findings⟩) (hl.ready.current_eq_eof hend)] at hrun
      obtain ⟨rfl, rfl⟩ : [] = nodes ∧ ⟨c.advance, findings⟩ = t := by
        injection hrun with h h'
        exact ⟨h, h'⟩
      rw [Cursor.advance_joined_of_nil hc hg hend hmore last]
      cases toEnd limits ⟨Cursor.ofTokens j.more last, findings⟩ <;> rfl
    · have hb : c.advance.Before j := hc.of_suffix (Cursor.advance_suffix hg) hend hsg
      have hne : c.advance.current.kind ≠ .eof := fun h => hend (hl.ready.ahead_eq_nil h)
      have hreads := statement_reads limits.digits limits.nesting
      obtain ⟨result, ⟨d, found⟩, hr, hfound, hgo⟩ := exists_of_toEnd hl.ready hsg hne hrun
      obtain ⟨hbd, hgd, hld, hned, hjoined⟩ := hends hl hsg hb hr (j.clean_of_prefix hfound ht)
      obtain ⟨more, hrest, rfl⟩ := hgo.resolve_left hned
      have hlt : d.advance.ahead.length < c.advance.ahead.length :=
        hld.length_advance_lt hl.ready hne
      rw [(Cursor.exists_of_advance hb).2] at hl' ⊢
      obtain ⟨hld', -, -⟩ := (Outcome.iff_of_ok hjoined).1 (recovering_reads hreads hl' hsg)
      have hnext := ih _ (hn ▸ hlt) hbd hgd (hl.trans hld).advance hld'.advance.ready hrest rfl
      have hfirst : toEnd limits ((⟨c.advance, findings⟩ : ParseState).joined j) =
          prepend result.toList (toEnd limits ⟨(d.joined j).advance, found⟩) := by
        rw [toEnd_eq hl' hsg hne, hjoined]
        exact if_neg fun h => hned h.2
      rw [hnext, prepend_prepend] at hfirst
      exact hfirst

/-- **A program in front of another.**  If its statements end before the seam, they come first, and
everything else is as if the parser started there, with what was found wrong so far. -/
theorem program_seam {ts us : List Token} {stop : Token} {tree : Node} {t : ParseState}
    (hts : ∀ t ∈ ts, t.kind ≠ .eof) (hmore : j.more = us ++ [stop]) (hstop : stop.kind = .eof)
    (hus : ∀ t ∈ us, t.kind ≠ .eof)
    (hends : EndBefore j (initial (ts ++ [j.last]) j.last) limits.digits limits.nesting)
    (hrun : program limits (initial (ts ++ [j.last]) j.last) = .ok tree t)
    (ht : j.Clean t.findings) :
    program limits (initial (ts ++ j.newline :: j.more) stop) =
      match program limits ⟨Cursor.ofTokens j.more stop, t.findings⟩ with
      | .ok more u => .ok (.program (tree.statements ++ more.statements)) u
      | .error crash u => .error crash u := by
  let c : Cursor := { current := stop, ahead := ts ++ [j.last], groups := 0 }
  have hc : c.Before j := ⟨ts, rfl, fun h => absurd rfl h⟩
  have hfirst : initial (ts ++ [j.last]) j.last = ⟨c.advance, []⟩ := by
    rw [Cursor.ofTokens_eq (c := c) (terminated_append j.last_kind hts) j.last rfl rfl]
    rfl
  have hjoined : initial (ts ++ j.newline :: j.more) stop = ⟨(c.joined j).advance, []⟩ := by
    rw [Cursor.joined_of_ahead (c := c) (j := j) rfl]
    rfl
  have hready := ready_initial j.last_kind hts
  have hopen : ∀ t ∈ ts ++ j.newline :: us, t.kind ≠ .eof := by
    simp only [List.forall_mem_append, List.forall_mem_cons]
    exact ⟨hts, by rw [j.newline_kind]; decide, hus⟩
  have hwhole := ready_initial hstop hopen
  rw [List.append_assoc, List.cons_append, ← hmore, hjoined] at hwhole
  rw [hfirst] at hready hends hrun
  rw [program_eq] at hrun
  cases hs : toEnd limits ⟨c.advance, []⟩ with
  | error crash u =>
    rw [hs] at hrun
    cases hrun
  | ok nodes u =>
    rw [hs] at hrun
    obtain ⟨rfl, rfl⟩ : Node.program nodes = tree ∧ u = t := by
      injection hrun with h h'
      exact ⟨h, h'⟩
    have hterminated : Terminated j.more := hmore ▸ terminated_append hstop hus
    have hjoin := toEnd_join hends hterminated stop hc rfl (.refl hready) hwhole hs ht
    rw [program_eq, program_eq, hjoined, hjoin]
    cases toEnd limits ⟨Cursor.ofTokens j.more stop, u.findings⟩ <;> rfl

/-- If nothing is found wrong with the first program, everything else is as if the second stood
alone. -/
theorem program_join {ts us : List Token} {last newline stop : Token} {tree : Node} {t : ParseState}
    (hlast : last.kind = .eof) (hts : ∀ t ∈ ts, t.kind ≠ .eof ∧ t.kind ≠ .illegal)
    (hnewline : newline.kind = .endOfLine) (hstop : stop.kind = .eof)
    (hus : ∀ t ∈ us, t.kind ≠ .eof)
    (hrun : program limits (initial (ts ++ [last]) last) = .ok tree t) (ht : t.findings = []) :
    program limits (initial (ts ++ newline :: (us ++ [stop])) stop) =
      match program limits (initial (us ++ [stop]) stop) with
      | .ok more u => .ok (.program (tree.statements ++ more.statements)) u
      | .error crash u => .error crash u := by
  have hne : ∀ t ∈ ts, t.kind ≠ .eof := fun t h => (hts t h).1
  have hlegal : ∀ t ∈ (initial (ts ++ [last]) last).view, t.kind ≠ .illegal := by
    rw [view_initial hlast hne]
    intro t h
    rcases List.mem_append.1 ((List.dropWhile_sublist isNewline).subset h) with h | h
    · exact (hts t h).2
    · rw [List.mem_singleton.1 h, hlast]
      decide
  let j := Seam.faultless last newline (us ++ [stop]) hlast hnewline
  have hends : EndBefore j (initial (ts ++ [last]) last) limits.digits limits.nesting :=
    endBefore_of_faultless (fun _ h => h) hlegal _ _
  have hjoin := program_seam (j := j) hne rfl hstop hus hends hrun ht
  rwa [ht] at hjoin

end Parse

/-! ## Texts -/

namespace Source

variable {s : Source} {limits : Limits}

/-- The only token that ends a text is the last. -/
theorem eq_endToken {t : Token} (ht : t ∈ s.tokens) (hk : t.kind = .eof) : t = s.endToken := by
  rcases List.mem_append.1 ht with ht | ht
  · exact absurd hk (kind_of_mem_words ht).1
  · exact List.mem_singleton.1 ht

theorem ready_initial (s : Source) : (Parse.initial s.tokens s.endToken).toCursor.Ready :=
  Parse.ready_initial rfl fun _ ht => (kind_of_mem_words ht).1

/-- What the parser has in view at first are tokens of the text. -/
theorem view_initial_sublist (s : Source) :
    (Parse.initial s.tokens s.endToken).view.Sublist s.tokens := by
  have hwords : ∀ t ∈ s.words, t.kind ≠ .eof := fun t ht => (kind_of_mem_words ht).1
  rw [show s.tokens = s.words ++ [s.endToken] from rfl, Parse.view_initial rfl hwords]
  exact List.dropWhile_sublist _

/-- Nothing is wrong with a text if nothing is reported. -/
theorem of_errors_eq_nil {first : Parsed} (h : s.parse limits = .ok first)
    (herrors : first.errors = []) :
    s.lexicalErrors = [] ∧ s.warnings = first.warnings ∧
      ∃ t, Parse.program limits (Parse.initial s.tokens s.endToken) = .ok first.program t ∧
        t.findings = [] := by
  obtain ⟨t, hrun, hreport, hwarn⟩ := exists_run_of_parse h
  have hnone := hreport.symm.trans herrors
  rw [Diagnostic.inOrder_eq_nil_iff, List.append_eq_nil_iff, List.map_eq_nil_iff] at hnone
  exact ⟨hnone.1, hwarn.symm, t, hrun, hnone.2⟩

/-- What is parsed of a text in which no error is found. -/
theorem parse_of_run {tree : Node} {u : ParseState} (he : s.lexicalErrors = [])
    (hrun : Parse.program limits (Parse.initial s.tokens s.endToken) = .ok tree u)
    (hu : u.findings = []) :
    s.parse limits = .ok { program := tree, errors := [], warnings := s.warnings } := by
  unfold parse
  simp only [hrun, he, hu, List.map_nil, List.append_nil, Diagnostic.inOrder, List.mergeSort_nil]

/-- What is parsed of a text that nothing is wrong with. -/
theorem parse_faultless {tree : Node} {u : ParseState} (he : s.lexicalErrors = [])
    (hw : s.warnings = [])
    (hrun : Parse.program limits (Parse.initial s.tokens s.endToken) = .ok tree u)
    (hu : u.findings = []) :
    s.parse limits = .ok { program := tree, errors := [], warnings := [] } := by
  rw [parse_of_run he hrun hu, hw]

/-- Something is found wrong only at tokens that the parser was given. -/
theorem forall_findings {P : Token → Prop} {ts : List Token} {last : Token} {tree : Node}
    {t : ParseState} (hrun : Parse.program limits (Parse.initial ts last) = .ok tree t)
    (hts : ∀ u ∈ ts, P u) (hlast : P last) : ∀ f ∈ t.findings, P f.token := by
  have hbuilds := Parse.program_builds (Vocabulary.anything_has _) limits
    (Parse.holds_initial hts hlast)
  unfold Parse.Builds at hbuilds
  exact ((Outcome.iff_of_ok hrun).1 hbuilds).2.findings

/-- Something is found wrong with a text only at its tokens. -/
theorem mem_tokens_of_program {tree : Node} {t : ParseState}
    (hrun : Parse.program limits (Parse.initial s.tokens s.endToken) = .ok tree t) :
    ∀ f ∈ t.findings, f.token ∈ s.tokens :=
  forall_findings hrun (fun _ ht => ht) (by simp [tokens])

theorem firstLine_le_of_program {tree : Node} {t : ParseState}
    (hrun : Parse.program limits (Parse.initial s.tokens s.endToken) = .ok tree t) :
    ∀ f ∈ t.findings, s.firstLine ≤ f.token.line :=
  fun f hf => firstLine_le_of_mem_tokens (mem_tokens_of_program hrun f hf)

theorem program_join {tree : Node} {t : ParseState} (text : List Char)
    (hlexical : s.lexicalErrors = []) (hwarnings : s.warnings = [])
    (hrun : Parse.program limits (Parse.initial s.tokens s.endToken) = .ok tree t)
    (ht : t.findings = []) :
    Parse.program limits (Parse.initial (s.join text).tokens (s.join text).endToken) =
      match
        Parse.program limits (Parse.initial (s.behind text).tokens (s.behind text).endToken) with
      | .ok more u => .ok (.program (tree.statements ++ more.statements)) u
      | .error crash u => .error crash u := by
  rw [tokens_join text (isClosed_of_errors hlexical hwarnings), endToken_join]
  have hwords : ∀ t ∈ s.words, t.kind ≠ .eof ∧ t.kind ≠ .illegal := fun t h =>
    ⟨(kind_of_mem_words h).1, (kind_of_mem_words h).2 hlexical⟩
  have hmore : ∀ t ∈ (s.behind text).words, t.kind ≠ .eof := fun t h => (kind_of_mem_words h).1
  exact Parse.program_join rfl hwords rfl rfl hmore hrun ht

/-- **Joined texts are parsed one after the other.**  If nothing is wrong with the first, the
statements are its statements and those of the second, and all that is reported is what is reported
of the second, whose lines are numbered on. -/
theorem parse_join (text more : List Char) (n : Int) (limits : Limits) (first : Parsed)
    (hfirst : parse { text := text, firstLine := n } limits = .ok first)
    (herrors : first.errors = []) (hwarnings : first.warnings = []) :
    parse { text := text ++ '\n' :: more, firstLine := n } limits =
      (parse { text := more, firstLine := n + text.count '\n' + 1 } limits).map fun second =>
        { second with
          program := .program (first.program.statements ++ second.program.statements) } := by
  let s : Source := { text := text, firstLine := n }
  obtain ⟨hlexical, hwarn, t, hrun, ht⟩ := of_errors_eq_nil hfirst herrors
  rw [hwarnings] at hwarn
  have hclosed : s.IsClosed := isClosed_of_errors hlexical hwarn
  have hprogram := program_join more hlexical hwarn hrun ht
  show parse (s.join more) limits = (parse (s.behind more) limits).map _
  unfold parse
  rw [hprogram]
  cases hsecond : Parse.program limits
      (Parse.initial (s.behind more).tokens (s.behind more).endToken) with
  | error crash u => rfl
  | ok tree u =>
    have hfindings : (u.findings.map fun f => f.diagnostic (s.join more)) =
        u.findings.map fun f => f.diagnostic (s.behind more) := by
      refine List.map_congr_left fun f hf => ?_
      rw [Finding.diagnostic, Finding.diagnostic,
        line_join s more (firstLine_le_of_program hsecond f hf)]
    have herror : (s.join more).lexicalErrors = (s.behind more).lexicalErrors := by
      rw [lexicalErrors_join more hclosed, hlexical, List.nil_append]
    have hwarning : (s.join more).warnings = (s.behind more).warnings := by
      rw [warnings_join more hclosed, hwarn, List.nil_append]
    simp only [Except.map, herror, hwarning, hfindings]

/-- `return` stands at the end of the first text, where a value could follow; the second text closes
a brace that was never opened. -/
theorem parse_join_return :
    ∃ first, parse { text := "return".toList, firstLine := 3 } Limits.standard = .ok first ∧
      parse { text := "return".toList ++ '\n' :: "\x7d x".toList, firstLine := 3 } Limits.standard =
        (parse { text := "\x7d x".toList, firstLine := 3 + "return".toList.count '\n' + 1 }
          Limits.standard).map fun second =>
            { second with
              program := .program (first.program.statements ++ second.program.statements) } := by
  let first : Parsed := {
    program := .program [.bareReturn { kind := .kwReturn, text := "return", line := 3 }]
    errors := Diagnostic.inOrder []
    warnings := [] }
  have hfirst : parse { text := "return".toList, firstLine := 3 } Limits.standard = .ok first := by
    rfl
  exact ⟨first, hfirst, parse_join _ _ _ _ first hfirst List.mergeSort_nil rfl⟩

end Source

end LimLang
