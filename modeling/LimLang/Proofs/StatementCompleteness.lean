import LimLang.Proofs.SimpleStatements

/-! # Every statement is read

The converse of what the parser of statements reads: where a statement of the grammar stands ahead,
followed by something that may follow it, the parser returns its tree, records nothing and stops
behind it.

The parser of statements looks one token ahead to tell another branch from the end of a chain.  What
follows a statement must not be taken for a part of it: a simple statement is followed by something that
ends it, and a chain of branches not by `else`.

It is told along with this how deep the parser has to go (`Clause.Within`).  A statement takes one level
more than the expressions in it, and so does a block more than its statements; the branches of a chain
stand side by side.
-/
namespace LimLang

open Cursor (isNewline)

namespace Parse

variable {maxDigits depth n m : Nat} {findings : List Finding} {c d : Cursor}

/-! ## The signatures of functions -/

theorem typeName_run {read : List Token} {type : String} (hc : c.Ready)
    (ht : TypePhrase (c.current :: read) type) (hm : c.Moves read d) (hb : d.peek.kind ≠ .lbrack) :
    typeName ⟨c, findings⟩ = .ok type ⟨d, findings⟩ := by
  rw [← Outcome.run_iff]
  unfold typeName
  simp only [Outcome.bind_iff, current_iff, peekIs_iff]
  generalize hts : c.current :: read = ts at ht
  cases ht with
  | basic _ =>
    obtain ⟨rfl, rfl⟩ := List.cons.inj hts
    rw [hm.eq] at hb ⊢
    simp [Token.is, hb]
  | @array _ opening closing _ ho hcl =>
    obtain ⟨rfl, rfl⟩ := List.cons.inj hts
    obtain ⟨-, hm₁⟩ := hc.advance_reads .nil (by rw [ho]; decide) hm
    obtain ⟨-, hm₂⟩ := hc.advance.advance_reads .nil (by rw [hcl]; decide) hm₁
    have hclose : expect .rbrack ⟨c.advance, findings⟩ =
        .ok c.advance.advance.current ⟨c.advance.advance, findings⟩ :=
      expect_run (by rw [hm₁.peek_eq]; exact hcl)
    simp only [Token.is, hm.peek_eq, ho, beq_self_eq_true, if_true, Outcome.bind_iff, advance_iff,
      Outcome.iff_of_ok hclose, Outcome.pure_iff, hm₂.eq, and_self]

/-- One parameter is read, from the parenthesis or comma in front of it. -/
theorem parameter_run {name : Token} {ts more : List Token} {type : String} (hc : c.Ready)
    (ht : TypePhrase ts type) (hn : name.kind = .ident) (hm : c.Moves (ts ++ name :: more) d)
    (findings : List Finding) :
    ∃ e f, e.Ready ∧ e.Moves more d ∧ e.ahead.length < c.ahead.length ∧
      c.advance.current.kind.isType ∧ typeName ⟨c.advance, findings⟩ = .ok type ⟨f, findings⟩ ∧
      ∀ what, expectNamed .ident what ⟨f, findings⟩ = .ok name ⟨e, findings⟩ := by
  obtain ⟨t, ts, rfl, htype⟩ := ht.exists_cons
  obtain ⟨hcur, hmt⟩ := hc.advance_reads .nil (Kind.ne_endOfLine_of_isType htype) hm
  rw [← hcur] at ht htype
  obtain ⟨f, hmf, hmore⟩ := hmt.split
  have hf := ht.ready hc.advance hmf
  have hpeek := hmore.peek_eq
  obtain ⟨hname, hme⟩ := hf.advance_reads .nil (by rw [hn]; decide) hmore
  refine ⟨f.advance, f, hf.advance, hme, ?_, htype, ?_, fun what => ?_⟩
  · have := hf.length_advance_of_moves hmore (by simp)
    have := hmf.length_le
    have := Cursor.length_ahead_advance_le c
    omega
  · exact typeName_run hc.advance ht hmf (by rw [hpeek, hn]; decide)
  · rw [← hname]
    exact expectNamed_run what (by rw [hpeek]; exact hn)

theorem laterParameters_run {read : List Token} {parameters : List Ident}
    (hp : ParameterPhrase read parameters) (bound : Nat) {c d : Cursor} (hc : c.Ready)
    (hm : c.Moves read d) (hk : d.peek.kind = .rparen) (hb : c.ahead.length < bound) :
    laterParameters bound ⟨c, findings⟩ = .ok parameters ⟨d, findings⟩ := by
  induction hp generalizing bound c with
  | @one name ts type ht hn =>
    obtain ⟨bound, rfl⟩ : ∃ b, bound = b + 1 := ⟨bound - 1, by omega⟩
    obtain ⟨e, f, he, hme, -, hfirst, htype, hname⟩ := parameter_run hc ht hn hm findings
    have hcomma : e.peek.kind ≠ .comma := by
      rw [← hme.eq, hk]
      decide
    rw [← Outcome.run_iff]
    unfold laterParameters
    simp only [Outcome.bind_iff, advance_iff, current_iff, hfirst, if_true, Outcome.iff_of_ok htype,
      Outcome.iff_of_ok (hname _), peekIs_iff, Token.is, beq_iff_eq, hcomma, if_false,
      Outcome.pure_iff, hme.eq, and_self]
  | @more name comma ts us type parameters ht hn hcomma _ ih =>
    obtain ⟨bound, rfl⟩ : ∃ b, bound = b + 1 := ⟨bound - 1, by omega⟩
    obtain ⟨e, f, he, hme, hlt, hfirst, htype, hname⟩ := parameter_run hc ht hn hm findings
    obtain ⟨-, hmu⟩ := he.advance_reads .nil (by rw [hcomma]; decide) hme
    have hshort := Cursor.length_ahead_advance_le e
    have hlater := ih bound he.advance hmu (by omega)
    rw [← Outcome.run_iff]
    unfold laterParameters
    simp only [Outcome.bind_iff, advance_iff, current_iff, hfirst, if_true, Outcome.iff_of_ok htype,
      Outcome.iff_of_ok (hname _), peekIs_iff, Token.is, hme.peek_eq, hcomma, beq_self_eq_true,
      Outcome.iff_of_ok hlater, Outcome.pure_iff, and_self]

theorem parameters_run {stretch : List Token} {closing : Token} {parameters : List Ident}
    (hc : c.Ready) (hp : ParametersPhrase (unbroken stretch) parameters)
    (hk : closing.kind = .rparen) (hm : c.Moves (stretch ++ [closing]) d) :
    Parse.parameters ⟨c, findings⟩ = .ok parameters ⟨d, findings⟩ := by
  obtain ⟨e, hme, hpeek, hadv⟩ := hm.enter (by rw [hk]; decide)
  rw [← Outcome.run_iff]
  unfold Parse.parameters
  simp only [Outcome.bind_iff, move_iff, peekIs_iff]
  generalize hts : unbroken stretch = ts at hp hme
  cases hp with
  | none =>
    rw [hme.eq] at hpeek hadv
    simp only [Token.is, hpeek, hk, beq_self_eq_true, if_true, Outcome.bind_iff, move_iff,
      advance_iff, hadv, Outcome.pure_iff, and_self]
  | some hp =>
    have hfirst : c.openGroup.peek.kind ≠ .rparen := by
      obtain ⟨t, us, rfl, htype⟩ := hp.exists_cons
      rw [hme.peek_eq]
      intro ht
      rw [ht] at htype
      cases htype
    have hlater : laterParameters (c.openGroup.ahead.length + 1) ⟨c.openGroup, findings⟩ =
        .ok parameters ⟨e, findings⟩ :=
      laterParameters_run hp _ hc.openGroup hme (by rw [hpeek]; exact hk) (Nat.lt_succ_self _)
    have hclose : expect .rparen ⟨e.closeGroup, findings⟩ =
        .ok e.closeGroup.advance.current ⟨e.closeGroup.advance, findings⟩ :=
      expect_run (show e.peek.kind = .rparen by rw [hpeek]; exact hk)
    simp only [Token.is, beq_iff_eq, hfirst, if_false, Outcome.bind_iff, remaining_iff, move_iff,
      Outcome.iff_of_ok hlater, Outcome.iff_of_ok hclose, hadv, Outcome.pure_iff, and_self]

theorem resultType_run {rs : List Token} {result : Option String} (hc : c.Ready)
    (hr : ResultPhrase rs result) (hm : c.Moves rs d) (hb : d.peek.kind = .lbrace) :
    resultType ⟨c, findings⟩ = .ok result ⟨d, findings⟩ := by
  have hnb : d.peek.kind ≠ .lbrack := by rw [hb]; decide
  rw [← Outcome.run_iff]
  unfold resultType
  simp only [Outcome.bind_iff, peekIs_iff]
  cases hr with
  | none =>
    rw [hm.eq] at hb ⊢
    simp only [Token.is, hb]
    simp [hb, Kind.isType]
  | @plain _ type ht =>
    obtain ⟨t, ts, rfl, htype⟩ := ht.exists_cons
    have hne : t.kind ≠ .endOfLine := Kind.ne_endOfLine_of_isType htype
    have harrow : t.kind ≠ .arrow := by
      intro h
      rw [h] at htype
      cases htype
    obtain ⟨hcur, hmt⟩ := hc.advance_reads .nil hne hm
    rw [← hcur] at ht
    have hrun : typeName ⟨c.advance, findings⟩ = .ok type ⟨d, findings⟩ :=
      typeName_run hc.advance ht hmt hnb
    simp only [Token.is, beq_iff_eq, hm.peek_eq, harrow, if_false, Outcome.bind_iff, peek_iff,
      htype, if_true, advance_iff, Outcome.iff_of_ok hrun, Outcome.pure_iff, and_self]
  | @arrow arrow _ type ha ht =>
    obtain ⟨t, ts, rfl, htype⟩ := ht.exists_cons
    have hne : t.kind ≠ .endOfLine := Kind.ne_endOfLine_of_isType htype
    obtain ⟨-, hma⟩ := hc.advance_reads .nil (by rw [ha]; decide) hm
    obtain ⟨hcur, hmt⟩ := hc.advance.advance_reads .nil hne hma
    rw [← hcur] at ht
    have hrun : typeName ⟨c.advance.advance, findings⟩ = .ok type ⟨d, findings⟩ :=
      typeName_run hc.advance.advance ht hmt hnb
    simp only [Token.is, hm.peek_eq, ha, beq_self_eq_true, if_true, Outcome.bind_iff, advance_iff,
      peek_iff, hma.peek_eq, htype, Bool.not_true, Bool.false_eq_true, if_false,
      Outcome.iff_of_ok hrun, Outcome.pure_iff, and_self]

/-! ## Statements with braces -/

/-- **A list of statements is in view** at `c`, behind newlines, and is closed at `d`. -/
structure InView (maxDigits : Nat) (closes : Kind → Bool) (ts : List Token) (c d : Cursor) :
    Prop where
  ready : c.Ready
  groups_eq : c.groups = 0
  last_groups_eq : d.groups = 0
  closesBlock : ∀ kind, closes kind → kind.closesBlock
  closed : closes d.current.kind
  view_eq : c.view = (ts ++ d.view).dropWhile isNewline
  readable : Readable maxDigits ts

/-- **What the parser does with a clause** that stands between two cursors, outside of groups, with at
most `n` levels of nesting below.  Of the statements in a list, each takes a level. -/
def Runs (maxDigits n : Nat) : ClauseKind → List Token → List Node → Prop
  | .simple, ts, nodes => ∀ node, nodes = [node] → RunsSimple maxDigits n ts node
  | .chain, ts, nodes => ∀ (depth : Nat) (c d : Cursor) (findings : List Finding) (node : Node)
      (bound : Nat), nodes = [node] → Stands maxDigits ts c d → n ≤ depth → c.groups = 0 →
      d.peek.kind ≠ .kwElse → c.ahead.length < bound →
      branches (expression maxDigits depth Precedence.lowest) (statement maxDigits depth) bound
        ⟨c, findings⟩ = .ok node ⟨d, findings⟩
  | .compound, ts, nodes => ∀ (depth : Nat) (c d : Cursor) (findings : List Finding) (node : Node),
      nodes = [node] → Stands maxDigits ts c d → n ≤ depth → c.groups = 0 → d.peek.kind ≠ .kwElse →
      statement maxDigits (depth + 1) ⟨c, findings⟩ = .ok (some node) ⟨d, findings⟩
  | .block, ts, nodes => ∀ (depth : Nat) (c d : Cursor) (findings : List Finding) (node : Node),
      nodes = [node] → Stands maxDigits ts c d → n ≤ depth → c.groups = 0 →
      block (statement maxDigits depth) ⟨c, findings⟩ = .ok node ⟨d, findings⟩
  | .body, ts, nodes => ∀ (depth : Nat) (closes : Kind → Bool) (c d : Cursor)
      (findings : List Finding) (bound : Nat), InView maxDigits closes ts c d → n ≤ depth →
      c.ahead.length < bound →
      statements closes (statement maxDigits depth) bound ⟨c, findings⟩ = .ok nodes ⟨d, findings⟩

theorem Runs.deeper {kind : ClauseKind} {ts : List Token} {nodes : List Node}
    (h : Runs maxDigits n kind ts nodes) (hle : n ≤ m) : Runs maxDigits m kind ts nodes := by
  cases kind with
  | simple =>
    exact fun node hnode depth nested c d findings hs hn =>
      h node hnode depth nested c d findings hs (hle.trans hn)
  | chain =>
    exact fun depth c d findings node bound hnode hs hn =>
      h depth c d findings node bound hnode hs (hle.trans hn)
  | compound =>
    exact fun depth c d findings node hnode hs hn => h depth c d findings node hnode hs (hle.trans hn)
  | block =>
    exact fun depth c d findings node hnode hs hn => h depth c d findings node hnode hs (hle.trans hn)
  | body =>
    exact fun depth closes c d findings bound hin hn =>
      h depth closes c d findings bound hin (hle.trans hn)

/-- What stands between two cursors, in two parts: the second starts behind the last token of the
first. -/
theorem Stands.split {ts us : List Token} (h : Stands maxDigits (ts ++ us) c d) (hne : ts ≠ [])
    (hb : ∀ t, (ts.getLastD t).kind.isBoundary = false) :
    ∃ e, Stands maxDigits ts c e ∧ Stands maxDigits (e.current :: us) e d := by
  obtain ⟨t, ts, rfl⟩ := List.exists_cons_of_ne_nil hne
  obtain ⟨read, heq, hm⟩ := h.moves
  obtain ⟨rfl, rfl⟩ := List.cons.inj heq
  obtain ⟨e, hme, hmd⟩ := hm.split
  have hlast : e.current = ts.getLastD c.current := hme.current_eq
  have hready : e.Ready := by
    refine hme.ready h.ready ?_
    rw [hlast, ← List.getLastD_cons (a := c.current)]
    exact Kind.ne_of_isBoundary (hb _) rfl
  refine ⟨e, ⟨h.ready, ⟨ts, rfl, hme⟩, h.readable.mono fun _ => List.mem_append_left _⟩,
    hready, ⟨us, rfl, hmd⟩, h.readable.mono ?_⟩
  intro t ht
  rcases List.mem_cons.1 ht with rfl | ht
  · rw [hlast]
    exact List.mem_append_left _ List.getLastD_mem_cons
  · exact List.mem_append_right _ ht

theorem block_run {opening closing : Token} {ts : List Token} {nodes : List Node}
    (ho : opening.kind = .lbrace) (hcl : closing.kind = .rbrace)
    (h : Runs maxDigits n .body ts nodes) :
    Runs maxDigits n .block (opening :: (ts ++ [closing])) [.block opening nodes] := by
  rintro depth c d findings _ ⟨⟩ hs hn hg
  obtain ⟨read, heq, hm⟩ := hs.moves
  obtain ⟨rfl, rfl⟩ := List.cons.inj heq
  have hne : c.current.kind ≠ .eof := by rw [ho]; decide
  have hgd : d.groups = 0 := hm.groups_eq.trans hg
  have hcur : d.current = closing := by
    rw [hm.current_eq, getLastD_append]
    rfl
  have hview : c.advance.view = (ts ++ d.view).dropWhile isNewline := by
    have hr := hm.reads
    rw [hg, reads_zero] at hr
    rw [hs.ready.view_advance hne hg, hr, Cursor.view, hcur, List.append_assoc]
    rfl
  have hin : InView maxDigits Kind.closesBlock ts c.advance d := {
    ready := hs.ready.advance
    groups_eq := by rw [Cursor.advance_groups, hg]
    last_groups_eq := hgd
    closesBlock := fun _ h => h
    closed := by rw [hcur, hcl]; rfl
    view_eq := hview
    readable := hs.readable.mono fun _ hu => List.mem_cons_of_mem _ (List.mem_append_left _ hu) }
  have hbody := h depth Kind.closesBlock c.advance d findings (c.advance.ahead.length + 2) hin hn
    (Nat.lt_add_of_pos_right Nat.two_pos)
  have hlast : (d.current.kind == Kind.eof) = false := by rw [hcur, hcl]; rfl
  rw [← Outcome.run_iff]
  unfold block
  simp only [Outcome.bind_iff, current_iff, Outcome.get_iff, move_iff, hg, Cursor.ungroup_eq hg,
    advance_iff, remaining_iff, liftCrash_iff, Outcome.iff_of_ok hbody, Cursor.ungroup_eq hgd,
    Token.is, hlast, Bool.false_eq_true, if_false, Outcome.pure_iff, and_self]

/-- A branch with a condition is read to the end of its block. -/
theorem branch_run {keyword : Token} {gap cs bs more : List Token} {condition body : Node}
    (h : Stands maxDigits (keyword :: (gap ++ (cs ++ (bs ++ more)))) c d) (hg : c.groups = 0)
    (hgap : IsNewlines gap) (hc : Phrase.Within n (.expression Precedence.lowest) cs [condition])
    (hn : n < depth) (hb : Clause .block bs [body]) (hr : Runs maxDigits m .block bs [body])
    (hm : m ≤ depth) (findings : List Finding) :
    ∃ e f, Stands maxDigits (e.current :: more) e d ∧ e.groups = 0 ∧
      e.ahead.length < c.ahead.length ∧
      expression maxDigits depth Precedence.lowest ⟨c.advance, findings⟩ =
        .ok condition ⟨f, findings⟩ ∧
      expect .lbrace ⟨f, findings⟩ = .ok f.advance.current ⟨f.advance, findings⟩ ∧
      block (statement maxDigits depth) ⟨f.advance, findings⟩ = .ok body ⟨e, findings⟩ := by
  obtain ⟨u, us, rfl, hu⟩ := hc.phrase.exists_cons (by simp)
  obtain ⟨t, ts, rfl, ht⟩ := hb.exists_lbrace
  have hcs := h.skip hgap (Kind.ne_endOfLine_of_startsExpression hu)
  obtain ⟨f, hf, hrest⟩ := Stands.split hcs hc.phrase.ne_nil
    (hc.phrase.getLast_isBoundary (by simp))
  have hpeek := hrest.peek_eq
  obtain ⟨e, he, hmore⟩ := Stands.split (hrest.next (by rw [ht]; decide)) (List.cons_ne_nil t ts)
    (hb.getLast_isBoundary (by simp))
  have hgroups : f.advance.groups = 0 := by
    obtain ⟨read, -, hm⟩ := hf.moves
    rw [Cursor.advance_groups, hm.groups_eq, Cursor.advance_groups, hg]
  refine ⟨e, f, hmore, ?_, ?_, ?_, ?_, ?_⟩
  · obtain ⟨read, -, hm⟩ := he.moves
    rw [hm.groups_eq, hgroups]
  · have := h.length_advance_lt (by simp)
    have := hf.length_le
    have := Cursor.length_ahead_advance_le f
    have := he.length_le
    omega
  · exact hf.expression hc hn (by rw [hpeek, ht]; decide) findings
  · exact expect_run (by rw [hpeek]; exact ht)
  · exact hr depth f.advance e findings body rfl he hm hgroups

theorem ifThen_run {keyword : Token} {gap cs bs : List Token} {condition body : Node}
    (hgap : IsNewlines gap) (hc : Phrase.Within n (.expression Precedence.lowest) cs [condition])
    (hb : Clause .block bs [body]) (hr : Runs maxDigits m .block bs [body]) :
    Runs maxDigits (max (n + 1) m) .chain (keyword :: (gap ++ (cs ++ bs)))
      [.ifThen keyword condition body] := by
  rintro depth c d findings _ bound ⟨⟩ hs hlevels hg hk hbound
  obtain ⟨hn, hm⟩ := Nat.max_le.1 hlevels
  obtain ⟨bound, rfl⟩ : ∃ b, bound = b + 1 := ⟨bound - 1, by omega⟩
  obtain ⟨e, f, he, -, -, hcond, hopen, hblock⟩ := branch_run
    (show Stands maxDigits (keyword :: (gap ++ (cs ++ (bs ++ [])))) c d by simpa using hs)
    hg hgap hc hn hb hr hm findings
  rw [he.eq] at hk ⊢
  rw [← Outcome.run_iff]
  unfold branches
  simp only [Outcome.bind_iff, current_iff, advance_iff, Outcome.iff_of_ok hcond,
    Outcome.iff_of_ok hopen, Outcome.iff_of_ok hblock, peekIs_iff, Token.is, beq_iff_eq, hk,
    if_false, Outcome.pure_iff, hs.current_eq, and_self]

theorem ifOtherwise_run {keyword alternative : Token} {gap cs bs es : List Token}
    {condition body last : Node} {k : Nat} (hgap : IsNewlines gap)
    (hc : Phrase.Within n (.expression Precedence.lowest) cs [condition])
    (hb : Clause .block bs [body]) (ha : alternative.kind = .kwElse) (he : Clause .block es [last])
    (hr : Runs maxDigits m .block bs [body]) (hre : Runs maxDigits k .block es [last]) :
    Runs maxDigits (max (n + 1) (max m k)) .chain
      (keyword :: (gap ++ (cs ++ (bs ++ alternative :: es))))
      [.ifElse keyword condition body (.otherwise alternative last)] := by
  rintro depth c d findings _ bound ⟨⟩ hs hlevels hg hk hbound
  obtain ⟨hn, hlevels⟩ := Nat.max_le.1 hlevels
  obtain ⟨hm, hlevels⟩ := Nat.max_le.1 hlevels
  obtain ⟨bound, rfl⟩ : ∃ b, bound = b + 1 := ⟨bound - 1, by omega⟩
  obtain ⟨t, us, rfl, ht⟩ := he.exists_lbrace
  obtain ⟨e, f, hrest, hge, -, hcond, hopen, hblock⟩ :=
    branch_run hs hg hgap hc hn hb hr hm findings
  have h₁ := hrest.next (by rw [ha]; decide)
  have h₂ := h₁.next (by rw [ht]; decide)
  have hlast := hre depth e.advance.advance d findings last rfl h₂ hlevels
    (by rw [Cursor.advance_groups, Cursor.advance_groups, hge])
  rw [← Outcome.run_iff]
  unfold branches
  simp only [Outcome.bind_iff, current_iff, advance_iff, Outcome.iff_of_ok hcond,
    Outcome.iff_of_ok hopen, Outcome.iff_of_ok hblock, peekIs_iff, Token.is, hrest.peek_eq, ha,
    beq_self_eq_true, if_true, peek_iff, h₁.peek_eq, ht, Outcome.iff_of_ok hlast, Outcome.pure_iff,
    hs.current_eq, h₁.current_eq, and_self]

theorem ifElse_run {keyword alternative : Token} {gap cs bs ns : List Token}
    {condition body next : Node} {k : Nat} (hgap : IsNewlines gap)
    (hc : Phrase.Within n (.expression Precedence.lowest) cs [condition])
    (hb : Clause .block bs [body]) (ha : alternative.kind = .kwElse) (hnext : Clause .chain ns [next])
    (hr : Runs maxDigits m .block bs [body]) (hrn : Runs maxDigits k .chain ns [next]) :
    Runs maxDigits (max (n + 1) (max m k)) .chain
      (keyword :: (gap ++ (cs ++ (bs ++ alternative :: ns))))
      [.ifElse keyword condition body next] := by
  rintro depth c d findings _ bound ⟨⟩ hs hlevels hg hk hbound
  obtain ⟨hn, hlevels⟩ := Nat.max_le.1 hlevels
  obtain ⟨hm, hlevels⟩ := Nat.max_le.1 hlevels
  obtain ⟨bound, rfl⟩ : ∃ b, bound = b + 1 := ⟨bound - 1, by omega⟩
  obtain ⟨t, us, rfl, ht⟩ := hnext.exists_kwIf
  obtain ⟨e, f, hrest, hge, hlt, hcond, hopen, hblock⟩ :=
    branch_run hs hg hgap hc hn hb hr hm findings
  have h₁ := hrest.next (by rw [ha]; decide)
  have h₂ := h₁.next (by rw [ht]; decide)
  have hshort : e.advance.advance.ahead.length < bound := by
    have := Cursor.length_ahead_advance_le e
    have := Cursor.length_ahead_advance_le e.advance
    omega
  have hlast := hrn depth e.advance.advance d findings next bound rfl h₂ hlevels
    (by rw [Cursor.advance_groups, Cursor.advance_groups, hge]) hk hshort
  rw [← Outcome.run_iff]
  unfold branches
  simp only [Outcome.bind_iff, current_iff, advance_iff, Outcome.iff_of_ok hcond,
    Outcome.iff_of_ok hopen, Outcome.iff_of_ok hblock, peekIs_iff, Token.is, hrest.peek_eq, ha,
    if_true, peek_iff, h₁.peek_eq, beq_iff_eq, ht, reduceCtorEq, if_false,
    Outcome.iff_of_ok hlast, Outcome.pure_iff, hs.current_eq, and_self]

theorem chain_run {ts : List Token} {nodes : List Node} (hc : Clause .chain ts nodes)
    (h : Runs maxDigits n .chain ts nodes) : Runs maxDigits n .compound ts nodes := by
  intro depth c d findings node hnode hs hn hg hk
  obtain ⟨t, us, rfl, ht⟩ := hc.exists_kwIf
  have hrun := h depth c d findings node (c.ahead.length + 1) hnode hs hn hg hk (Nat.lt_succ_self _)
  rw [← Outcome.run_iff]
  unfold statement statementWith
  simp only [Outcome.bind_iff, current_iff, hs.current_eq, ht, remaining_iff, Outcome.iff_of_ok hrun,
    Outcome.pure_iff, and_self]

theorem function_run {keyword name opening closing : Token} {ps rs bs : List Token}
    {parameters : List Ident} {result : Option String} {body : Node}
    (hk : keyword.kind = .kwFn) (hname : name.kind = .ident) (ho : opening.kind = .lparen)
    (hp : ParametersPhrase (unbroken ps) parameters) (hc : closing.kind = .rparen)
    (hr : ResultPhrase rs result) (hb : Clause .block bs [body])
    (hrb : Runs maxDigits n .block bs [body]) :
    Runs maxDigits n .compound (keyword :: name :: opening :: (ps ++ closing :: (rs ++ bs)))
      [.function keyword name.text parameters result body] := by
  rintro depth c d findings _ ⟨⟩ hs hn hg _
  have h₁ := hs.next (by rw [hname]; decide)
  have h₂ := h₁.next (by rw [ho]; decide)
  obtain ⟨t, us, rfl, ht⟩ := hb.exists_lbrace
  -- The signature up to the closing parenthesis, the type of the result, and the block.
  have hsig : Stands maxDigits ((opening :: (ps ++ [closing])) ++ (rs ++ t :: us))
      c.advance.advance d := by simpa using h₂
  obtain ⟨e, hparams, hrest⟩ := hsig.split (List.cons_ne_nil _ _)
    (fun t => by rw [List.getLastD_cons, getLastD_append]; simp [hc, Kind.isBoundary])
  have hlast : e.current.kind.isBoundary = false := by
    rw [hparams.last_eq opening, List.getLastD_cons, getLastD_append]
    simp [hc, Kind.isBoundary]
  have htype : Stands maxDigits ((e.current :: rs) ++ (t :: us)) e d := hrest
  obtain ⟨g, hresult, hblock⟩ := htype.split (List.cons_ne_nil _ _)
    (fun t => by rw [List.getLastD_cons]; exact hr.getLast_isBoundary hlast)
  have hgroups : g.advance.groups = 0 := by
    obtain ⟨read, -, hm⟩ := hparams.moves
    obtain ⟨read', -, hm'⟩ := hresult.moves
    rw [Cursor.advance_groups, hm'.groups_eq, hm.groups_eq, Cursor.advance_groups,
      Cursor.advance_groups, hg]
  have hps : Parse.parameters ⟨c.advance.advance, findings⟩ = .ok parameters ⟨e, findings⟩ := by
    obtain ⟨read, heq, hm⟩ := hparams.moves
    obtain ⟨-, rfl⟩ := List.cons.inj heq
    exact parameters_run hparams.ready hp hc hm
  have hrs : resultType ⟨e, findings⟩ = .ok result ⟨g, findings⟩ := by
    obtain ⟨read, heq, hm⟩ := hresult.moves
    obtain ⟨-, rfl⟩ := List.cons.inj heq
    exact resultType_run hresult.ready hr hm (by rw [hblock.peek_eq]; exact ht)
  have hbody := hrb depth g.advance d findings body rfl (hblock.next (by rw [ht]; decide)) hn hgroups
  rw [← Outcome.run_iff]
  unfold statement statementWith function expect
  simp only [Outcome.bind_iff, current_iff, hs.current_eq, hk,
    Outcome.iff_of_ok (hs.expectNamed hname (by decide) _ _),
    Outcome.iff_of_ok (h₁.expectNamed ho (by decide) _ _), Outcome.iff_of_ok hps,
    Outcome.iff_of_ok hrs, Outcome.iff_of_ok (hblock.expectNamed ht (by decide) _ _),
    Outcome.iff_of_ok hbody, Outcome.pure_iff, and_self]

/-! ## Lists of statements -/

/-- A cursor in view of tokens, and one behind the first of them. -/
theorem Stands.of_view {ts rest : List Token} (hc : c.Ready) (hg : c.groups = 0) (hne : ts ≠ [])
    (hv : c.view = ts ++ rest) (hr : Readable maxDigits ts) :
    Stands maxDigits ts c ⟨ts.getLastD c.current, rest, 0⟩ := by
  obtain ⟨t, ts, rfl⟩ := List.exists_cons_of_ne_nil hne
  obtain ⟨rfl, hahead⟩ := List.cons.inj hv
  refine ⟨hc, ⟨ts, rfl, hg.symm, ?_, ?_⟩, hr⟩
  · rw [hg, reads_zero]
    exact hahead
  · rw [List.getLastD_cons]

/-- One turn of the loop over statements. -/
theorem statements_turn {closes : Kind → Bool} {statement : Parse (Option Node)} {bound : Nat}
    {result : Option Node} {nodes : List Node} {e : Cursor} (hcl : closes c.current.kind = false)
    (hst : statement ⟨c, findings⟩ = .ok result ⟨e, findings⟩)
    (hce : result = none → closes e.current.kind = false)
    (hnext : statements closes statement bound ⟨e.advance, findings⟩ = .ok nodes ⟨d, findings⟩) :
    statements closes statement (bound + 1) ⟨c, findings⟩ =
      .ok (result.toList ++ nodes) ⟨d, findings⟩ := by
  rw [← Outcome.run_iff]
  unfold statements
  simp only [Outcome.bind_iff, current_iff, hcl, Bool.false_eq_true, if_false, recovering_iff,
    Outcome.iff_of_ok hst]
  cases result with
  | none =>
    simp only [Outcome.bind_iff, current_iff, hce rfl, Bool.false_eq_true, if_false, advance_iff,
      Outcome.iff_of_ok hnext]
    exact ⟨rfl, trivial⟩
  | some node =>
    simp only [Outcome.bind_iff, advance_iff, Outcome.iff_of_ok hnext, Outcome.pure_iff]
    exact ⟨rfl, trivial⟩

/-- At a token that closes their list, no more statements are read. -/
theorem statements_stop {closes : Kind → Bool} {statement : Parse (Option Node)} {bound : Nat}
    (hcl : closes c.current.kind) (hb : 0 < bound) :
    statements closes statement bound ⟨c, findings⟩ = .ok [] ⟨c, findings⟩ := by
  obtain ⟨bound, rfl⟩ : ∃ b, bound = b + 1 := ⟨bound - 1, by omega⟩
  rw [← Outcome.run_iff]
  unfold statements
  simp only [Outcome.bind_iff, current_iff, hcl, if_true, Outcome.pure_iff, and_self]

theorem InView.not_closes {closes : Kind → Bool} {ts : List Token}
    (h : InView maxDigits closes ts c d) {kind : Kind} (hk : kind.closesBlock = false) :
    closes kind = false := by
  rw [← Bool.not_eq_true]
  intro hcl
  rw [h.closesBlock _ hcl] at hk
  cases hk

/-- Behind the first tokens of a list the rest is in view. -/
theorem InView.advance {closes : Kind → Bool} {ss ts : List Token} {e : Cursor}
    (h : InView maxDigits closes (ss ++ ts) c d) (he : e.Ready) (hne : e.current.kind ≠ .eof)
    (hg : e.groups = 0)
    (hview : e.ahead.dropWhile isNewline = (ts ++ d.view).dropWhile isNewline) :
    InView maxDigits closes ts e.advance d where
  ready := he.advance
  groups_eq := by rw [Cursor.advance_groups, hg]
  last_groups_eq := h.last_groups_eq
  closesBlock := h.closesBlock
  closed := h.closed
  view_eq := by rw [he.view_advance hne hg, hview]
  readable := h.readable.mono fun _ => List.mem_append_right _

theorem empty_run : Runs maxDigits 0 .body [] [] := by
  intro depth closes c d findings bound h _ hb
  have hd : d.current.kind ≠ .endOfLine := by
    intro he
    have := h.closesBlock _ h.closed
    rw [he] at this
    cases this
  have heq : c = d := by
    have hview := h.view_eq
    rw [List.nil_append, Cursor.view, Cursor.view, dropWhile_of_ne hd] at hview
    obtain ⟨hcur, hahead⟩ := List.cons.inj hview
    have hgroups := h.groups_eq.trans h.last_groups_eq.symm
    cases c
    cases d
    simp_all
  subst heq
  exact statements_stop h.closed (by omega)

/-- Newlines take no level, and other separators are statements of their own. -/
theorem separator_run {t : Token} {ts : List Token} {nodes : List Node} (ht : t.kind.isSeparator)
    (hpos : t.kind = .endOfLine ∨ 0 < n) (h : Runs maxDigits n .body ts nodes) :
    Runs maxDigits n .body (t :: ts) nodes := by
  intro depth closes c d findings bound hin hn hb
  have hview := hin.view_eq
  by_cases hline : t.kind = .endOfLine
  · refine h depth closes c d findings bound { hin with view_eq := ?_, readable := ?_ } hn hb
    · rw [hview, List.cons_append, List.dropWhile_cons_of_pos (isNewline_iff.2 hline)]
    · exact hin.readable.mono fun _ => List.mem_cons_of_mem t
  · have hsemi : t.kind = .semicolon := by
      revert ht hline
      cases t.kind <;> simp [Kind.isSeparator]
    rw [List.cons_append, dropWhile_of_ne hline] at hview
    obtain ⟨rfl, hahead⟩ := List.cons.inj hview
    have hne : c.current.kind ≠ .eof := by rw [hsemi]; decide
    have hopen : closes c.current.kind = false := hin.not_closes (by rw [hsemi]; rfl)
    have hshort := hin.ready.length_advance_lt hne
    have hlevel := hpos.resolve_left hline
    obtain ⟨bound, rfl⟩ : ∃ b, bound = b + 1 := ⟨bound - 1, by omega⟩
    obtain ⟨depth, rfl⟩ : ∃ n, depth = n + 1 := ⟨depth - 1, by omega⟩
    have hst : statement maxDigits (depth + 1) ⟨c, findings⟩ = .ok none ⟨c, findings⟩ := by
      rw [← Outcome.run_iff]
      unfold statement statementWith
      simp [hsemi]
    refine statements_turn hopen hst (fun _ => hopen) ?_
    have hrest : InView maxDigits closes ([c.current] ++ ts) c d := hin
    exact h (depth + 1) closes c.advance d findings bound
      (hrest.advance hin.ready hne hin.groups_eq (by rw [hahead])) hn (by omega)

/-- A statement in view stands in front of the rest of the list. -/
theorem InView.stands {closes : Kind → Bool} {kind : ClauseKind} {ss ts : List Token} {node : Node}
    (h : InView maxDigits closes (ss ++ ts) c d) (hs : Clause kind ss [node])
    (hk : kind ≠ .body) :
    ∃ e, Stands maxDigits ss c e ∧ e.Ready ∧ e.groups = 0 ∧ e.ahead = ts ++ d.view ∧
      e.current.kind.isBoundary = false ∧ closes c.current.kind = false := by
  obtain ⟨t, us, rfl, ht⟩ := hs.exists_cons hk
  have hview := h.view_eq
  have hn : t.kind ≠ .endOfLine := by
    intro he
    rw [he] at ht
    cases ht
  rw [List.append_assoc, List.cons_append, dropWhile_of_ne hn, ← List.cons_append] at hview
  have hss := Stands.of_view h.ready h.groups_eq (List.cons_ne_nil t us) hview
    (h.readable.mono fun _ => List.mem_append_left _)
  have hlast := hs.getLast_isBoundary hk c.current
  obtain ⟨read, -, hm⟩ := hss.moves
  refine ⟨_, hss, hm.ready h.ready (Kind.ne_of_isBoundary hlast rfl), rfl, rfl, hlast, ?_⟩
  refine h.not_closes ?_
  rw [hss.current_eq]
  revert ht
  cases t.kind <;> decide

theorem braced_run {ss ts : List Token} {node : Node} {nodes : List Node}
    (hs : Clause .compound ss [node]) (hb : Clause .body ts nodes)
    (h : Runs maxDigits n .compound ss [node]) (hr : Runs maxDigits m .body ts nodes) :
    Runs maxDigits (max (n + 1) m) .body (ss ++ ts) (node :: nodes) := by
  intro depth closes c d findings bound hin hlevels hbound
  obtain ⟨hn, hm⟩ := Nat.max_le.1 hlevels
  obtain ⟨depth, rfl⟩ : ∃ n, depth = n + 1 := ⟨depth - 1, by omega⟩
  obtain ⟨bound, rfl⟩ : ∃ b, bound = b + 1 := ⟨bound - 1, by omega⟩
  obtain ⟨e, hss, he, hg, hahead, hlast, hopen⟩ := hin.stands hs (by simp)
  have hne : e.current.kind ≠ .eof := Kind.ne_of_isBoundary hlast rfl
  have helse : e.peek.kind ≠ .kwElse := by
    cases ts with
    | nil =>
      rw [Cursor.peek, hahead]
      intro hk
      have := hin.closesBlock _ hin.closed
      rw [show d.current.kind = .kwElse from hk] at this
      cases this
    | cons t ts =>
      rw [Cursor.peek, hahead]
      exact hb.head_ne_kwElse
  have hshort := he.length_advance_lt hne
  have hle := hss.length_le
  refine statements_turn hopen (h depth c e findings node rfl hss (Nat.le_of_succ_le_succ hn)
    hin.groups_eq helse) (by simp) ?_
  exact hr (depth + 1) closes e.advance d findings bound (hin.advance he hne hg (by rw [hahead])) hm
    (by omega)

theorem ended_run {t : Token} {ss ts : List Token} {node : Node} {nodes : List Node}
    (hs : Clause .simple ss [node]) (ht : t.kind.isSeparator)
    (h : Runs maxDigits n .simple ss [node]) (hr : Runs maxDigits m .body ts nodes) :
    Runs maxDigits (max (n + 1) m) .body (ss ++ t :: ts) (node :: nodes) := by
  intro depth closes c d findings bound hin hlevels hbound
  obtain ⟨hn, hm⟩ := Nat.max_le.1 hlevels
  obtain ⟨depth, rfl⟩ : ∃ n, depth = n + 1 := ⟨depth - 1, by omega⟩
  obtain ⟨bound, rfl⟩ : ∃ b, bound = b + 1 := ⟨bound - 1, by omega⟩
  obtain ⟨e, hss, he, hg, hahead, hlast, hopen⟩ := hin.stands hs (by simp)
  have hne : e.current.kind ≠ .eof := Kind.ne_of_isBoundary hlast rfl
  have hpeek : e.peek = t := by rw [Cursor.peek, hahead]; rfl
  have hterm : e.peek.kind.isTerminator := by
    rw [hpeek]
    revert ht
    cases t.kind <;> decide
  have hshort := he.length_advance_lt hne
  have hle := hss.length_le
  have hrest : InView maxDigits closes ((ss ++ [t]) ++ ts) c d := by simpa using hin
  refine statements_turn hopen (h node rfl depth _ c e findings hss (Nat.le_of_succ_le_succ hn) hterm)
    (by simp) ?_
  unfold ended
  by_cases hsemi : t.kind = .semicolon
  · have hcur := he.current_advance (by rw [hpeek, hsemi]; rfl)
    rw [hpeek, if_pos hsemi]
    have hnea : e.advance.current.kind ≠ .eof := by
      rw [hcur, hpeek, hsemi]
      decide
    have hview : e.advance.ahead = ts ++ d.view := by
      have hr := (he.moves_peek (by rw [hpeek, hsemi]; rfl)).reads
      rw [hg, reads_zero, hahead] at hr
      exact (List.cons.inj hr).2.symm
    refine hr (depth + 1) closes e.advance.advance d findings bound
      (hrest.advance he.advance hnea (by rw [Cursor.advance_groups, hg]) (by rw [hview])) hm ?_
    have := Cursor.length_ahead_advance_le e.advance
    omega
  · rw [hpeek, if_neg hsemi]
    have hline : t.kind = .endOfLine := by
      revert ht hsemi
      cases t.kind <;> simp [Kind.isSeparator]
    refine hr (depth + 1) closes e.advance d findings bound (hrest.advance he hne hg ?_) hm (by omega)
    rw [hahead, List.cons_append, List.dropWhile_cons_of_pos (isNewline_iff.2 hline)]

theorem last_run {ss : List Token} {node : Node} (hs : Clause .simple ss [node])
    (h : Runs maxDigits n .simple ss [node]) : Runs maxDigits (n + 1) .body ss [node] := by
  intro depth closes c d findings bound hin hn hbound
  obtain ⟨depth, rfl⟩ : ∃ n, depth = n + 1 := ⟨depth - 1, by omega⟩
  obtain ⟨bound, rfl⟩ : ∃ b, bound = b + 1 := ⟨bound - 1, by omega⟩
  have hrest : InView maxDigits closes (ss ++ []) c d := by simpa using hin
  obtain ⟨e, hss, he, hg, hahead, hlast, hopen⟩ := hrest.stands hs (by simp)
  have hne : e.current.kind ≠ .eof := Kind.ne_of_isBoundary hlast rfl
  have hpeek : e.peek = d.current := by rw [Cursor.peek, hahead]; rfl
  have hblock := hin.closesBlock _ hin.closed
  have hterm : e.peek.kind.isTerminator := by
    rw [hpeek]
    revert hblock
    cases d.current.kind <;> decide
  have hsemi : d.current.kind ≠ .semicolon := by
    intro hk
    rw [hk] at hblock
    cases hblock
  have hshort := he.length_advance_lt hne
  have hle := hss.length_le
  refine statements_turn hopen (h node rfl depth _ c e findings hss (Nat.le_of_succ_le_succ hn) hterm)
    (by simp) ?_
  unfold ended
  rw [hpeek, if_neg hsemi]
  exact empty_run (depth + 1) closes e.advance d findings bound
    (hrest.advance he hne hg (by rw [hahead])) (Nat.zero_le _) (by omega)

end Parse

/-! ## All clauses -/

/-- **A clause that is read with at most `n` levels of nesting below**, whatever the limit on
numerals. -/
structure Clause.Within (n : Nat) (kind : ClauseKind) (ts : List Token) (nodes : List Node) :
    Prop where
  clause : Clause kind ts nodes
  runs (maxDigits : Nat) : Parse.Runs maxDigits n kind ts nodes

namespace Clause.Within

open Parse

variable {n m k : Nat} {kind : ClauseKind} {keyword name opening closing t : Token}
  {gap cs ss ts : List Token} {a b c : Node} {nodes : List Node}

theorem deeper (h : Within n kind ts nodes) (hle : n ≤ m) : Within m kind ts nodes :=
  ⟨h.clause, fun maxDigits => (h.runs maxDigits).deeper hle⟩

theorem simple (h : Clause .simple ts [a]) (hruns : ∀ maxDigits, RunsSimple maxDigits n ts a) :
    Within n .simple ts [a] := by
  refine ⟨h, fun maxDigits node hnode => ?_⟩
  obtain rfl : a = node := by simpa using hnode
  exact hruns maxDigits

theorem declare {type : BasicType} (hk : BasicType.ofKind? keyword.kind = Option.some type)
    (hn : name.kind = .ident) (hi : InitializerPhrase.Within n (.zero type) ts a) :
    Within (n + 1) .simple (keyword :: name :: ts) [.declare keyword type name.toIdent a] :=
  simple (.declare hk hn hi.initializer) fun _ => runsSimple_declare hk hn hi

theorem declareArray (hk : keyword.kind.isType) (ho : opening.kind = .lbrack)
    (hc : closing.kind = .rbrack) (hn : name.kind = .ident)
    (hi : InitializerPhrase.Within n .emptyArray ts a) :
    Within (n + 1) .simple (keyword :: opening :: closing :: name :: ts)
      [.declareArray keyword keyword.text name.toIdent a] :=
  simple (.declareArray hk ho hc hn hi.initializer) fun _ => runsSimple_declareArray hk ho hc hn hi

theorem bareReturn (hk : keyword.kind = .kwReturn) :
    Within 0 .simple [keyword] [.bareReturn keyword] :=
  simple (.bareReturn hk) fun _ => runsSimple_bareReturn hk

theorem returnValue (hk : keyword.kind = .kwReturn)
    (hp : Phrase.Within n (.expression Precedence.lowest) ts [a]) :
    Within (n + 1) .simple (keyword :: ts) [.returnValue keyword a] :=
  simple (.returnValue hk hp.phrase) fun _ => runsSimple_returnValue hk hp

theorem expression (hp : Phrase.Within n (.expression Precedence.lowest) (t :: ts) [a]) :
    Within (n + 1) .simple (t :: ts) [.expression t a] :=
  simple (.expression hp.phrase) fun _ => runsSimple_expression hp

theorem ifThen (hk : keyword.kind = .kwIf) (hg : IsNewlines gap)
    (hc : Phrase.Within n (.expression Precedence.lowest) cs [a]) (hb : Within m .block ts [b]) :
    Within (max (n + 1) m) .chain (keyword :: (gap ++ (cs ++ ts))) [.ifThen keyword a b] :=
  ⟨.ifThen hk hg hc.phrase hb.clause, fun maxDigits =>
    ifThen_run hg hc hb.clause (hb.runs maxDigits)⟩

theorem ifOtherwise (hk : keyword.kind = .kwIf) (hg : IsNewlines gap)
    (hc : Phrase.Within n (.expression Precedence.lowest) cs [a]) (hb : Within m .block ts [b])
    (ht : t.kind = .kwElse) (he : Within k .block ss [c]) :
    Within (max (n + 1) (max m k)) .chain (keyword :: (gap ++ (cs ++ (ts ++ t :: ss))))
      [.ifElse keyword a b (.otherwise t c)] :=
  ⟨.ifOtherwise hk hg hc.phrase hb.clause ht he.clause, fun maxDigits =>
    ifOtherwise_run hg hc hb.clause ht he.clause (hb.runs maxDigits) (he.runs maxDigits)⟩

theorem ifElse (hk : keyword.kind = .kwIf) (hg : IsNewlines gap)
    (hc : Phrase.Within n (.expression Precedence.lowest) cs [a]) (hb : Within m .block ts [b])
    (ht : t.kind = .kwElse) (hn : Within k .chain ss [c]) :
    Within (max (n + 1) (max m k)) .chain (keyword :: (gap ++ (cs ++ (ts ++ t :: ss))))
      [.ifElse keyword a b c] :=
  ⟨.ifElse hk hg hc.phrase hb.clause ht hn.clause, fun maxDigits =>
    ifElse_run hg hc hb.clause ht hn.clause (hb.runs maxDigits) (hn.runs maxDigits)⟩

theorem branches (h : Within n .chain ts nodes) : Within n .compound ts nodes :=
  ⟨.branches h.clause, fun maxDigits => chain_run h.clause (h.runs maxDigits)⟩

theorem function {ps rs : List Token} {parameters : List Ident} {result : Option String}
    (hk : keyword.kind = .kwFn) (hn : name.kind = .ident) (ho : opening.kind = .lparen)
    (hp : ParametersPhrase (unbroken ps) parameters) (hc : closing.kind = .rparen)
    (hr : ResultPhrase rs result) (hb : Within n .block ts [a]) :
    Within n .compound (keyword :: name :: opening :: (ps ++ closing :: (rs ++ ts)))
      [.function keyword name.text parameters result a] :=
  ⟨.function hk hn ho hp hc hr hb.clause, fun maxDigits =>
    function_run hk hn ho hp hc hr hb.clause (hb.runs maxDigits)⟩

theorem block (ho : opening.kind = .lbrace) (hc : closing.kind = .rbrace)
    (h : Within n .body ts nodes) :
    Within n .block (opening :: (ts ++ [closing])) [.block opening nodes] :=
  ⟨.block ho hc h.clause, fun maxDigits => block_run ho hc (h.runs maxDigits)⟩

theorem empty : Within 0 .body [] [] :=
  ⟨.empty, fun _ => empty_run⟩

theorem separator (ht : t.kind.isSeparator) (hpos : t.kind = .endOfLine ∨ 0 < n)
    (h : Within n .body ts nodes) : Within n .body (t :: ts) nodes :=
  ⟨.separator ht h.clause, fun maxDigits => separator_run ht hpos (h.runs maxDigits)⟩

theorem braced (hs : Within n .compound ss [a]) (h : Within m .body ts nodes) :
    Within (max (n + 1) m) .body (ss ++ ts) (a :: nodes) :=
  ⟨.braced hs.clause h.clause, fun maxDigits =>
    braced_run hs.clause h.clause (hs.runs maxDigits) (h.runs maxDigits)⟩

theorem ended (hs : Within n .simple ss [a]) (ht : t.kind.isSeparator) (h : Within m .body ts nodes) :
    Within (max (n + 1) m) .body (ss ++ t :: ts) (a :: nodes) :=
  ⟨.ended hs.clause ht h.clause, fun maxDigits =>
    ended_run hs.clause ht (hs.runs maxDigits) (h.runs maxDigits)⟩

theorem last (hs : Within n .simple ss [a]) : Within (n + 1) .body ss [a] :=
  ⟨.last hs.clause, fun maxDigits => last_run hs.clause (hs.runs maxDigits)⟩

end Clause.Within

/-- As many levels as suffice for some tokens of a clause, whatever clause they are. -/
def ClauseKind.levels : ClauseKind → List Token → Nat
  | .body, ts => ts.length + 1
  | _, ts => ts.length

/-- **Every clause is read**, with no more levels of nesting than it has tokens. -/
theorem Clause.within {kind : ClauseKind} {ts : List Token} {nodes : List Node}
    (h : Clause kind ts nodes) : Within (kind.levels ts) kind ts nodes := by
  induction h with
  | declare hk hn hi =>
    exact (Within.declare hk hn hi.within).deeper (by simp [ClauseKind.levels])
  | declareArray hk ho hc hn hi =>
    exact (Within.declareArray hk ho hc hn hi.within).deeper (by simp [ClauseKind.levels])
  | define hn hd hg hl hp =>
    refine (Within.simple (.define hn hd hg hl hp) fun _ =>
      Parse.runsSimple_define hn hd hg hl hp.within).deeper ?_
    simp only [PhraseKind.levels, ClauseKind.levels, List.length_append, List.length_cons]
    omega
  | @defineArray _ _ _ _ _ ts _ hn hd hg ho hc hp =>
    have := length_unbroken_le ts
    refine (Within.simple (.defineArray hn hd hg ho hc hp) fun _ =>
      Parse.runsSimple_defineArray hn hd hg ho hc hp.within).deeper ?_
    simp only [PhraseKind.levels, ClauseKind.levels, List.length_append, List.length_cons]
    omega
  | bareReturn hk => exact (Within.bareReturn hk).deeper (Nat.zero_le _)
  | returnValue hk hp =>
    exact (Within.returnValue hk hp.within).deeper (by simp [PhraseKind.levels, ClauseKind.levels])
  | expression hp =>
    exact (Within.expression hp.within).deeper (by simp [PhraseKind.levels, ClauseKind.levels])
  | ifThen hk hg hc _ ihb =>
    have := List.length_pos_iff.2 hc.ne_nil
    refine (Within.ifThen hk hg hc.within ihb).deeper ?_
    simp only [PhraseKind.levels, ClauseKind.levels, List.length_append, List.length_cons]
    omega
  | ifOtherwise hk hg hc _ ha _ ihb ihe =>
    have := List.length_pos_iff.2 hc.ne_nil
    refine (Within.ifOtherwise hk hg hc.within ihb ha ihe).deeper ?_
    simp only [PhraseKind.levels, ClauseKind.levels, List.length_append, List.length_cons]
    omega
  | ifElse hk hg hc _ ha _ ihb ihn =>
    have := List.length_pos_iff.2 hc.ne_nil
    refine (Within.ifElse hk hg hc.within ihb ha ihn).deeper ?_
    simp only [PhraseKind.levels, ClauseKind.levels, List.length_append, List.length_cons]
    omega
  | branches _ ih => exact ih.branches
  | function hk hn ho hp hc hr _ ihb =>
    refine (ihb.function hk hn ho hp hc hr).deeper ?_
    simp only [ClauseKind.levels, List.length_append, List.length_cons]
    omega
  | block ho hc _ ih => exact (ih.block ho hc).deeper (by simp [ClauseKind.levels])
  | empty => exact Within.empty.deeper (Nat.zero_le _)
  | separator ht _ ih =>
    exact (ih.deeper (Nat.le_succ _)).separator ht (.inr (Nat.succ_pos _))
  | braced _ _ ihs ih =>
    refine (ihs.braced ih).deeper ?_
    simp only [ClauseKind.levels, List.length_append]
    omega
  | ended _ ht _ ihs ih =>
    refine (ihs.ended ht ih).deeper ?_
    simp only [ClauseKind.levels, List.length_append, List.length_cons]
    omega
  | last _ ihs => exact ihs.last

end LimLang
