import LimLang.Proofs.ExpressionSoundness

/-! # Every expression is read

The converse of what the parser of expressions reads: wherever an expression of the grammar stands
ahead, followed by a token that binds no tighter than it may, the parser returns its tree and stops
behind it.

The grammar is left-recursive where the parser loops: the tree of `a + b + c` ends with the last
operator, and the parser comes to it last, with the tree of `a + b` in its hand.  So the statement
about an expression is about two parts of the parser (`TakesIn`): its first operand is read, and
from there the loop gets to the whole expression at any floor that is low enough (`Passes`),
whatever it does afterwards.

How deep the parser has to go is told along with it.  Brackets and operators each take one level more
than what they hold; lists and what stands to the left of an operator take none of their own.
-/
namespace LimLang

open Cursor (isNewline)

/-- Numerals that are short enough to be read. -/
def Readable (maxDigits : Nat) (ts : List Token) : Prop :=
  ∀ t ∈ ts, t.kind = .int → t.text.length ≤ maxDigits

theorem Readable.mono {maxDigits : Nat} {ts us : List Token} (h : Readable maxDigits us)
    (hs : ∀ t ∈ ts, t ∈ us) : Readable maxDigits ts :=
  fun t ht => h t (hs t ht)

theorem Readable.unbroken {maxDigits : Nat} {ts : List Token} (h : Readable maxDigits ts) :
    Readable maxDigits (unbroken ts) :=
  h.mono fun _ ht => List.mem_of_mem_filter ht

theorem Kind.precedence_of_isCloser {kind : Kind} (h : kind.isCloser) :
    kind.precedence = Precedence.lowest := by
  revert h
  cases kind <;> decide

theorem Kind.ne_endOfLine_of_isCloser {kind : Kind} (h : kind.isCloser) : kind ≠ .endOfLine := by
  rintro rfl
  exact absurd h (by decide)

/-- The cursor stands as it should wherever a phrase ends. -/
theorem Phrase.ready {kind : PhraseKind} {c d : Cursor} {read : List Token} {nodes : List Node}
    (h : Phrase kind (c.current :: read) nodes) (hk : kind ≠ .list) (hc : c.Ready)
    (hm : c.Moves read d) : d.Ready := by
  refine hm.ready hc ?_
  have := h.getLast_isBoundary hk c.current
  rw [List.getLastD_cons, ← hm.current_eq] at this
  exact Kind.ne_of_isBoundary this rfl

theorem length_unbroken_le (ts : List Token) : (unbroken ts).length ≤ ts.length :=
  List.length_filter_le _ _

namespace Parse

variable {maxDigits depth n m : Nat} {findings : List Finding}

/-- **The loop over operators gets from one operand to another**: with `left` read up to `c` it does
what it does with `node` read up to `d`, at every floor not above `level`.  No floor is above that
of an operator in front of its operand. -/
def Passes (ex : Nat → Parse Node) (level : Nat) (findings : List Finding) (left : Node) (c : Cursor)
    (node : Node) (d : Cursor) : Prop :=
  ∀ floor bound, floor ≤ min level Precedence.unary → c.ahead.length ≤ bound →
    ∃ bound', d.ahead.length ≤ bound' ∧
      climb ex floor bound left ⟨c, findings⟩ = climb ex floor bound' node ⟨d, findings⟩

theorem Passes.refl (ex : Nat → Parse Node) (level : Nat) (findings : List Finding) (node : Node)
    (c : Cursor) : Passes ex level findings node c node c :=
  fun _ bound _ hb => ⟨bound, hb, rfl⟩

theorem Passes.mono {ex : Nat → Parse Node} {low high : Nat} {left node : Node} {c d : Cursor}
    (hle : low ≤ high) (h : Passes ex high findings left c node d) :
    Passes ex low findings left c node d :=
  fun floor bound hf hb => h floor bound (by omega) hb

theorem Passes.trans {ex : Nat → Parse Node} {level : Nat} {left mid node : Node} {c d e : Cursor}
    (h : Passes ex level findings left c mid d) (h' : Passes ex level findings mid d node e) :
    Passes ex level findings left c node e := by
  intro floor bound hle hb
  obtain ⟨bound₁, hb₁, h₁⟩ := h floor bound hle hb
  obtain ⟨bound₂, hb₂, h₂⟩ := h' floor bound₁ hle hb₁
  exact ⟨bound₂, hb₂, h₁.trans h₂⟩

/-- **One turn of the loop.** -/
theorem Passes.turn {ex : Nat → Parse Node} {level : Nat} {left node : Node} {c d : Cursor}
    (hk : min level Precedence.unary < c.peek.kind.precedence) (hlen : d.ahead.length < c.ahead.length)
    (h : continuation ex left ⟨c.advance, findings⟩ = .ok node ⟨d, findings⟩) :
    Passes ex level findings left c node d := by
  intro floor bound hle hb
  obtain ⟨bound, rfl⟩ : ∃ b, bound = b + 1 := ⟨bound - 1, by omega⟩
  refine ⟨bound, by omega, ?_⟩
  rw [climb, bind_of_ok (show peek ⟨c, findings⟩ = .ok c.peek ⟨c, findings⟩ from rfl),
    if_pos (Nat.lt_of_le_of_lt hle hk),
    bind_of_ok (show advance ⟨c, findings⟩ = .ok () ⟨c.advance, findings⟩ from rfl), bind_of_ok h]

theorem climb_stops (ex : Nat → Parse Node) {floor : Nat} (bound : Nat) (node : Node) {c : Cursor}
    (hk : c.peek.kind.precedence ≤ floor) :
    climb ex floor bound node ⟨c, findings⟩ = .ok node ⟨c, findings⟩ := by
  cases bound with
  | zero => rfl
  | succ bound =>
    unfold climb
    rw [bind_of_ok (show peek ⟨c, findings⟩ = .ok c.peek ⟨c, findings⟩ from rfl),
      if_neg (Nat.not_lt.2 hk)]
    rfl

/-- **An expression is taken in**: its first operand is read, and the loop gets from there to its
end, with at most `n` levels of nesting below. -/
def TakesIn (maxDigits n level : Nat) (ts : List Token) (node : Node) : Prop :=
  ∀ (depth : Nat) (c d : Cursor) (read : List Token) (findings : List Finding),
    ts = c.current :: read → c.Ready → c.Moves read d → Readable maxDigits ts →
    n ≤ depth → d.peek.kind.precedence ≤ Precedence.follower level →
    ∃ left e, operand maxDigits (expression maxDigits depth) ⟨c, findings⟩ = .ok left ⟨e, findings⟩ ∧
      Passes (expression maxDigits depth) level findings left e node d

theorem TakesIn.deeper {level : Nat} {ts : List Token} {node : Node}
    (h : TakesIn maxDigits n level ts node) (hle : n ≤ m) : TakesIn maxDigits m level ts node :=
  fun depth c d read findings hts hc hm hr hn hk =>
    h depth c d read findings hts hc hm hr (hle.trans hn) hk

/-- An expression that is taken in is read, if nothing that binds tighter follows. -/
theorem TakesIn.run {floor : Nat} {ts read : List Token} {node : Node} {c d : Cursor}
    (h : TakesIn maxDigits n floor ts node) (hhigh : floor ≤ Precedence.unary)
    (hts : ts = c.current :: read) (hc : c.Ready)
    (hm : c.Moves read d) (hr : Readable maxDigits ts) (hn : n < depth)
    (hk : d.peek.kind.precedence ≤ floor) :
    expression maxDigits depth floor ⟨c, findings⟩ = .ok node ⟨d, findings⟩ := by
  obtain ⟨depth, rfl⟩ : ∃ n, depth = n + 1 := ⟨depth - 1, by omega⟩
  have hle : floor ≤ Precedence.index := Nat.le_trans hhigh (by decide)
  obtain ⟨left, e, hop, hpass⟩ := h depth c d read findings hts hc hm hr (Nat.le_of_lt_succ hn)
    (Nat.le_trans hk (Precedence.le_follower hle))
  obtain ⟨bound, -, hclimb⟩ := hpass floor e.ahead.length (by omega) (Nat.le_refl _)
  unfold expression
  rw [bind_of_ok hop,
    bind_of_ok (show remaining ⟨e, findings⟩ = .ok e.ahead.length ⟨e, findings⟩ from rfl), hclimb]
  exact climb_stops _ _ _ hk

/-- What is a single token, or ends with its own bracket, is read as an operand. -/
theorem TakesIn.of_operand {level : Nat} {ts : List Token} {node : Node}
    (h : ∀ (depth : Nat) (c d : Cursor) (read : List Token) (findings : List Finding),
      ts = c.current :: read → c.Ready → c.Moves read d → Readable maxDigits ts →
      n ≤ depth → d.peek.kind.precedence ≤ Precedence.follower level →
      operand maxDigits (expression maxDigits depth) ⟨c, findings⟩ = .ok node ⟨d, findings⟩) :
    TakesIn maxDigits n level ts node :=
  fun depth c d read findings hts hc hm hr hn hk =>
    ⟨node, d, h depth c d read findings hts hc hm hr hn hk, .refl _ _ _ _ _⟩

/-- A list of expressions is read between its brackets. -/
def TakesList (maxDigits n : Nat) (ts : List Token) (nodes : List Node) : Prop :=
  ∀ (depth : Nat) (c d : Cursor) (stretch : List Token) (closing : Token) (findings : List Finding),
    ts = unbroken stretch → c.Ready → c.Moves (stretch ++ [closing]) d →
    Readable maxDigits stretch → n ≤ depth → closing.kind.isCloser →
    items (expression maxDigits depth Precedence.lowest) closing.kind ⟨c, findings⟩ =
      .ok nodes ⟨d, findings⟩

/-- A list of expressions is read inside its brackets: the first, and then the others. -/
def TakesItems (maxDigits n : Nat) (ts : List Token) (nodes : List Node) : Prop :=
  ∀ (depth : Nat) (c d : Cursor) (read : List Token) (findings : List Finding),
    ts = c.current :: read → c.Ready → c.groups ≠ 0 → c.Moves read d → Readable maxDigits ts →
    n ≤ depth → d.peek.kind.isCloser →
    ∃ node rest e, nodes = node :: rest ∧ e.ahead.length ≤ c.ahead.length ∧
      expression maxDigits depth Precedence.lowest ⟨c, findings⟩ = .ok node ⟨e, findings⟩ ∧
      ∀ bound, e.ahead.length ≤ bound →
        laterItems (expression maxDigits depth Precedence.lowest) bound ⟨e, findings⟩ =
          .ok rest ⟨d, findings⟩

/-! ## Brackets -/

/-- An expression in brackets is read. -/
theorem grouped_run {c d : Cursor} {stretch : List Token} {closing : Token} {node : Node}
    (hp : Phrase (.expression Precedence.lowest) (unbroken stretch) [node])
    (h : TakesIn maxDigits n Precedence.lowest (unbroken stretch) node) (hc : c.Ready)
    (hm : c.Moves (stretch ++ [closing]) d) (hr : Readable maxDigits stretch)
    (hn : n < depth) (hcl : closing.kind.isCloser) :
    grouped (expression maxDigits depth Precedence.lowest) closing.kind ⟨c, findings⟩ =
      .ok node ⟨d, findings⟩ := by
  obtain ⟨e, hme, hpeek, hadv⟩ := hm.enter (Kind.ne_endOfLine_of_isCloser hcl)
  obtain ⟨t, us, hts, ht⟩ := hp.exists_cons (by simp)
  rw [hts] at hme
  obtain ⟨hcur, hmus⟩ := hc.openGroup.advance_reads .nil
    (Kind.ne_endOfLine_of_startsExpression ht) hme
  have hex : expression maxDigits depth Precedence.lowest ⟨c.openGroup.advance, findings⟩ =
      .ok node ⟨e, findings⟩ :=
    h.run (by decide) (by rw [hts, hcur]) hc.openGroup.advance hmus hr.unbroken hn
      (by rw [hpeek, Kind.precedence_of_isCloser hcl])
  rw [← Outcome.run_iff]
  unfold grouped
  simp only [Outcome.bind_iff, move_iff, advance_iff, Outcome.iff_of_ok hex]
  refine (Outcome.iff_of_ok (expect_run ?_)).2 ⟨rfl, by rw [hadv]⟩
  show e.peek.kind = closing.kind
  rw [hpeek]

/-- An empty list is read between its brackets. -/
theorem takesList_none : TakesList maxDigits 0 [] [] := by
  intro depth c d stretch closing findings hst hc hm _ _ hcl
  obtain ⟨e, hme, hpeek, hadv⟩ := hm.enter (Kind.ne_endOfLine_of_isCloser hcl)
  rw [← hst] at hme
  rw [hme.eq] at hpeek hadv
  rw [← Outcome.run_iff]
  unfold items
  simp only [Outcome.bind_iff, move_iff, peekIs_iff, hpeek, Token.is, beq_self_eq_true, if_true,
    advance_iff, Outcome.pure_iff]
  exact ⟨trivial, by rw [hadv]⟩

/-- A list that is not empty is read between its brackets. -/
theorem takesList_some {ts : List Token} {nodes : List Node} (hp : Phrase .items ts nodes)
    (h : TakesItems maxDigits n ts nodes) : TakesList maxDigits n ts nodes := by
  intro depth c d stretch closing findings hst hc hm hr hn hcl
  obtain ⟨e, hme, hpeek, hadv⟩ := hm.enter (Kind.ne_endOfLine_of_isCloser hcl)
  obtain ⟨t, us, hts, ht⟩ := hp.exists_cons (by simp)
  rw [← hst, hts] at hme
  obtain ⟨hcur, hmus⟩ := hc.openGroup.advance_reads .nil
    (Kind.ne_endOfLine_of_startsExpression ht) hme
  have hdiff : c.openGroup.peek.kind ≠ closing.kind := by
    rw [hme.peek_eq]
    intro he
    rw [he] at ht
    revert hcl ht
    cases closing.kind <;> decide
  obtain ⟨node, rest, e', rfl, -, hex, hlater⟩ := h depth c.openGroup.advance e us findings
    (by rw [hts, hcur]) hc.openGroup.advance
    (by rw [Cursor.advance_groups]; exact Nat.succ_ne_zero c.groups) hmus
    (hst ▸ hr.unbroken) hn (by rw [hpeek]; exact hcl)
  rw [← Outcome.run_iff]
  unfold items
  simp only [Outcome.bind_iff, move_iff, peekIs_iff, Token.is, beq_iff_eq, hdiff, if_false,
    advance_iff, Outcome.iff_of_ok hex, remaining_iff, Outcome.iff_of_ok (hlater _ (Nat.le_refl _))]
  refine (Outcome.iff_of_ok (expect_run ?_)).2 ⟨rfl, by rw [hadv]⟩
  show e.peek.kind = closing.kind
  rw [hpeek]

/-- A single item is all of a list. -/
theorem takesItems_item {ts : List Token} {node : Node}
    (h : TakesIn maxDigits n Precedence.lowest ts node) : TakesItems maxDigits (n + 1) ts [node] := by
  intro depth c d read findings hts hc _ hm hr hn hcl
  have hex : expression maxDigits depth Precedence.lowest ⟨c, findings⟩ = .ok node ⟨d, findings⟩ :=
    h.run (by decide) hts hc hm hr hn (by rw [Kind.precedence_of_isCloser hcl])
  have hcomma : d.peek.kind ≠ .comma := by
    intro he
    rw [he] at hcl
    exact absurd hcl (by decide)
  refine ⟨node, [], d, rfl, Nat.le_trans (Nat.le_add_left _ _) hm.length_le, hex, ?_⟩
  intro bound _
  cases bound with
  | zero => rfl
  | succ bound =>
    rw [← Outcome.run_iff]
    unfold laterItems
    simp [Token.is, hcomma]

/-- After a comma the list goes on. -/
theorem takesItems_later {comma : Token} {ts us : List Token} {node : Node} {nodes : List Node}
    (hp : Phrase (.expression Precedence.lowest) ts [node]) (hk : comma.kind = .comma)
    (hps : Phrase .items us nodes) (h : TakesIn maxDigits n Precedence.lowest ts node)
    (hs : TakesItems maxDigits m us nodes) :
    TakesItems maxDigits (max (n + 1) m) (ts ++ comma :: us) (node :: nodes) := by
  intro depth c d read findings hts hc hg hm hr hn hcl
  obtain ⟨hitem, hitems⟩ := Nat.max_le.1 hn
  obtain ⟨t, ts, rfl, -⟩ := hp.exists_cons (by simp)
  obtain ⟨rfl, rfl⟩ := List.cons.inj hts
  obtain ⟨e, hme, hmd⟩ := hm.split
  have he := hp.ready (by simp) hc hme
  have hpeek := hmd.peek_eq
  have hex : expression maxDigits depth Precedence.lowest ⟨c, findings⟩ = .ok node ⟨e, findings⟩ :=
    h.run (by decide) rfl hc hme (hr.mono fun _ => List.mem_append_left _) hitem
      (by rw [hpeek, hk]; decide)
  obtain ⟨hcomma, hmu⟩ := he.advance_reads .nil (by rw [hk]; decide) hmd
  obtain ⟨u, us, rfl, hu⟩ := hps.exists_cons (by simp)
  obtain ⟨hcur, hmus⟩ := he.advance.advance_reads .nil
    (Kind.ne_endOfLine_of_startsExpression hu) hmu
  obtain ⟨next, rest, f, rfl, hshort, hnext, hrest⟩ := hs depth e.advance.advance d us findings
    (by rw [hcur]) he.advance.advance
    (by rw [Cursor.advance_groups, Cursor.advance_groups, hme.groups_eq]; exact hg) hmus
    (hr.mono fun _ hu => List.mem_append_right _ (List.mem_cons_of_mem _ hu)) hitems hcl
  refine ⟨node, _, e, rfl, Nat.le_trans (Nat.le_add_left _ _) hme.length_le, hex, ?_⟩
  intro bound hb
  have hstep := he.length_advance_of_moves hmd (by simp)
  have hstep' := Cursor.length_ahead_advance_le e.advance
  obtain ⟨bound, rfl⟩ : ∃ b, bound = b + 1 := ⟨bound - 1, by omega⟩
  rw [← Outcome.run_iff]
  unfold laterItems
  simp only [Outcome.bind_iff, peekIs_iff, Token.is, hpeek, hk, beq_self_eq_true, if_true,
    advance_iff, Outcome.iff_of_ok hnext, Outcome.iff_of_ok (hrest bound (by omega)),
    Outcome.pure_iff, and_self]

/-! ## Operands and operators -/

/-- A single token is read where it stands. -/
theorem takesIn_token {level : Nat} {t : Token} {node : Node}
    (h : ∀ (ex : Nat → Parse Node) (c : Cursor) (findings : List Finding), c.current = t →
      Readable maxDigits [t] → operand maxDigits ex ⟨c, findings⟩ = .ok node ⟨c, findings⟩) :
    TakesIn maxDigits 0 level [t] node := by
  refine .of_operand fun depth c d read findings hts _ hm hr _ _ => ?_
  obtain ⟨rfl, rfl⟩ := List.cons.inj hts
  rw [hm.eq]
  exact h _ c findings rfl hr

/-- A token that is an expression for itself. -/
theorem takesIn_leaf {level : Nat} {t : Token} {node : Node}
    (h : ∀ (ex : Nat → Parse Node) (s : ParseState), s.current = t →
      Outcome (operand maxDigits ex) s (fun n u => n = node ∧ u = s) fun _ _ => False) :
    TakesIn maxDigits 0 level [t] node :=
  takesIn_token fun ex c findings hc _ => Outcome.run_iff.1 (h ex ⟨c, findings⟩ hc)

theorem takesIn_int {t : Token} (ht : t.kind = .int) (hb : t.number < MachineInt.bound) :
    TakesIn maxDigits 0 Precedence.call [t] (.int t t.number) := by
  refine takesIn_token fun ex c findings hc hr => ?_
  subst hc
  have hshort : ¬ maxDigits < c.current.text.length := Nat.not_lt.2 (hr _ (by simp) ht)
  rw [← Nat.not_le] at hb
  unfold Token.number at *
  rw [← Outcome.run_iff]
  unfold operand integer
  simp only [Outcome.bind_iff, current_iff, ht, List.length_map, String.length_toList, hshort,
    if_false, hb, Outcome.pure_iff, and_self]

theorem takesIn_group {opening closing : Token} {ts : List Token} {node : Node}
    (ho : opening.kind = .lparen) (hcl : closing.kind = .rparen)
    (hp : Phrase (.expression Precedence.lowest) (unbroken ts) [node])
    (h : TakesIn maxDigits n Precedence.lowest (unbroken ts) node) :
    TakesIn maxDigits (n + 1) Precedence.call (opening :: (ts ++ [closing])) node := by
  refine .of_operand fun depth c d read findings hts hc hm hr hn _ => ?_
  obtain ⟨rfl, rfl⟩ := List.cons.inj hts
  have hrun : grouped (expression maxDigits depth Precedence.lowest) closing.kind ⟨c, findings⟩ =
      .ok node ⟨d, findings⟩ :=
    grouped_run hp h hc hm
      (hr.mono fun _ hu => List.mem_cons_of_mem _ (List.mem_append_left _ hu)) hn (by rw [hcl]; rfl)
  rw [hcl] at hrun
  rw [← Outcome.run_iff]
  unfold operand
  simp only [Outcome.bind_iff, current_iff, ho, Outcome.iff_of_ok hrun, and_self]

theorem takesIn_array {opening closing : Token} {ts : List Token} {nodes : List Node}
    (ho : opening.kind = .lbrack) (hcl : closing.kind = .rbrack)
    (h : TakesList maxDigits n (unbroken ts) nodes) :
    TakesIn maxDigits n Precedence.call (opening :: (ts ++ [closing])) (.array opening nodes) := by
  refine .of_operand fun depth c d read findings hts hc hm hr hn _ => ?_
  obtain ⟨rfl, rfl⟩ := List.cons.inj hts
  have hrun := h depth c d ts closing findings rfl hc hm
    (hr.mono fun _ hu => List.mem_cons_of_mem _ (List.mem_append_left _ hu)) hn (by rw [hcl]; rfl)
  rw [hcl] at hrun
  rw [← Outcome.run_iff]
  unfold operand
  simp only [Outcome.bind_iff, current_iff, ho, Outcome.iff_of_ok hrun, Outcome.pure_iff, and_self]

/-- What an operator in front of its operand makes of it. -/
theorem operand_of_isPrefix {ex : Nat → Parse Node} {c d : Cursor} {right : Node}
    (ho : c.current.kind.isPrefix)
    (h : ex Precedence.unary ⟨c.advance, findings⟩ = .ok right ⟨d, findings⟩) :
    operand maxDigits ex ⟨c, findings⟩ =
      .ok (.unary c.current c.current.text right) ⟨d, findings⟩ := by
  have hkinds : c.current.kind = .bang ∨ c.current.kind = .minus ∨ c.current.kind = .plus := by
    revert ho
    cases c.current.kind <;> decide
  rw [← Outcome.run_iff]
  unfold operand
  rcases hkinds with hk | hk | hk
  all_goals
    simp only [Outcome.bind_iff, current_iff, hk, advance_iff, Outcome.iff_of_ok h,
      Outcome.pure_iff, and_self]

theorem takesIn_unary {operator : Token} {gap ts : List Token} {right : Node}
    (ho : operator.kind.isPrefix) (hg : IsNewlines gap)
    (hp : Phrase (.expression Precedence.unary) ts [right])
    (h : TakesIn maxDigits n Precedence.unary ts right) :
    TakesIn maxDigits (n + 1) Precedence.unary (operator :: (gap ++ ts))
      (.unary operator operator.text right) := by
  refine .of_operand fun depth c d read findings hts hc hm hr hn hk => ?_
  obtain ⟨rfl, rfl⟩ := List.cons.inj hts
  obtain ⟨t, ts, rfl, ht⟩ := hp.exists_cons (by simp)
  obtain ⟨hcur, hmts⟩ := hc.advance_reads hg (Kind.ne_endOfLine_of_startsExpression ht) hm
  refine operand_of_isPrefix ho (h.run (Nat.le_refl _) (by rw [hcur]) hc.advance hmts ?_ hn hk)
  exact hr.mono fun _ hu => List.mem_cons_of_mem _ (List.mem_append_right _ hu)

/-- **What follows an expression is taken in after it**: one turn of the loop over operators. -/
theorem TakesIn.extend {level : Nat} {operator : Token} {fs more : List Token} {left node : Node}
    (hp : Phrase (.expression level) fs [left]) (hl : TakesIn maxDigits n level fs left)
    (hne : operator.kind ≠ .endOfLine)
    (hf : operator.kind.precedence ≤ Precedence.follower level)
    (hlow : min level Precedence.unary < operator.kind.precedence)
    (h : ∀ (depth : Nat) (c d : Cursor) (findings : List Finding), c.Ready → c.current = operator →
      c.Moves more d → Readable maxDigits more → m ≤ depth →
      d.peek.kind.precedence ≤ Precedence.follower level →
      continuation (expression maxDigits depth) left ⟨c, findings⟩ = .ok node ⟨d, findings⟩) :
    TakesIn maxDigits (max n m) level (fs ++ operator :: more) node := by
  intro depth c d read findings hts hc hm hr hn hk
  obtain ⟨hleft, hright⟩ := Nat.max_le.1 hn
  obtain ⟨t, fs, rfl, -⟩ := hp.exists_cons (by simp)
  obtain ⟨rfl, rfl⟩ := List.cons.inj hts
  obtain ⟨e, hme, hmd⟩ := hm.split
  have he := hp.ready (by simp) hc hme
  have hpeek := hmd.peek_eq
  obtain ⟨left', f, hop, hpass⟩ := hl depth c e fs findings rfl hc hme
    (hr.mono fun _ => List.mem_append_left _) hleft (by rw [hpeek]; exact hf)
  obtain ⟨hcur, hmore⟩ := he.advance_reads .nil hne hmd
  refine ⟨left', f, hop, hpass.trans (.turn (by rw [hpeek]; exact hlow) ?_ ?_)⟩
  · have := hmd.length_le
    simp only [List.length_cons] at this
    omega
  · exact h depth e.advance d findings he.advance hcur hmore
      (hr.mono fun _ hu => List.mem_append_right _ (List.mem_cons_of_mem _ hu)) hright hk

theorem takesIn_call {opening closing : Token} {fs ts : List Token} {callee : Node}
    {nodes : List Node} (hf : Phrase (.expression Precedence.call) fs [callee])
    (ho : opening.kind = .lparen) (hcl : closing.kind = .rparen)
    (h : TakesIn maxDigits n Precedence.call fs callee)
    (hs : TakesList maxDigits m (unbroken ts) nodes) :
    TakesIn maxDigits (max n m) Precedence.call (fs ++ opening :: (ts ++ [closing]))
      (.call opening callee nodes) := by
  refine h.extend hf (by rw [ho]; decide) (by rw [ho]; decide) (by rw [ho]; decide) ?_
  intro depth c d findings hc hcur hm hr hn _
  have hrun := hs depth c d ts closing findings rfl hc hm
    (hr.mono fun _ => List.mem_append_left _) hn (by rw [hcl]; rfl)
  rw [hcl] at hrun
  rw [← Outcome.run_iff]
  unfold continuation
  simp only [Outcome.bind_iff, current_iff, hcur, ho, Outcome.iff_of_ok hrun, Outcome.pure_iff,
    and_self]

theorem takesIn_index {opening closing : Token} {ls ts : List Token} {left place : Node}
    (hl : Phrase (.expression Precedence.call) ls [left]) (ho : opening.kind = .lbrack)
    (hcl : closing.kind = .rbrack)
    (hp : Phrase (.expression Precedence.lowest) (unbroken ts) [place])
    (h : TakesIn maxDigits n Precedence.call ls left)
    (hs : TakesIn maxDigits m Precedence.lowest (unbroken ts) place) :
    TakesIn maxDigits (max n (m + 1)) Precedence.call (ls ++ opening :: (ts ++ [closing]))
      (.index opening left place) := by
  refine h.extend hl (by rw [ho]; decide) (by rw [ho]; decide) (by rw [ho]; decide) ?_
  intro depth c d findings hc hcur hm hr hn _
  have hrun : grouped (expression maxDigits depth Precedence.lowest) closing.kind ⟨c, findings⟩ =
      .ok place ⟨d, findings⟩ :=
    grouped_run hp hs hc hm (hr.mono fun _ => List.mem_append_left _) hn (by rw [hcl]; rfl)
  rw [hcl] at hrun
  rw [← Outcome.run_iff]
  unfold continuation
  simp only [Outcome.bind_iff, current_iff, hcur, ho, Outcome.iff_of_ok hrun, Outcome.pure_iff,
    and_self]

/-- An operator between operands takes the expression behind it, at its own precedence. -/
theorem continuation_of_operator {ex : Nat → Parse Node} {c d : Cursor} {left right : Node}
    (hp : c.current.kind.precedence ≤ Precedence.product)
    (h : ex c.current.kind.precedence ⟨c.advance, findings⟩ = .ok right ⟨d, findings⟩) :
    continuation ex left ⟨c, findings⟩ =
      .ok (.binary c.current left c.current.text right) ⟨d, findings⟩ := by
  rw [← Outcome.run_iff]
  unfold continuation
  simp only [Outcome.bind_iff, current_iff]
  split
  · next hk => exact absurd hp (by rw [hk]; decide)
  · next hk => exact absurd hp (by rw [hk]; decide)
  · simp only [Outcome.bind_iff, advance_iff, Outcome.iff_of_ok h, Outcome.pure_iff, and_self]

theorem takesIn_binary {operator : Token} {floor : Nat} {gap ls rs : List Token} {left right : Node}
    (hf : Precedence.lowest ≤ floor) (ho : operator.kind.precedence = floor + 1)
    (hp : operator.kind.precedence ≤ Precedence.product) (hg : IsNewlines gap)
    (hl : Phrase (.expression floor) ls [left]) (hr : Phrase (.expression (floor + 1)) rs [right])
    (h : TakesIn maxDigits n floor ls left) (h' : TakesIn maxDigits m (floor + 1) rs right) :
    TakesIn maxDigits (max n (m + 1)) floor (ls ++ operator :: (gap ++ rs))
      (.binary operator left operator.text right) := by
  have hfloor : floor < Precedence.unary := by
    rw [ho] at hp
    unfold Precedence.product at hp
    unfold Precedence.unary
    omega
  have hfollow : Precedence.follower floor = floor + 1 := by
    unfold Precedence.follower
    rw [if_pos hfloor]
  have hne : operator.kind ≠ .endOfLine := by
    intro hk
    rw [hk] at ho
    have : Kind.endOfLine.precedence = Precedence.lowest := rfl
    omega
  refine h.extend hl hne (by rw [ho, hfollow]) (by omega) ?_
  intro depth c d findings hc hcur hm hread hn hk
  subst hcur
  obtain ⟨t, rs, rfl, ht⟩ := hr.exists_cons (by simp)
  obtain ⟨hcur, hmrs⟩ := hc.advance_reads hg (Kind.ne_endOfLine_of_startsExpression ht) hm
  refine continuation_of_operator hp ?_
  rw [ho]
  exact h'.run hfloor (by rw [hcur]) hc.advance hmrs (hread.mono fun _ => List.mem_append_right _)
    hn (by rw [← hfollow]; exact hk)

/-! ## All phrases -/

/-- What the parser does with a phrase, with at most `n` levels of nesting below. -/
def Takes (maxDigits n : Nat) : PhraseKind → List Token → List Node → Prop
  | .expression level, ts, nodes => ∀ node, nodes = [node] → TakesIn maxDigits n level ts node
  | .items, ts, nodes => TakesItems maxDigits n ts nodes
  | .list, ts, nodes => TakesList maxDigits n ts nodes

theorem Takes.deeper {kind : PhraseKind} {ts : List Token} {nodes : List Node}
    (h : Takes maxDigits n kind ts nodes) (hle : n ≤ m) : Takes maxDigits m kind ts nodes := by
  cases kind with
  | expression level => exact fun node hnode => TakesIn.deeper (h node hnode) hle
  | items =>
    exact fun depth c d read findings hts hc hg hm hr hn =>
      h depth c d read findings hts hc hg hm hr (hle.trans hn)
  | list =>
    exact fun depth c d stretch closing findings hst hc hm hr hn =>
      h depth c d stretch closing findings hst hc hm hr (hle.trans hn)

end Parse

/-- **A phrase that is read with at most `n` levels of nesting below**, whatever the limit on
numerals. -/
structure Phrase.Within (n : Nat) (kind : PhraseKind) (ts : List Token) (nodes : List Node) :
    Prop where
  phrase : Phrase kind ts nodes
  takes (maxDigits : Nat) : Parse.Takes maxDigits n kind ts nodes

namespace Phrase.Within

open Parse

variable {n m level : Nat} {kind : PhraseKind} {t opening closing operator comma : Token}
  {gap ts us : List Token} {a b : Node} {nodes : List Node}

theorem deeper (h : Within n kind ts nodes) (hle : n ≤ m) : Within m kind ts nodes :=
  ⟨h.phrase, fun maxDigits => (h.takes maxDigits).deeper hle⟩

theorem takesIn (h : Within n (.expression level) ts [a]) (maxDigits : Nat) :
    TakesIn maxDigits n level ts a :=
  h.takes maxDigits a rfl

theorem of_takesIn (h : Phrase (.expression level) ts [a])
    (htakes : ∀ maxDigits, TakesIn maxDigits n level ts a) : Within n (.expression level) ts [a] := by
  refine ⟨h, fun maxDigits node hnode => ?_⟩
  obtain rfl : a = node := by simpa using hnode
  exact htakes maxDigits

theorem loosen {low high : Nat} (hle : low ≤ high) (h : Within n (.expression high) ts nodes) :
    Within n (.expression low) ts nodes := by
  refine ⟨.loosen hle h.phrase, ?_⟩
  intro maxDigits node hnode depth c d read findings hts hc hm hr hn hk
  obtain ⟨left, e, hop, hpass⟩ := h.takes maxDigits node hnode depth c d read findings hts hc hm hr hn
    (Nat.le_trans hk (Precedence.follower_mono hle))
  exact ⟨left, e, hop, hpass.mono hle⟩

/-- A token that is an expression for itself. -/
theorem leaf (h : Phrase (.expression level) [t] [a])
    (hrun : ∀ (maxDigits : Nat) (ex : Nat → Parse Node) (s : ParseState), s.current = t →
      Outcome (operand maxDigits ex) s (fun n u => n = a ∧ u = s) fun _ _ => False) :
    Within 0 (.expression level) [t] [a] :=
  of_takesIn h fun maxDigits => takesIn_leaf (hrun maxDigits)

theorem ident (ht : t.kind = .ident) : Within 0 (.expression Precedence.call) [t] [.ident t.toIdent] :=
  leaf (.ident ht) fun maxDigits ex s hs => by simp [operand, hs, ht, Token.toIdent]

theorem int (ht : t.kind = .int) (hb : t.number < MachineInt.bound) :
    Within 0 (.expression Precedence.call) [t] [.int t t.number] :=
  of_takesIn (.int ht hb) fun _ => takesIn_int ht hb

theorem string (ht : t.kind = .string) : Within 0 (.expression Precedence.call) [t] [.string t t.text] :=
  leaf (.string ht) fun maxDigits ex s hs => by simp [operand, hs, ht]

theorem true (ht : t.kind = .kwTrue) :
    Within 0 (.expression Precedence.call) [t] [.bool t Bool.true] :=
  leaf (.true ht) fun maxDigits ex s hs => by simp [operand, hs, ht]

theorem false (ht : t.kind = .kwFalse) :
    Within 0 (.expression Precedence.call) [t] [.bool t Bool.false] :=
  leaf (.false ht) fun maxDigits ex s hs => by simp [operand, hs, ht]

theorem null (ht : t.kind = .kwNull) : Within 0 (.expression Precedence.call) [t] [.null t] :=
  leaf (.null ht) fun maxDigits ex s hs => by simp [operand, hs, ht]

theorem group (ho : opening.kind = .lparen) (hcl : closing.kind = .rparen)
    (h : Within n (.expression Precedence.lowest) (unbroken ts) [a]) :
    Within (n + 1) (.expression Precedence.call) (opening :: (ts ++ [closing])) [a] :=
  of_takesIn (.group ho hcl h.phrase) fun maxDigits =>
    takesIn_group ho hcl h.phrase (h.takesIn maxDigits)

theorem array (ho : opening.kind = .lbrack) (hcl : closing.kind = .rbrack)
    (h : Within n .list (unbroken ts) nodes) :
    Within n (.expression Precedence.call) (opening :: (ts ++ [closing])) [.array opening nodes] :=
  of_takesIn (.array ho hcl h.phrase) fun maxDigits => takesIn_array ho hcl (h.takes maxDigits)

theorem call (hf : Within n (.expression Precedence.call) us [a]) (ho : opening.kind = .lparen)
    (hcl : closing.kind = .rparen) (h : Within m .list (unbroken ts) nodes) :
    Within (max n m) (.expression Precedence.call) (us ++ opening :: (ts ++ [closing]))
      [.call opening a nodes] :=
  of_takesIn (.call hf.phrase ho hcl h.phrase) fun maxDigits =>
    takesIn_call hf.phrase ho hcl (hf.takesIn maxDigits) (h.takes maxDigits)

theorem index (hl : Within n (.expression Precedence.call) us [a]) (ho : opening.kind = .lbrack)
    (hcl : closing.kind = .rbrack) (h : Within m (.expression Precedence.lowest) (unbroken ts) [b]) :
    Within (max n (m + 1)) (.expression Precedence.call) (us ++ opening :: (ts ++ [closing]))
      [.index opening a b] :=
  of_takesIn (.index hl.phrase ho hcl h.phrase) fun maxDigits =>
    takesIn_index hl.phrase ho hcl h.phrase (hl.takesIn maxDigits) (h.takesIn maxDigits)

theorem unary (ho : operator.kind.isPrefix) (hg : IsNewlines gap)
    (h : Within n (.expression Precedence.unary) ts [a]) :
    Within (n + 1) (.expression Precedence.unary) (operator :: (gap ++ ts))
      [.unary operator operator.text a] :=
  of_takesIn (.unary ho hg h.phrase) fun maxDigits =>
    takesIn_unary ho hg h.phrase (h.takesIn maxDigits)

theorem binary {floor : Nat} (hf : Precedence.lowest ≤ floor)
    (ho : operator.kind.precedence = floor + 1) (hp : operator.kind.precedence ≤ Precedence.product)
    (hg : IsNewlines gap) (hl : Within n (.expression floor) us [a])
    (hr : Within m (.expression (floor + 1)) ts [b]) :
    Within (max n (m + 1)) (.expression floor) (us ++ operator :: (gap ++ ts))
      [.binary operator a operator.text b] :=
  of_takesIn (.binary hf ho hp hg hl.phrase hr.phrase) fun maxDigits =>
    takesIn_binary hf ho hp hg hl.phrase hr.phrase (hl.takesIn maxDigits) (hr.takesIn maxDigits)

theorem item (h : Within n (.expression Precedence.lowest) ts [a]) : Within (n + 1) .items ts [a] :=
  ⟨.item h.phrase, fun maxDigits => takesItems_item (h.takesIn maxDigits)⟩

theorem later (h : Within n (.expression Precedence.lowest) ts [a]) (hk : comma.kind = .comma)
    (hs : Within m .items us nodes) : Within (max (n + 1) m) .items (ts ++ comma :: us) (a :: nodes) :=
  ⟨.later h.phrase hk hs.phrase, fun maxDigits =>
    takesItems_later h.phrase hk hs.phrase (h.takesIn maxDigits) (hs.takes maxDigits)⟩

theorem none : Within 0 .list [] [] :=
  ⟨.none, fun _ => takesList_none⟩

theorem some (h : Within n .items ts nodes) : Within n .list ts nodes :=
  ⟨.some h.phrase, fun maxDigits => takesList_some h.phrase (h.takes maxDigits)⟩

end Phrase.Within

/-- As many levels as suffice for some tokens of a phrase, whatever phrase they are. -/
def PhraseKind.levels : PhraseKind → List Token → Nat
  | .expression _, ts => ts.length - 1
  | _, ts => ts.length

/-- **Every phrase is read**, with fewer levels of nesting than it has tokens. -/
theorem Phrase.within {kind : PhraseKind} {ts : List Token} {nodes : List Node}
    (h : Phrase kind ts nodes) : Within (kind.levels ts) kind ts nodes := by
  induction h with
  | loosen hle _ ih => exact ih.loosen hle
  | ident ht => exact .ident ht
  | int ht hb => exact .int ht hb
  | string ht => exact .string ht
  | true ht => exact .true ht
  | false ht => exact .false ht
  | null ht => exact .null ht
  | @group _ _ ts _ ho hcl _ ih =>
    have := length_unbroken_le ts
    refine (ih.group ho hcl).deeper ?_
    simp only [PhraseKind.levels, List.length_append, List.length_cons]
    omega
  | @array _ _ ts _ ho hcl _ ih =>
    have := length_unbroken_le ts
    refine (ih.array ho hcl).deeper ?_
    simp only [PhraseKind.levels, List.length_append, List.length_cons]
    omega
  | @call _ _ _ ts _ _ _ ho hcl _ ihf ih =>
    have := length_unbroken_le ts
    refine (ihf.call ho hcl ih).deeper ?_
    simp only [PhraseKind.levels, List.length_append, List.length_cons]
    omega
  | @index _ _ _ ts _ _ _ ho hcl _ ihl ih =>
    have := length_unbroken_le ts
    refine (ihl.index ho hcl ih).deeper ?_
    simp only [PhraseKind.levels, List.length_append, List.length_cons]
    omega
  | unary ho hg hp ih =>
    have := List.length_pos_iff.2 hp.ne_nil
    refine (ih.unary ho hg).deeper ?_
    simp only [PhraseKind.levels, List.length_append, List.length_cons]
    omega
  | binary hf ho hp hg hl _ ihl ihr =>
    have := List.length_pos_iff.2 hl.ne_nil
    refine (ihl.binary hf ho hp hg ihr).deeper ?_
    simp only [PhraseKind.levels, List.length_append, List.length_cons]
    omega
  | item hp ih =>
    have := List.length_pos_iff.2 hp.ne_nil
    refine ih.item.deeper ?_
    simp only [PhraseKind.levels]
    omega
  | later _ hk _ ih ihs =>
    refine (ih.later hk ihs).deeper ?_
    simp only [PhraseKind.levels, List.length_append, List.length_cons]
    omega
  | none => exact .none
  | some _ ih => exact ih.some

end LimLang
