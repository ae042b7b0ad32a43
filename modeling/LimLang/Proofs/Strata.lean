import LimLang.Proofs.ExpressionCompleteness

/-! # The strata of expressions

The grammar of expressions once more, without newlines and without numbers for how tightly an operator
binds.  Expressions form six *strata*, from comparisons for equality down to calls and indices.  The
operators of a stratum stand between an expression of the same stratum on the left and one of the next
on the right, so they group to the left.  Operators in front of their operand may be repeated.  Calls
and indices follow their operand, and neither binds tighter than the other.

On tokens without newlines this is the grammar of phrases (`Derives.phrase`, `Phrase.derives`), so the
parser of expressions is exact for it, at every precedence it is called with: what it reads, newlines
left out, derives the tree it returns, and what derives a tree is read, if nothing follows that the
stratum takes in.
-/
namespace LimLang

open Cursor (isNewline)

/-- **The strata of expressions**, from the loosest to the tightest. -/
inductive Stratum where
  | equality
  | order
  | sum
  | product
  /-- Operators in front of their operand. -/
  | sign
  /-- Calls and indices. -/
  | application
  deriving DecidableEq

namespace Stratum

/-- The operators between operands. -/
def operators : Stratum → List Kind
  | equality => [.eq, .notEq]
  | order => [.lt, .gt, .ltEq, .gtEq]
  | sum => [.plus, .minus]
  | product => [.asterisk, .slash, .modulus]
  | sign => []
  | application => []

/-- The next tighter stratum.  There is none after the last. -/
def next : Stratum → Stratum
  | equality => order
  | order => sum
  | sum => product
  | product => sign
  | sign => application
  | application => application

/-- The place of a stratum among the strata. -/
def rank : Stratum → Nat
  | equality => 0
  | order => 1
  | sum => 2
  | product => 3
  | sign => 4
  | application => 5

/-- **What makes an expression longer when it follows one**: an operator of the stratum or of a
tighter one, and what opens a call or an index. -/
def GoesOnWith (stratum : Stratum) (kind : Kind) : Prop :=
  kind = .lparen ∨ kind = .lbrack ∨ ∃ s : Stratum, stratum.rank ≤ s.rank ∧ kind ∈ s.operators

end Stratum

/-- The tree of a token that is an expression for itself. -/
def Token.leaf? (t : Token) : Option Node :=
  match t.kind with
  | .ident => some (.ident t.toIdent)
  | .int => if t.number < MachineInt.bound then some (.int t t.number) else none
  | .string => some (.string t t.text)
  | .kwTrue => some (.bool t true)
  | .kwFalse => some (.bool t false)
  | .kwNull => some (.null t)
  | _ => none

/-- What is derived. -/
inductive Form where
  | expression (stratum : Stratum)
  /-- One or more expressions, separated by commas. -/
  | items
  /-- Any number of expressions, separated by commas. -/
  | list

/-- **Tokens derive trees**, stratum by stratum. -/
inductive Derives : Form → List Token → List Node → Prop
  | leaf {t : Token} {node : Node} (h : t.leaf? = some node) :
      Derives (.expression .application) [t] [node]
  | group {opening closing : Token} {ts : List Token} {node : Node} (ho : opening.kind = .lparen)
      (hc : closing.kind = .rparen) (h : Derives (.expression .equality) ts [node]) :
      Derives (.expression .application) (opening :: (ts ++ [closing])) [node]
  | array {opening closing : Token} {ts : List Token} {nodes : List Node}
      (ho : opening.kind = .lbrack) (hc : closing.kind = .rbrack) (h : Derives .list ts nodes) :
      Derives (.expression .application) (opening :: (ts ++ [closing])) [.array opening nodes]
  | call {opening closing : Token} {fs ts : List Token} {callee : Node} {nodes : List Node}
      (hf : Derives (.expression .application) fs [callee]) (ho : opening.kind = .lparen)
      (hc : closing.kind = .rparen) (h : Derives .list ts nodes) :
      Derives (.expression .application) (fs ++ opening :: (ts ++ [closing]))
        [.call opening callee nodes]
  | index {opening closing : Token} {ls ts : List Token} {left place : Node}
      (hl : Derives (.expression .application) ls [left]) (ho : opening.kind = .lbrack)
      (hc : closing.kind = .rbrack) (h : Derives (.expression .equality) ts [place]) :
      Derives (.expression .application) (ls ++ opening :: (ts ++ [closing]))
        [.index opening left place]
  | sign {operator : Token} {ts : List Token} {right : Node}
      (ho : operator.kind ∈ [Kind.bang, .minus, .plus])
      (h : Derives (.expression .sign) ts [right]) :
      Derives (.expression .sign) (operator :: ts) [.unary operator operator.text right]
  | binary {stratum : Stratum} {operator : Token} {ls rs : List Token} {left right : Node}
      (ho : operator.kind ∈ stratum.operators) (hl : Derives (.expression stratum) ls [left])
      (hr : Derives (.expression stratum.next) rs [right]) :
      Derives (.expression stratum) (ls ++ operator :: rs)
        [.binary operator left operator.text right]
  /-- What is tighter need not be. -/
  | tighter {stratum : Stratum} {ts : List Token} {nodes : List Node}
      (h : Derives (.expression stratum.next) ts nodes) : Derives (.expression stratum) ts nodes
  | item {ts : List Token} {node : Node} (h : Derives (.expression .equality) ts [node]) :
      Derives .items ts [node]
  | later {comma : Token} {ts us : List Token} {node : Node} {nodes : List Node}
      (h : Derives (.expression .equality) ts [node]) (hc : comma.kind = .comma)
      (hs : Derives .items us nodes) : Derives .items (ts ++ comma :: us) (node :: nodes)
  | none : Derives .list [] []
  | some {ts : List Token} {nodes : List Node} (h : Derives .items ts nodes) : Derives .list ts nodes

/-! ## Strata and precedences -/

namespace Stratum

/-- The loosest stratum whose operators all bind tighter than `precedence`. -/
def above (precedence : Nat) : Stratum :=
  if precedence ≤ Precedence.lowest then equality
  else if precedence ≤ Precedence.equals then order
  else if precedence ≤ Precedence.lessGreater then sum
  else if precedence ≤ Precedence.sum then product
  else if precedence ≤ Precedence.unary then sign
  else application

/-- The tightest precedence that all operators of a stratum bind tighter than. -/
def floor : Stratum → Nat
  | equality => Precedence.lowest
  | order => Precedence.equals
  | sum => Precedence.lessGreater
  | product => Precedence.sum
  | sign => Precedence.unary
  | application => Precedence.call

theorem floor_le_next (stratum : Stratum) : stratum.floor ≤ stratum.next.floor := by
  cases stratum <;> decide

/-- Only the last stratum is its own next. -/
theorem eq_or_rank_next (stratum : Stratum) :
    stratum = application ∨ stratum.next.rank = stratum.rank + 1 := by
  cases stratum <;> first | exact .inl rfl | exact .inr rfl

theorem eq_of_rank_eq {s t : Stratum} (h : s.rank = t.rank) : s = t := by
  revert h
  cases s <;> cases t <;> decide

theorem rank_le (stratum : Stratum) : stratum.rank ≤ application.rank := by
  cases stratum <;> decide

/-- **A stratum is above a precedence as far as the precedence is not above its floor.** -/
theorem rank_above_le_iff {precedence : Nat} (h : precedence ≤ Precedence.unary)
    (stratum : Stratum) : (above precedence).rank ≤ stratum.rank ↔ precedence ≤ stratum.floor := by
  unfold Precedence.unary at h
  unfold above Precedence.lowest Precedence.equals Precedence.lessGreater Precedence.sum
    Precedence.unary
  cases stratum <;> simp only [floor, rank, Precedence.lowest, Precedence.equals,
    Precedence.lessGreater, Precedence.sum, Precedence.unary, Precedence.call] <;>
    split_ifs <;> simp only [] <;> omega

theorem rank_above_mono {low high : Nat} (h : low ≤ high) :
    (above low).rank ≤ (above high).rank := by
  unfold above Precedence.lowest Precedence.equals Precedence.lessGreater Precedence.sum
    Precedence.unary
  split_ifs <;> first | decide | omega

/-- The operators of a stratum bind just tighter than its floor. -/
theorem precedence_of_mem {stratum : Stratum} {kind : Kind} (h : kind ∈ stratum.operators) :
    kind.precedence = stratum.floor + 1 ∧ kind.precedence ≤ Precedence.product ∧
      stratum.floor + 1 ≤ stratum.next.floor := by
  cases stratum <;> simp only [operators, List.mem_cons, List.not_mem_nil, or_false] at h
  · rcases h with rfl | rfl <;> decide
  · rcases h with rfl | rfl | rfl | rfl <;> decide
  · rcases h with rfl | rfl <;> decide
  · rcases h with rfl | rfl | rfl <;> decide

/-- Whatever binds is an operator of the stratum just above what it binds tighter than, or opens a
call or an index. -/
theorem mem_of_precedence {kind : Kind} {precedence : Nat} (hlow : Precedence.lowest ≤ precedence)
    (h : kind.precedence = precedence + 1) (hhigh : kind.precedence ≤ Precedence.product) :
    kind ∈ (above precedence).operators ∧ above (precedence + 1) = (above precedence).next := by
  obtain rfl : precedence = kind.precedence - 1 := by omega
  revert hlow h hhigh
  cases kind <;> decide

/-- **A stratum takes in what binds tighter than the precedence it is above.** -/
theorem goesOnWith_iff {precedence : Nat} (hlow : Precedence.lowest ≤ precedence)
    (hhigh : precedence ≤ Precedence.unary) (kind : Kind) :
    (above precedence).GoesOnWith kind ↔ precedence < kind.precedence := by
  constructor
  · rintro (rfl | rfl | ⟨s, hs, hk⟩)
    · exact Nat.lt_of_le_of_lt hhigh (by decide)
    · exact Nat.lt_of_le_of_lt hhigh (by decide)
    · have hfloor := (rank_above_le_iff hhigh s).1 hs
      have hkind := (precedence_of_mem hk).1
      omega
  · intro h
    by_cases hp : kind = .lparen
    · exact .inl hp
    by_cases hb : kind = .lbrack
    · exact .inr (.inl hb)
    have hle := Kind.precedence_le_product hp hb
    have hpred : kind.precedence = (kind.precedence - 1) + 1 := by omega
    have hmem := mem_of_precedence (by omega) hpred hle
    exact .inr (.inr ⟨_, rank_above_mono (by omega), hmem.1⟩)

end Stratum

/-! ## Strata and phrases -/

theorem Token.leaf?_kind {t : Token} {node : Node} (h : t.leaf? = some node) :
    t.kind ≠ .endOfLine := by
  intro hk
  rw [leaf?, hk] at h
  cases h

theorem Stratum.ne_endOfLine_of_mem {stratum : Stratum} {kind : Kind}
    (h : kind ∈ stratum.operators) : kind ≠ .endOfLine := by
  rintro rfl
  cases stratum <;> cases (precedence_of_mem h).1

namespace Derives

/-- No newline derives anything. -/
theorem ne_endOfLine {form : Form} {ts : List Token} {nodes : List Node} (h : Derives form ts nodes) :
    ∀ t ∈ ts, t.kind ≠ .endOfLine := by
  induction h with
  | leaf h => simpa using Token.leaf?_kind h
  | group ho hc _ ih =>
    simp only [List.forall_mem_cons, List.forall_mem_append]
    exact ⟨by simp [ho], ih, by simp [hc]⟩
  | array ho hc _ ih =>
    simp only [List.forall_mem_cons, List.forall_mem_append]
    exact ⟨by simp [ho], ih, by simp [hc]⟩
  | call _ ho hc _ ihf ih =>
    simp only [List.forall_mem_cons, List.forall_mem_append]
    exact ⟨ihf, by simp [ho], ih, by simp [hc]⟩
  | index _ ho hc _ ihl ih =>
    simp only [List.forall_mem_cons, List.forall_mem_append]
    exact ⟨ihl, by simp [ho], ih, by simp [hc]⟩
  | sign ho _ ih =>
    refine List.forall_mem_cons.2 ⟨?_, ih⟩
    intro hk
    rw [hk] at ho
    exact absurd ho (by decide)
  | binary ho _ _ ihl ihr =>
    simp only [List.forall_mem_cons, List.forall_mem_append]
    exact ⟨ihl, Stratum.ne_endOfLine_of_mem ho, ihr⟩
  | tighter _ ih => exact ih
  | item _ ih => exact ih
  | later _ hc _ ih ihs =>
    simp only [List.forall_mem_cons, List.forall_mem_append]
    exact ⟨ih, by simp [hc], ihs⟩
  | none => simp
  | some _ ih => exact ih

theorem unbroken_eq {form : Form} {ts : List Token} {nodes : List Node}
    (h : Derives form ts nodes) : unbroken ts = ts :=
  unbroken_eq_self h.ne_endOfLine

theorem loosen {low high : Stratum} {ts : List Token} {nodes : List Node}
    (hle : low.rank ≤ high.rank) (h : Derives (.expression high) ts nodes) :
    Derives (.expression low) ts nodes := by
  induction hn : high.rank - low.rank generalizing low with
  | zero =>
    obtain rfl := Stratum.eq_of_rank_eq (show low.rank = high.rank by omega)
    exact h
  | succ n ih =>
    rcases low.eq_or_rank_next with rfl | hnext
    · have := high.rank_le
      omega
    · exact .tighter (ih (by omega) (by omega))

end Derives

/-- What a form is among the phrases. -/
def Form.kind : Form → PhraseKind
  | expression stratum => .expression stratum.floor
  | items => .items
  | list => .list

theorem Token.phrase_of_leaf? {t : Token} {node : Node} (h : t.leaf? = some node) :
    Phrase (.expression Precedence.call) [t] [node] := by
  unfold leaf? at h
  split at h
  · next hk =>
    obtain rfl := Option.some.inj h
    exact .ident hk
  · next hk =>
    split at h
    · next hb =>
      obtain rfl := Option.some.inj h
      exact .int hk hb
    · cases h
  · next hk =>
    obtain rfl := Option.some.inj h
    exact .string hk
  · next hk =>
    obtain rfl := Option.some.inj h
    exact .true hk
  · next hk =>
    obtain rfl := Option.some.inj h
    exact .false hk
  · next hk =>
    obtain rfl := Option.some.inj h
    exact .null hk
  · cases h

/-- **What tokens derive is a phrase.** -/
theorem Derives.phrase {form : Form} {ts : List Token} {nodes : List Node}
    (h : Derives form ts nodes) : Phrase form.kind ts nodes := by
  induction h with
  | leaf h => exact Token.phrase_of_leaf? h
  | group ho hc h ih => exact .group ho hc (h.unbroken_eq.symm ▸ ih)
  | array ho hc h ih => exact .array ho hc (h.unbroken_eq.symm ▸ ih)
  | call _ ho hc h ihf ih => exact .call ihf ho hc (h.unbroken_eq.symm ▸ ih)
  | index _ ho hc h ihl ih => exact .index ihl ho hc (h.unbroken_eq.symm ▸ ih)
  | @sign operator _ _ ho _ ih =>
    have hp : operator.kind.isPrefix := by
      revert ho
      cases operator.kind <;> decide
    exact (Phrase.unary hp IsNewlines.nil ih :)
  | @binary stratum _ _ _ _ _ ho _ _ ihl ihr =>
    obtain ⟨hp, hle, hnext⟩ := Stratum.precedence_of_mem ho
    have hlow : Precedence.lowest ≤ stratum.floor := by cases stratum <;> decide
    exact (Phrase.binary hlow hp hle IsNewlines.nil ihl (ihr.loosen hnext) :)
  | @tighter stratum _ _ _ ih => exact ih.loosen stratum.floor_le_next
  | item _ ih => exact .item ih
  | later _ hc _ ih ihs => exact .later ih hc ihs
  | none => exact .none
  | some _ ih => exact .some ih

/-- What a phrase is among the forms. -/
def PhraseKind.form : PhraseKind → Form
  | expression floor => .expression (.above floor)
  | items => .items
  | list => .list

/-- **A phrase without its newlines derives its tree.** -/
theorem Phrase.derives {kind : PhraseKind} {ts : List Token} {nodes : List Node}
    (h : Phrase kind ts nodes) : Derives kind.form (unbroken ts) nodes := by
  have keep : ∀ {t : Token} {kind : Kind}, t.kind = kind → kind ≠ .endOfLine → ∀ us,
      unbroken (t :: us) = t :: unbroken us := by
    rintro t _ rfl hk us
    exact unbroken_cons hk us
  have single : ∀ {t : Token} {node : Node}, t.leaf? = Option.some node →
      Derives (.expression .application) (unbroken [t]) [node] := by
    intro t node h
    rw [unbroken_cons (Token.leaf?_kind h)]
    exact .leaf h
  -- What stands in brackets has lost its newlines already.
  have bracketed : ∀ {opening closing : Token} {us : List Token}, opening.kind ≠ .endOfLine →
      closing.kind ≠ .endOfLine →
      unbroken (opening :: (us ++ [closing])) = opening :: (unbroken us ++ [closing]) := by
    intro opening closing us ho hc
    rw [unbroken_cons ho, unbroken_append, unbroken_cons hc]
    rfl
  induction h with
  | loosen hle _ ih => exact ih.loosen (Stratum.rank_above_mono hle)
  | ident ht => exact single (by rw [Token.leaf?, ht])
  | int ht hb => exact single (by rw [Token.leaf?, ht]; exact if_pos hb)
  | string ht => exact single (by rw [Token.leaf?, ht])
  | true ht => exact single (by rw [Token.leaf?, ht])
  | false ht => exact single (by rw [Token.leaf?, ht])
  | null ht => exact single (by rw [Token.leaf?, ht])
  | group ho hc _ ih =>
    rw [bracketed (by simp [ho]) (by simp [hc])]
    exact .group ho hc (unbroken_unbroken _ ▸ ih)
  | array ho hc _ ih =>
    rw [bracketed (by simp [ho]) (by simp [hc])]
    exact .array ho hc (unbroken_unbroken _ ▸ ih)
  | call _ ho hc _ ihf ih =>
    rw [unbroken_append, bracketed (by simp [ho]) (by simp [hc])]
    exact .call ihf ho hc (unbroken_unbroken _ ▸ ih)
  | index _ ho hc _ ihl ih =>
    rw [unbroken_append, bracketed (by simp [ho]) (by simp [hc])]
    exact .index ihl ho hc (unbroken_unbroken _ ▸ ih)
  | @unary operator _ _ _ ho hg _ ih =>
    have hmem : operator.kind ∈ [Kind.bang, .minus, .plus] := by
      revert ho
      cases operator.kind <;> decide
    have hne : operator.kind ≠ .endOfLine := by
      intro hk
      rw [hk] at ho
      cases ho
    rw [unbroken_cons hne, unbroken_append, hg.unbroken, List.nil_append]
    exact .sign hmem ih
  | binary hf ho hp hg _ _ ihl ihr =>
    obtain ⟨hmem, hnext⟩ := Stratum.mem_of_precedence hf ho hp
    rw [unbroken_append, unbroken_cons (Stratum.ne_endOfLine_of_mem hmem), unbroken_append,
      hg.unbroken, List.nil_append]
    refine .binary hmem ihl ?_
    rw [← hnext]
    exact ihr
  | item _ ih => exact .item ih
  | later _ hc _ ih ihs =>
    rw [unbroken_append, unbroken_cons (by simp [hc])]
    exact .later ih hc ihs
  | none => exact .none
  | some _ ih => exact .some ih

/-! ## Stretches of tokens -/

/-- What is settled has lost newlines only, and outside groups not even those. -/
theorem exists_settle (groups : Nat) (ts : List Token) :
    ∃ gap, ts = gap ++ settle groups ts ∧ IsNewlines gap ∧ (groups = 0 → gap = []) := by
  by_cases h0 : groups = 0
  · subst h0
    exact ⟨[], rfl, .nil, fun _ => rfl⟩
  · refine ⟨ts.takeWhile isNewline, ?_, ?_, fun h => absurd h h0⟩
    · rw [settle_pos h0, List.takeWhile_append_dropWhile]
    · intro t ht
      exact isNewline_iff.1 (List.mem_takeWhile_imp ht)

theorem settle_of_ne {t : Token} (h : t.kind ≠ .endOfLine) (groups : Nat) (ts : List Token) :
    settle groups (t :: ts) = t :: ts := by
  by_cases h0 : groups = 0
  · rw [h0, settle_zero]
  · rw [settle_pos h0, dropWhile_of_ne h]

theorem IsNewlines.settle_append {gap : List Token} {groups : Nat} (h : IsNewlines gap)
    (h0 : groups = 0 → gap = []) (ts : List Token) :
    settle groups (gap ++ ts) = settle groups ts := by
  by_cases hg : groups = 0
  · rw [h0 hg, List.nil_append]
  · rw [settle_pos hg, settle_pos hg, h.dropWhile_append]

/-- What is read is a stretch of the list, but for newlines in it and behind it. -/
theorem Reads.exists_stretch {groups : Nat} {ts read rest : List Token}
    (h : Reads groups ts read rest) :
    ∃ stretch gap, ts = stretch ++ gap ++ rest ∧ IsNewlines gap ∧ (groups = 0 → gap = []) ∧
      unbroken stretch = unbroken read ∧ ∀ t, stretch.getLastD t = read.getLastD t := by
  induction read generalizing ts with
  | nil => exact ⟨[], [], reads_nil.1 h, .nil, fun _ => rfl, rfl, fun _ => rfl⟩
  | cons u read ih =>
    obtain ⟨us, rfl, h⟩ := h
    obtain ⟨skipped, hus, hskipped, hzero⟩ := exists_settle groups us
    obtain ⟨stretch, gap, hts, hgap, hgapZero, hunbroken, hlast⟩ := ih h
    have hcons : ∀ {vs : List Token}, unbroken vs = unbroken read →
        unbroken (u :: vs) = unbroken (u :: read) := by
      intro vs hvs
      rw [← List.singleton_append, unbroken_append, hvs, ← unbroken_append, List.singleton_append]
    rw [hts] at hus
    rcases stretch with _ | ⟨v, stretch⟩
    · -- Nothing more is read, so what was skipped stands behind.
      refine ⟨[u], skipped ++ gap, ?_, ?_, ?_, hcons hunbroken, fun t => ?_⟩
      · rw [hus]
        simp
      · intro t ht
        exact (List.mem_append.1 ht).elim (hskipped t) (hgap t)
      · intro h0
        rw [hzero h0, hgapZero h0, List.nil_append]
      · rw [List.getLastD_cons, List.getLastD_cons]
        exact hlast u
    · refine ⟨u :: (skipped ++ v :: stretch), gap, ?_, hgap, hgapZero, hcons ?_, fun t => ?_⟩
      · rw [hus]
        simp
      · rw [unbroken_append, hskipped.unbroken, List.nil_append, hunbroken]
      · rw [List.getLastD_cons, List.getLastD_cons, getLastD_append, List.getLastD_cons, ← hlast u,
          List.getLastD_cons]

/-- Tokens among which there is no newline are read as they stand. -/
theorem reads_of_ne {groups : Nat} {read : List Token} (h : ∀ t ∈ read, t.kind ≠ .endOfLine)
    (rest : List Token) :
    Reads groups (settle groups (read ++ rest)) read (settle groups rest) := by
  induction read with
  | nil => rfl
  | cons t read ih =>
    obtain ⟨ht, hread⟩ := List.forall_mem_cons.1 h
    rw [List.cons_append, settle_of_ne ht]
    exact ⟨read ++ rest, rfl, ih hread⟩

namespace Cursor

/-- **The tokens from the current one at `c` to the current one at `d` are `ts`.**  Inside groups the
newlines behind them have been passed too. -/
structure Spans (c : Cursor) (ts : List Token) (d : Cursor) : Prop where
  stretch : ∃ gap, c.view = ts ++ gap ++ d.ahead ∧ IsNewlines gap ∧ (c.groups = 0 → gap = [])
  current_eq : ts.getLast? = some d.current
  groups_eq : d.groups = c.groups
  settled : settle d.groups d.ahead = d.ahead

/-- What is read spans the tokens up to where reading ends. -/
theorem Moves.exists_spans {c d : Cursor} {read : List Token} (h : c.Moves read d)
    (hc : c.current.kind ≠ .endOfLine) (hd : d.Ready) :
    ∃ ts, c.Spans ts d ∧ unbroken ts = unbroken (c.current :: read) := by
  obtain ⟨stretch, gap, hahead, hgap, hzero, hunbroken, hlast⟩ := h.reads.exists_stretch
  refine ⟨c.current :: stretch, ⟨⟨gap, ?_, hgap, hzero⟩, ?_, h.groups_eq, hd.settled⟩, ?_⟩
  · rw [view, hahead]
    simp
  · rw [List.getLast?_cons, h.current_eq, ← hlast, List.getLastD_eq_getLast?]
  · rw [unbroken_cons hc, unbroken_cons hc, hunbroken]

/-- Tokens without newlines are read up to the last of them. -/
theorem Spans.moves {c d : Cursor} {ts : List Token} (h : c.Spans ts d) (hc : c.Ready)
    (hts : ∀ t ∈ ts, t.kind ≠ .endOfLine) :
    ∃ read, ts = c.current :: read ∧ c.Moves read d := by
  obtain ⟨⟨gap, hview, hgap, hzero⟩, hlast, hgroups, hsettled⟩ := h
  rcases ts with _ | ⟨t, read⟩
  · cases hlast
  rw [view, List.append_assoc, List.cons_append] at hview
  obtain ⟨rfl, hahead⟩ := List.cons.inj hview
  refine ⟨read, rfl, hgroups, ?_, ?_⟩
  · have hread : Reads c.groups _ read _ :=
      reads_of_ne (List.forall_mem_cons.1 hts).2 (gap ++ d.ahead)
    rw [hgap.settle_append hzero, ← hgroups, hsettled, hgroups] at hread
    rw [← hc.settled, hahead]
    exact hread
  · rw [List.getLast?_cons] at hlast
    rw [List.getLastD_eq_getLast?]
    exact (Option.some.inj hlast).symm

end Cursor

/-! ## The parser of expressions -/

namespace Parse

/-- **The parser of expressions implements the strata**, in every state and at every precedence it is
called with.  Where it succeeds, the tokens it passed, without their newlines, derive its tree at the
stratum above the precedence, and the token ahead is none that the stratum goes on with.  Conversely,
tokens without newlines that derive a tree, in front of a token that the stratum does not go on with,
are read to exactly this tree, within the limits on nesting and on numerals. -/
theorem expression_strata (maxDigits depth precedence : Nat) (hlow : Precedence.lowest ≤ precedence)
    (hhigh : precedence ≤ Precedence.unary) (c : Cursor) (hc : c.Ready) (findings : List Finding)
    (node : Node) :
    (∀ t : ParseState, expression maxDigits depth precedence ⟨c, findings⟩ = .ok node t →
      ∃ ts d, t = ⟨d, findings⟩ ∧ c.Spans ts d ∧
        Derives (.expression (.above precedence)) (unbroken ts) [node] ∧
        ¬ (Stratum.above precedence).GoesOnWith d.peek.kind) ∧
    ∀ (ts : List Token) (d : Cursor), c.Spans ts d →
      Derives (.expression (.above precedence)) ts [node] →
      ¬ (Stratum.above precedence).GoesOnWith d.peek.kind →
      Readable maxDigits ts → ts.length ≤ depth →
      expression maxDigits depth precedence ⟨c, findings⟩ = .ok node ⟨d, findings⟩ := by
  constructor
  · intro t hrun
    obtain ⟨read, d, rfl, hd, hmoves, hphrase, hpeek⟩ :=
      (Outcome.iff_of_ok hrun).1
        (expression_reads maxDigits depth precedence c findings hc hlow hhigh)
    obtain ⟨ts, hspans, hunbroken⟩ := hmoves.exists_spans hc.current_ne hd
    refine ⟨ts, d, rfl, hspans, ?_, ?_⟩
    · rw [hunbroken]
      exact hphrase.derives
    · rw [Stratum.goesOnWith_iff hlow hhigh]
      omega
  · intro ts d hspans hderives hpeek hreadable hlength
    obtain ⟨read, hts, hmoves⟩ := hspans.moves hc hderives.ne_endOfLine
    have hphrase : Phrase (.expression precedence) ts [node] :=
      hderives.phrase.loosen ((Stratum.rank_above_le_iff hhigh _).1 (Nat.le_refl _))
    rw [Stratum.goesOnWith_iff hlow hhigh] at hpeek
    have hlevels : PhraseKind.levels (.expression precedence) ts < depth := by
      rw [hts, List.length_cons] at hlength
      rw [hts, PhraseKind.levels, List.length_cons]
      omega
    exact (hphrase.within.takesIn maxDigits).run hhigh hts hc hmoves hreadable hlevels (by omega)

/-- Reading `a - b - c * d` in front of a newline inside of parentheses: the differences group to the
left, and the product is their right operand. -/
theorem expression_strata_differences :
    let token (kind : Kind) (text : String) : Token := { kind, text }
    let name (text : String) : Node := .ident (token .ident text).toIdent
    let minus := token .minus "-"
    let times := token .asterisk "*"
    let close := [token .rparen ")", token .eof ""]
    let ts := [token .ident "a", minus, token .ident "b", minus, token .ident "c", times,
      token .ident "d"]
    let c : Cursor := ⟨token .ident "a", ts.tail ++ token .endOfLine "\n" :: close, 1⟩
    let d : Cursor := ⟨token .ident "d", close, 1⟩
    let node : Node := .binary minus (.binary minus (name "a") "-" (name "b")) "-"
      (.binary times (name "c") "*" (name "d"))
    c.Ready ∧ c.Spans ts d ∧ Derives (.expression .equality) ts [node] ∧
      expression 19 7 Precedence.lowest ⟨c, []⟩ = .ok node ⟨d, []⟩ := by
  intro token name minus times close ts c d node
  have hready : c.Ready := by
    refine ⟨?_, by decide, by decide⟩
    simp [Cursor.view, Terminated, c, ts, close, token, minus, times]
  have hspans : c.Spans ts d :=
    ⟨⟨[token .endOfLine "\n"], rfl, by simp [IsNewlines, token], by decide⟩, rfl, rfl, by decide⟩
  have leaf (stratum : Stratum) (text : String) :
      Derives (.expression stratum) [token .ident text] [name text] :=
    (Derives.leaf rfl).loosen stratum.rank_le
  have hdifference := @Derives.binary .sum minus _ _ _ _ (by decide) (leaf _ "a") (leaf _ "b")
  have hproduct := @Derives.binary .product times _ _ _ _ (by decide) (leaf _ "c") (leaf _ "d")
  have hsum : Derives (.expression .sum) ts [node] :=
    @Derives.binary .sum minus _ _ _ _ (by decide) hdifference hproduct
  have hderives : Derives (.expression .equality) ts [node] := hsum.loosen (by decide)
  refine ⟨hready, hspans, hderives, ?_⟩
  refine (expression_strata 19 7 Precedence.lowest (by decide) (by decide) c hready [] node).2 ts d
    hspans hderives ?_ ?_ (by decide)
  · rw [Stratum.goesOnWith_iff (by decide) (by decide)]
    decide
  · unfold Readable
    decide

end Parse

end LimLang
