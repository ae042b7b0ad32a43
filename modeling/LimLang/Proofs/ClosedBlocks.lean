import LimLang.Proofs.Braces
import LimLang.Proofs.CourseParsers

/-! # Which brace closes a block

A block is entered at a brace and left at one.  Whether the second is the one that closes the first,
by counting the braces in between, depends on the statements that are given up inside.  The rest of
such a statement is skipped, but skipping may stop while braces are open that were opened on the way
(`Cursor.Torn`): at a semicolon inside of them, or at the last of them, which the block then takes for
its own.

Nothing else can go wrong.  Along every course of the parser the braces that are opened and not closed
are those that skipping has left open (`Course.leaves`), so a block is left at its own brace exactly if
none of the statements given up in it is torn (`Parse.block_closesAt_iff`).
-/
namespace LimLang

open Token (openAfter? openAfter?_append openAfter?_singleton openAfter?_add)

/-! ## Braces left open on the way -/

/-- **From `ts` to `us`, which comes later, `depth` braces are opened and not closed**, newlines
aside; none is closed that was open before. -/
def Opens (ts : List Token) (depth : Nat) (us : List Token) : Prop :=
  ∃ passed, unbroken ts = passed ++ unbroken us ∧ openAfter? 0 passed = some depth

namespace Opens

variable {ts us vs : List Token} {a b : Nat}

theorem refl (ts : List Token) : Opens ts 0 ts :=
  ⟨[], rfl, rfl⟩

theorem of_unbroken (h : unbroken ts = unbroken us) : Opens ts 0 us :=
  ⟨[], h, rfl⟩

theorem trans (h : Opens ts a us) (h' : Opens us b vs) : Opens ts (a + b) vs := by
  obtain ⟨passed, hts, ha⟩ := h
  obtain ⟨more, hus, hb⟩ := h'
  refine ⟨passed ++ more, by rw [hts, hus, List.append_assoc], ?_⟩
  rw [openAfter?_append, ha, Option.bind_some]
  exact openAfter?_add hb a

theorem unique (h : Opens ts a us) (h' : Opens ts b us) : a = b := by
  obtain ⟨passed, hts, ha⟩ := h
  obtain ⟨more, hus, hb⟩ := h'
  obtain rfl := List.append_cancel_right (hts.symm.trans hus)
  exact Option.some.inj (ha.symm.trans hb)

end Opens

theorem Kind.isBrace_of_isPlain {kind : Kind} (h : kind.isPlain) : kind.isBrace = false := by
  revert h
  cases kind <;> decide

theorem Kind.not_closesBlock {kind : Kind} (h : kind.closesBlock = false) :
    kind ≠ .eof ∧ (kind ≠ .lbrace → kind.isBrace = false) := by
  revert h
  cases kind <;> decide

namespace Cursor

variable {c d : Cursor}

/-- A token that is no brace opens none. -/
theorem Ready.opens_advance (h : c.Ready) (hne : c.current.kind ≠ .eof)
    (hb : c.current.kind.isBrace = false) : Opens c.view 0 c.advance.view := by
  refine ⟨[c.current], h.unbroken_view hne, ?_⟩
  rw [openAfter?_singleton, Kind.openAfter?_eq hb]

/-- A stride opens no brace. -/
theorem Stride.opens (hs : c.Stride d) (h : c.Ready) : Opens c.view 0 d.view := by
  cases hs with
  | advance hp => exact h.opens_advance (Kind.ne_eof_of_isPlain hp) (Kind.isBrace_of_isPlain hp)
  | openGroup hk =>
    refine .of_unbroken ?_
    rw [view, view, unbroken_cons h.current_ne, Cursor.openGroup, unbroken_cons h.current_ne,
      unbroken_dropWhile]
  | closeGroup => exact .refl _

/-- A block opens what its statements leave open. -/
theorem Ready.opens_block {depth : Nat} (hc : c.Ready) (hd : d.Ready)
    (hopen : c.current.kind = .lbrace) (hclose : d.current.kind = .rbrace)
    (h : Opens c.advance.view depth d.view) : Opens c.view depth d.advance.view := by
  obtain ⟨body, hbody, hdepth⟩ := h
  refine ⟨c.current :: (body ++ [d.current]), ?_, ?_⟩
  · rw [hc.unbroken_view (by rw [hopen]; decide), hbody,
      hd.unbroken_view (by rw [hclose]; decide)]
    simp
  · have hinside := openAfter?_add hdepth 1
    rw [openAfter?, hopen]
    show openAfter? (1 + 0) (body ++ [d.current]) = some depth
    rw [openAfter?_append, hinside, Option.bind_some, openAfter?_singleton, hclose, Kind.openAfter?,
      if_neg (by omega), Nat.add_sub_cancel_left]

/-- **Skipping from here stops while braces are open** that were opened on the way. -/
def Torn (c : Cursor) : Prop :=
  ∃ depth, depth ≠ 0 ∧ Opens c.view depth c.synchronize.view

theorem Ready.exists_opens_synchronize (h : c.Ready) :
    ∃ depth, Opens c.view depth c.synchronize.view ∧ c.synchronize.Stops depth ∧
      (depth = 0 ↔ ¬ c.Torn) := by
  obtain ⟨passed, depth, hview, hopen, hstops⟩ := h.skipWithin_stops 0 (Nat.lt_succ_self _)
  have hopens : Opens c.view depth c.synchronize.view := ⟨passed, hview, hopen⟩
  refine ⟨depth, hopens, hstops, fun hz htorn => ?_, fun hn => ?_⟩
  · obtain ⟨more, hne, hmore⟩ := htorn
    exact hne ((hmore.unique hopens).trans hz)
  · by_contra hz
    exact hn ⟨depth, hz, hopens⟩

theorem synchronize_of_eof (h : c.current.kind = .eof) : c.synchronize = c := by
  rw [synchronize, skipWithin, h, depthAfter]

/-- Skipping stops at no brace that opens a block. -/
theorem Stops.ne_lbrace {depth : Nat} (h : c.Stops depth) : c.current.kind ≠ .lbrace := by
  intro hk
  cases h with
  | eof h => rw [hk] at h; cases h
  | semicolon h => rw [hk] at h; cases h
  | outer h _ => rw [hk] at h; cases h
  | before h _ =>
    rw [hk] at h
    cases h

end Cursor

/-! ## Along a course -/

/-- **No statement was torn.** -/
def Intact (ds : List Drop) : Prop :=
  ∀ drop ∈ ds, ¬ drop.cursor.Torn

/-- What is left open behind two stretches. -/
theorem add_eq_zero_iff_intact {a b : Nat} {ds es : List Drop} (ha : a = 0 ↔ Intact ds)
    (hb : b = 0 ↔ Intact es) : a + b = 0 ↔ Intact (ds ++ es) := by
  rw [Nat.add_eq_zero_iff, ha, hb]
  exact List.forall_mem_append.symm

/-- **How many braces a stretch leaves open.**  A block and a statement are left behind their last
token.  What closes a whole program is no brace. -/
def Stretch.Leaves (c : Cursor) (depth : Nat) (d : Cursor) : Stretch → Prop
  | .path => Opens c.view depth d.view
  | .block | .statement => Opens c.view depth d.advance.view
  | .failure => d.current.kind ≠ .eof → Opens c.view depth d.view
  | .body closes => closes = Kind.closesBlock → d.current.kind ≠ .eof → Opens c.view depth d.view

variable {c d : Cursor} {ds : List Drop} {stretch : Stretch}

/-- What is left open where a statement is given up, and by skipping the rest of it. -/
theorem exists_opens_skip {a : Nat} {found : Option Finding} (hg : c.groups = 0)
    (hl : ParseState.Later ⟨c, []⟩ ⟨d, []⟩) (hla : Stretch.failure.Leaves c a d)
    (ha : a = 0 ↔ Intact ds) :
    ∃ b, (({ d with groups := c.groups } : Cursor).synchronize.current.kind ≠ .eof →
        Opens c.view b ({ d with groups := c.groups } : Cursor).synchronize.view ∧
          ({ d with groups := c.groups } : Cursor).synchronize.current.kind ≠ .lbrace) ∧
      (b = 0 ↔ Intact (ds ++ [⟨{ d with groups := c.groups }, found⟩])) := by
  have hready : ({ d with groups := c.groups } : Cursor).Ready := by
    rw [hg]
    exact hl.ungroup.ready
  obtain ⟨k, hk, hstops, hz⟩ := hready.exists_opens_synchronize
  have htorn : k = 0 ↔ Intact [⟨{ d with groups := c.groups }, found⟩] := by
    rw [hz, Intact, List.forall_mem_singleton]
  refine ⟨a + k, fun hne => ⟨(hla fun heof => hne ?_).trans hk, hstops.ne_lbrace⟩,
    add_eq_zero_iff_intact ha htorn⟩
  have hend : ({ d with groups := c.groups } : Cursor).current.kind = .eof := heof
  rwa [Cursor.synchronize_of_eof hend]

/-- **The braces left open on a course are those of torn statements.** -/
theorem Course.leaves (h : Course stretch c ds d) (hc : c.Ready) (hg : c.groups = 0) :
    ∃ depth, stretch.Leaves c depth d ∧ (depth = 0 ↔ Intact ds) := by
  induction h with
  | start => exact ⟨0, .refl _, by simp [Intact]⟩
  | stride hp hs ih =>
    obtain ⟨depth, hl, hd⟩ := ih hc hg
    exact ⟨depth, hl.trans (hs.opens (hp.later hc hg).ready), hd⟩
  | pass hp hb ihp ihb =>
    obtain ⟨a, hla, ha⟩ := ihp hc hg
    obtain ⟨b, hlb, hb⟩ := ihb (hp.later hc hg).ready hb.groups_of_block
    exact ⟨a + b, hla.trans hlb, add_eq_zero_iff_intact ha hb⟩
  | block hz hk hbody hkd ih =>
    have hzero := (Cursor.advance_groups _).trans hz
    obtain ⟨a, hla, ha⟩ := ih hc.advance hzero
    have hne : ∀ {kind : Kind}, kind = .rbrace → kind ≠ .eof := by
      rintro _ rfl ⟨⟩
    exact ⟨a, hc.opens_block (hbody.later hc.advance hzero).ready hk hkd (hla rfl (hne hkd)), ha⟩
  | plain hp _ hk ih =>
    obtain ⟨a, hla, ha⟩ := ih hc hg
    exact ⟨a, hla.trans ((Cursor.Stride.advance hk).opens (hp.later hc hg).ready), ha⟩
  | braced hp hgd hb ihp ihb =>
    obtain ⟨a, hla, ha⟩ := ihp hc hg
    obtain ⟨b, hlb, hb⟩ := ihb (hp.later hc hg).ready (hgd.trans hg)
    exact ⟨a + b, hla.trans hlb, add_eq_zero_iff_intact ha hb⟩
  | stuck _ ih =>
    obtain ⟨a, hla, ha⟩ := ih hc hg
    exact ⟨a, fun _ => hla, ha⟩
  | unclosed hp hz _ hbody hk ihp ihb =>
    -- Nothing is said of a statement given up at the end, so the brace it leaves open does not count.
    obtain ⟨a, _, ha⟩ := ihp hc hg
    obtain ⟨b, _, hb⟩ := ihb (hp.later hc hg).advance.ready ((Cursor.advance_groups _).trans hz)
    exact ⟨a + b, fun hne => absurd hk hne, add_eq_zero_iff_intact ha hb⟩
  | done => exact ⟨0, fun _ _ => .refl _, by simp [Intact]⟩
  | next _ hst hbody ihs ihb =>
    obtain ⟨a, hla, ha⟩ := ihs hc hg
    obtain ⟨b, hlb, hb⟩ := ihb (hst.later hc hg).advance.ready (hst.groups_advance hg)
    exact ⟨a + b, fun heq hne => hla.trans (hlb heq hne), add_eq_zero_iff_intact ha hb⟩
  | last _ hf _ _ ih =>
    obtain ⟨a, hla, ha⟩ := ih hc hg
    obtain ⟨b, hlb, hb⟩ := exists_opens_skip hg (hf.later hc hg) hla ha
    exact ⟨b, fun _ hne => (hlb hne).1, hb⟩
  | @skip _ d _ _ _ found closes _ hf _ hopen hbody ihf ihb =>
    have hl := (hf.later hc hg).synchronize hg
    obtain ⟨a, hla, ha⟩ := ihf hc hg
    obtain ⟨b, hlb, hb⟩ := exists_opens_skip hg (hf.later hc hg) hla ha
    obtain ⟨k, hlk, hk⟩ := ihb hl.advance.ready
      ((Cursor.advance_groups _).trans ((Cursor.synchronize_groups _).trans hg))
    refine ⟨b + k, fun hblock hne => ?_, ?_⟩
    · -- In a block, skipping goes on only from a token that is no brace.
      rw [hblock] at hopen
      have hstop := Kind.not_closesBlock hopen
      obtain ⟨hskip, hlbrace⟩ := hlb hstop.1
      exact (hskip.trans (hl.ready.opens_advance hstop.1 (hstop.2 hlbrace))).trans (hlk hblock hne)
    · rw [List.append_cons]
      exact add_eq_zero_iff_intact hb hk

/-! ## Blocks -/

/-- **`d` stands at the brace that closes the one `c` stands at**, by counting the braces between. -/
def Cursor.ClosesAt (c d : Cursor) : Prop :=
  d.current.kind = .rbrace ∧ ∃ body, unbroken c.ahead = body ++ unbroken d.view ∧ Token.Balanced body

namespace Parse

/-- A block is left at its own brace exactly if no statement given up in it was torn. -/
theorem LeavesBlock.closesAt_iff (hc : c.Ready) (hk : c.current.kind = .lbrace)
    (h : LeavesBlock c [] d ds) (hd : d.current.kind = .rbrace) : c.ClosesAt d ↔ Intact ds := by
  obtain ⟨more, e, rfl, rfl, hbody⟩ := h
  have hready : ({ c with groups := 0 } : Cursor).Ready :=
    ⟨hc.terminated, hc.current_ne, settle_zero _⟩
  have hne : e.current.kind ≠ .eof := by
    replace hd : e.current.kind = .rbrace := hd
    rw [hd]
    decide
  obtain ⟨depth, hleaves, hdepth⟩ := hbody.leaves hready.advance (Cursor.advance_groups _)
  have hopens := hleaves rfl hne
  -- Counting starts behind the brace that opens the block.
  have hahead : unbroken c.ahead = unbroken ({ c with groups := 0 } : Cursor).advance.view := by
    have hview := hready.unbroken_view (by
      show c.current.kind ≠ .eof
      rw [hk]
      decide)
    rw [Cursor.view, unbroken_cons hc.current_ne] at hview
    exact (List.cons.inj hview).2
  have hclosed : c.ClosesAt { e with groups := c.groups } ↔
      Opens ({ c with groups := 0 } : Cursor).advance.view 0 e.view := by
    rw [Cursor.ClosesAt, hahead]
    exact and_iff_right hd
  rw [hclosed, ← hdepth]
  exact ⟨fun h => hopens.unique h, fun hz => hz ▸ hopens⟩

/-- **A block that is parsed is left at a brace, and that brace closes the block exactly if no
statement was torn** of those given up inside, which are those that notes are made of. -/
theorem block_closesAt_iff (maxDigits depth : Nat) (s t : ParseState) (node : Node)
    (hs : s.toCursor.Ready) (hk : s.current.kind = .lbrace)
    (h : block (statement maxDigits depth) s = .ok node t) :
    t.current.kind = .rbrace ∧ ∃ drops : List Drop,
      (∀ note, block (notedStatement note maxDigits depth) s =
        .ok node ⟨t.toCursor, s.findings ++ Drop.record note drops⟩) ∧
      (s.toCursor.ClosesAt t.toCursor ↔ ∀ drop ∈ drops, ¬ drop.cursor.Torn) := by
  have hplain : block (notedStatement (fun _ => []) maxDigits depth) s = .ok node t := by
    rw [notedStatement_nothing, h]
  rcases block_leaves (notedStatement_told maxDigits depth) hs [] with
    ⟨node', d, drops, hrun, hleaves, hbrace⟩ | ⟨halt, d, drops, found, hrun, -⟩
  · have hnote := fun note => hrun note s.findings
    simp only [Drop.record_nil, List.append_nil] at hnote
    have hsame := hplain.symm.trans (hnote _)
    injection hsame with hnode ht
    subst hnode ht
    exact ⟨hbrace, drops, hnote, hleaves.closesAt_iff hs hk hbrace⟩
  · have hnote := hrun (fun _ => []) s.findings
    simp only [Drop.record_nil, List.append_nil] at hnote
    rw [hplain] at hnote
    cases hnote

/-- A malformed statement without braces, at the end of a line: the block is left at its own brace. -/
theorem block_closesAt_iff_line :
    let s : ParseState :=
      { current := { kind := .lbrace, text := "\x7b" }
        ahead := [{ kind := .kwStruct, text := "struct" }, { kind := .ident, text := "p" },
          { kind := .endOfLine, text := "\n" }, { kind := .rbrace, text := "\x7d" },
          { kind := .eof, text := "" }]
        groups := 0
        findings := [] }
    let t : ParseState :=
      { current := { kind := .rbrace, text := "\x7d" }
        ahead := [{ kind := .eof, text := "" }]
        groups := 0
        findings := [⟨.unsupported .kwStruct, { kind := .kwStruct, text := "struct" }⟩] }
    s.toCursor.Ready ∧ block (statement 1 1) s = .ok (.block s.current []) t ∧
      t.current.kind = .rbrace ∧ ∃ drops : List Drop,
        (∀ note, block (notedStatement note 1 1) s =
          .ok (.block s.current []) ⟨t.toCursor, s.findings ++ Drop.record note drops⟩) ∧
        (s.toCursor.ClosesAt t.toCursor ↔ ∀ drop ∈ drops, ¬ drop.cursor.Torn) := by
  intro s t
  have hready : s.toCursor.Ready := ⟨by simp [s, Cursor.view, Terminated], by decide, rfl⟩
  have hrun : block (statement 1 1) s = .ok (.block s.current []) t := rfl
  exact ⟨hready, hrun, block_closesAt_iff 1 1 s t _ hready rfl hrun⟩

/-- A malformed statement with braces of its own, at the end of a line: the block is left at the brace
that closes those. -/
theorem not_closesAt_braces :
    let s : ParseState :=
      { current := { kind := .lbrace, text := "\x7b" }
        ahead := [{ kind := .kwStruct, text := "struct" }, { kind := .ident, text := "p" },
          { kind := .lbrace, text := "\x7b" }, { kind := .rbrace, text := "\x7d" },
          { kind := .endOfLine, text := "\n" }, { kind := .rbrace, text := "\x7d" },
          { kind := .eof, text := "" }]
        groups := 0
        findings := [] }
    ∃ node t, s.toCursor.Ready ∧ s.current.kind = .lbrace ∧ block (statement 1 1) s = .ok node t ∧
      ¬ s.toCursor.ClosesAt t.toCursor := by
  intro s
  refine ⟨_, _, ⟨by simp [s, Cursor.view, Terminated], by decide, rfl⟩, rfl, rfl, ?_⟩
  rintro ⟨-, body, hbody, hbalanced⟩
  have hinside : body = [{ kind := .kwStruct, text := "struct" }, { kind := .ident, text := "p" },
      { kind := .lbrace, text := "\x7b" }] := List.append_cancel_right (hbody.symm.trans rfl)
  subst hinside
  revert hbalanced
  decide

end Parse

end LimLang
