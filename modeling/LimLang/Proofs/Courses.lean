import LimLang.Parse.Program
import LimLang.Proofs.Seam

/-! # The course of a parse

What the parser does to its cursor, and which statements it gives up on the way, is told by one
relation, `Course`.  Outside of blocks the cursor takes *strides*: over a token that is no brace, into
a group from the bracket that opens it, or out of a group.  A block is entered from its brace and
left at a brace.  Inside of it statements are passed one after the other; where one is given up, the
cursor goes on from where skipping stops.  Whatever holds of every parse follows from this by
induction.

That statements are given up does not show in a tree, and only partly in what is recorded.  So the
parser is run with *notes*: `Parse.noting` runs the parser of a statement and, if the statement is
malformed, records something more about it.  What is noted is up to the reader, and changes nothing
else.  The statements that a run gives up are those it would make a note of, whatever the note
(`Told`).
-/
namespace LimLang

open ParseState (Later)

/-! ## Statements that are given up -/

/-- **A statement that was given up.** -/
structure Drop where
  /-- Where the parser starts to skip the rest of it. -/
  cursor : Cursor
  /-- What was recorded about it. -/
  finding : Option Finding

/-- Something to record about a statement that is given up, told by where that happens. -/
abbrev Note := Cursor → List Finding

/-- **What is recorded when statements are given up**: what is wrong with each, and a note on it. -/
def Drop.record (note : Note) (drops : List Drop) : List Finding :=
  drops.flatMap fun drop => drop.finding.toList ++ note drop.cursor

namespace Drop

variable (note : Note) (drops more : List Drop)

@[simp] theorem record_nil : record note [] = [] := rfl

@[simp] theorem record_append : record note (drops ++ more) = record note drops ++ record note more :=
  List.flatMap_append

theorem record_singleton (drop : Drop) :
    record note [drop] = drop.finding.toList ++ note drop.cursor :=
  List.append_nil _

/-- Without notes there is what was found wrong. -/
theorem record_nothing : record (fun _ => []) drops = drops.filterMap Drop.finding := by
  unfold record
  induction drops with
  | nil => rfl
  | cons drop drops ih =>
    rw [List.flatMap_cons, ih, List.filterMap_cons]
    cases drop.finding <;> rfl

end Drop

namespace Parse

/-- Parses a statement, and makes a note if it is given up. -/
def noting (note : Note) (statement : Parse (Option Node)) : Parse (Option Node) := fun s =>
  match statement s with
  | .ok node t => .ok node t
  | .error (.crash crash) t => .error (.crash crash) t
  | .error .malformed t =>
      .error .malformed
        { t with findings := t.findings ++ note { t.toCursor with groups := s.groups } }

/-- **A statement, with notes** on it and on those nested in it. -/
def notedStatement (note : Note) (maxDigits : Nat) : Nat → Parse (Option Node)
  | 0 => throw (.crash .tooDeep)
  | depth + 1 =>
      noting note (statementWith (expression maxDigits depth Precedence.lowest)
        (notedStatement note maxDigits depth))

/-- **A whole program, with notes** on the statements that are given up. -/
def notedProgram (note : Note) (limits : Limits) : Parser Crash Node := do
  let nodes ← statements Kind.closesProgram (notedStatement note limits.digits limits.nesting)
    ((← remaining) + 2)
  return .program nodes

/-- Where nothing is noted, nothing changes. -/
theorem noting_nothing (statement : Parse (Option Node)) :
    noting (fun _ => []) statement = statement := by
  funext s
  unfold noting
  split
  · next h => exact h.symm
  · next h => exact h.symm
  · next t h =>
    rw [h, List.append_nil]

theorem notedStatement_nothing (maxDigits depth : Nat) :
    notedStatement (fun _ => []) maxDigits depth = statement maxDigits depth := by
  induction depth with
  | zero => rfl
  | succ depth ih => rw [notedStatement, noting_nothing, ih, statement]

theorem notedProgram_nothing (limits : Limits) :
    notedProgram (fun _ => []) limits = program limits := by
  unfold notedProgram program
  rw [notedStatement_nothing]

end Parse

/-! ## What the cursor does -/

/-- A token that a statement may have outside of its blocks. -/
def Kind.isPlain : Kind → Bool
  | .lbrace | .rbrace | .endOfLine | .eof => false
  | _ => true

theorem Kind.ne_eof_of_isPlain {kind : Kind} (h : kind.isPlain) : kind ≠ .eof := by
  rintro rfl
  cases h

theorem Kind.isPlain_of_isType {kind : Kind} (h : kind.isType = true) : kind.isPlain := by
  revert h
  cases kind <;> decide

namespace Cursor

theorem synchronize_groups (c : Cursor) : c.synchronize.groups = c.groups :=
  skipWithin_groups _ _ _

/-- **A stride through a statement**, outside of its blocks. -/
inductive Stride : Cursor → Cursor → Prop
  | advance {c : Cursor} (h : c.current.kind.isPlain) : Stride c c.advance
  | openGroup {c : Cursor} (h : c.current.kind = .lparen ∨ c.current.kind = .lbrack) :
      Stride c c.openGroup
  | closeGroup {c : Cursor} (h : c.groups ≠ 0) : Stride c c.closeGroup

theorem Stride.later {c d : Cursor} (h : c.Stride d) {s : ParseState} (hl : s.Later ⟨c, []⟩) :
    s.Later ⟨d, []⟩ := by
  cases h with
  | advance => exact hl.advance
  | openGroup => exact hl.openGroup
  | closeGroup => exact hl.closeGroup

/-- **What a statement is given up for** where the cursor is: text that is no token, of which nothing
is recorded, or something else that is recorded.  The token at fault is the current one or the one
ahead, but for the bracket in front of what turned out to be no array. -/
def Blames (c : Cursor) : Option Finding → Prop
  | none => c.current.kind = .illegal ∨ c.peek.kind = .illegal
  | some f => f.token.kind ≠ .illegal ∧
      (f.token = c.current ∨ f.token = c.peek ∨ f.token.kind = .lbrack)

end Cursor

/-- A statement that starts outside of groups is skipped outside of groups. -/
theorem ParseState.Later.synchronize {c d : Cursor} (h : Later ⟨c, []⟩ ⟨d, []⟩)
    (hg : c.groups = 0) :
    Later ⟨c, []⟩ ⟨({ d with groups := c.groups } : Cursor).synchronize, []⟩ := by
  rw [hg]
  exact h.ungroup.skipWithin _ _

/-- What a course leads through. -/
inductive Stretch where
  /-- A part of a statement from its first token on. -/
  | path
  /-- A block with its braces. -/
  | block
  /-- A statement, up to its last token. -/
  | statement
  /-- A statement up to where it is given up. -/
  | failure
  /-- Statements, up to a token that closes their list. -/
  | body (closes : Kind → Bool)

/-- The stretches that do not end in the middle of a statement. -/
def Stretch.Whole : Stretch → Prop
  | .path | .failure => False
  | .block | .statement | .body _ => True

/-- **The course of the cursor** through a stretch, and the statements that are given up on it. -/
inductive Course : Stretch → Cursor → List Drop → Cursor → Prop
  | start (c : Cursor) : Course .path c [] c
  | stride {c d e : Cursor} {ds : List Drop} :
      Course .path c ds d → d.Stride e → Course .path c ds e
  | pass {c d e : Cursor} {ds es : List Drop} :
      Course .path c ds d → Course .block d es e → Course .path c (ds ++ es) e.advance
  | block {c d : Cursor} {ds : List Drop} : c.groups = 0 → c.current.kind = .lbrace →
      Course (.body Kind.closesBlock) c.advance ds d → d.current.kind = .rbrace →
      Course .block c ds d
  | plain {c d : Cursor} {ds : List Drop} : Course .path c ds d → d.groups = c.groups →
      d.current.kind.isPlain → Course .statement c ds d
  | braced {c d e : Cursor} {ds es : List Drop} : Course .path c ds d → d.groups = c.groups →
      Course .block d es e → Course .statement c (ds ++ es) e
  | stuck {c d : Cursor} {ds : List Drop} : Course .path c ds d → Course .failure c ds d
  | unclosed {c d e : Cursor} {ds es : List Drop} : Course .path c ds d → d.groups = 0 →
      d.current.kind = .lbrace → Course (.body Kind.closesBlock) d.advance es e →
      e.current.kind = .eof → Course .failure c (ds ++ es) e
  | done {c : Cursor} {closes : Kind → Bool} : closes c.current.kind = true →
      Course (.body closes) c [] c
  | next {c d e : Cursor} {ds es : List Drop} {closes : Kind → Bool} :
      closes c.current.kind = false → Course .statement c ds d →
      Course (.body closes) d.advance es e → Course (.body closes) c (ds ++ es) e
  | last {c d : Cursor} {ds : List Drop} {found : Option Finding} {closes : Kind → Bool} :
      closes c.current.kind = false → Course .failure c ds d → d.Blames found →
      closes ({ d with groups := c.groups } : Cursor).synchronize.current.kind = true →
      Course (.body closes) c (ds ++ [⟨{ d with groups := c.groups }, found⟩])
        ({ d with groups := c.groups } : Cursor).synchronize
  | skip {c d e : Cursor} {ds es : List Drop} {found : Option Finding} {closes : Kind → Bool} :
      closes c.current.kind = false → Course .failure c ds d → d.Blames found →
      closes ({ d with groups := c.groups } : Cursor).synchronize.current.kind = false →
      Course (.body closes) ({ d with groups := c.groups } : Cursor).synchronize.advance es e →
      Course (.body closes) c (ds ++ ⟨{ d with groups := c.groups }, found⟩ :: es) e

namespace Course

variable {c d : Cursor} {ds : List Drop} {stretch : Stretch}

/-- Whatever is opened on a whole stretch is closed again. -/
theorem groups_eq (h : Course stretch c ds d) (hw : stretch.Whole) : d.groups = c.groups := by
  induction h with
  | start => cases hw
  | stride => cases hw
  | pass => cases hw
  | block hg _ _ _ ih => rw [ih trivial, Cursor.advance_groups]
  | plain _ hg _ _ => exact hg
  | braced _ hg _ _ ih => rw [ih trivial, hg]
  | stuck => cases hw
  | unclosed => cases hw
  | done => rfl
  | next _ _ _ ihs ih => rw [ih trivial, Cursor.advance_groups, ihs trivial]
  | last => exact Cursor.synchronize_groups _
  | skip _ _ _ _ _ _ ih => rw [ih trivial, Cursor.advance_groups, Cursor.synchronize_groups]

/-- A list of statements ends with what closes it. -/
theorem closes_of_body {closes : Kind → Bool} (h : Course (.body closes) c ds d) :
    closes d.current.kind = true := by
  -- The induction is over all stretches, of which only lists of statements matter.
  generalize hp : Stretch.body closes = stretch at h
  induction h with
  | done hk =>
    cases hp
    exact hk
  | next _ _ _ _ ih => exact ih hp
  | last _ _ _ hk _ =>
    cases hp
    exact hk
  | skip _ _ _ _ _ _ ih => exact ih hp
  | _ => cases hp

theorem groups_of_block (h : Course .block c ds d) : c.groups = 0 := by
  cases h
  assumption

/-- A statement ends with a token that can be passed. -/
theorem ne_eof_of_statement (h : Course .statement c ds d) : d.current.kind ≠ .eof := by
  cases h with
  | plain _ _ hp => exact Kind.ne_eof_of_isPlain hp
  | braced _ _ hb =>
    cases hb with
    | block _ _ _ hk =>
      rw [hk]
      decide

/-- Behind a statement the cursor is outside of groups if it was in front of it. -/
theorem groups_advance (h : Course .statement c ds d) (hg : c.groups = 0) : d.advance.groups = 0 := by
  rw [Cursor.advance_groups, h.groups_eq trivial, hg]

/-- **The cursor goes forward**, and stands as it should. -/
theorem later (h : Course stretch c ds d) (hc : c.Ready) (hg : c.groups = 0) :
    Later ⟨c, []⟩ ⟨d, []⟩ := by
  induction h with
  | start => exact .refl hc
  | stride _ hs ih => exact hs.later (ih hc hg)
  | pass _ hb ihp ihb =>
    have hp := ihp hc hg
    exact (hp.trans (ihb hp.ready hb.groups_of_block)).advance
  | block hg _ _ _ ih =>
    have hn := (Later.refl (s := ⟨_, []⟩) hc).advance
    exact hn.trans (ih hn.ready ((Cursor.advance_groups _).trans hg))
  | plain _ _ _ ih => exact ih hc hg
  | braced _ hge _ ihp ihb =>
    have hp := ihp hc hg
    exact hp.trans (ihb hp.ready (hge.trans hg))
  | stuck _ ih => exact ih hc hg
  | unclosed _ hz _ _ _ ihp ih =>
    have hp := (ihp hc hg).advance
    exact hp.trans (ih hp.ready ((Cursor.advance_groups _).trans hz))
  | done => exact .refl hc
  | next _ hst _ ihs ih =>
    have hs := (ihs hc hg).advance
    exact hs.trans (ih hs.ready (hst.groups_advance hg))
  | last _ _ _ _ ih => exact (ih hc hg).synchronize hg
  | skip _ _ _ _ _ ihf ih =>
    have hs := ((ihf hc hg).synchronize hg).advance
    refine hs.trans (ih hs.ready ?_)
    rw [Cursor.advance_groups, Cursor.synchronize_groups, hg]

end Course

/-! ## What a parser does, whatever is noted -/

/-- **What a parser does from a cursor**, at which the statements `ds` have been given up: it succeeds
or halts where, and after which statements were given up, does not depend on what was recorded before
or on what is noted.  Where it halts, something may have been found that belongs to a statement not
given up yet. -/
def Told {ε α : Type} (x : Note → Parser ε α) (c : Cursor) (ds : List Drop)
    (ok : α → Cursor → List Drop → Prop) (halt : ε → Cursor → List Drop → Option Finding → Prop) :
    Prop :=
  (∃ a d es, (∀ note findings, x note ⟨c, findings ++ Drop.record note ds⟩ =
      .ok a ⟨d, findings ++ Drop.record note es⟩) ∧ ok a d es) ∨
  ∃ e d es found, (∀ note findings, x note ⟨c, findings ++ Drop.record note ds⟩ =
      .error e ⟨d, findings ++ Drop.record note es ++ found.toList⟩) ∧ halt e d es found

namespace Told

variable {ε α β : Type} {x : Note → Parser ε α} {c : Cursor} {ds : List Drop}
  {ok : α → Cursor → List Drop → Prop} {halt : ε → Cursor → List Drop → Option Finding → Prop}

theorem mono {ok' : α → Cursor → List Drop → Prop}
    {halt' : ε → Cursor → List Drop → Option Finding → Prop} (h : Told x c ds ok halt)
    (hok : ∀ a d es, ok a d es → ok' a d es)
    (hhalt : ∀ e d es found, halt e d es found → halt' e d es found) : Told x c ds ok' halt' := by
  rcases h with ⟨a, d, es, hrun, h⟩ | ⟨e, d, es, found, hrun, h⟩
  · exact .inl ⟨a, d, es, hrun, hok a d es h⟩
  · exact .inr ⟨e, d, es, found, hrun, hhalt e d es found h⟩

theorem pure {a : α} (h : ok a c ds) : Told (fun _ => (Pure.pure a : Parser ε α)) c ds ok halt :=
  .inl ⟨a, c, ds, fun _ _ => rfl, h⟩

theorem throw {e : ε} (h : halt e c ds none) :
    Told (fun _ => (MonadExcept.throw e : Parser ε α)) c ds ok halt :=
  .inr ⟨e, c, ds, none, fun _ _ => congrArg _ (congrArg _ (List.append_nil _).symm), h⟩

theorem bind {f : Note → α → Parser ε β} {ok' : β → Cursor → List Drop → Prop}
    (h : Told x c ds ok halt)
    (hf : ∀ a d es, ok a d es → Told (fun note => f note a) d es ok' halt) :
    Told (fun note => x note >>= f note) c ds ok' halt := by
  rcases h with ⟨a, d, es, hrun, h⟩ | ⟨e, d, es, found, hrun, h⟩
  · rcases hf a d es h with ⟨b, d', es', hrun', h'⟩ | ⟨e, d', es', found, hrun', h'⟩
    · exact .inl ⟨b, d', es', fun note findings =>
        (bind_of_ok (hrun note findings) _).trans (hrun' note findings), h'⟩
    · exact .inr ⟨e, d', es', found, fun note findings =>
        (bind_of_ok (hrun note findings) _).trans (hrun' note findings), h'⟩
  · exact .inr ⟨e, d, es, found, fun note findings => bind_of_error (hrun note findings) _, h⟩

/-- What was given up before is kept. -/
theorem frame (h : Told x c [] ok halt) (ds : List Drop) :
    Told x c ds (fun a d es => ∃ more, es = ds ++ more ∧ ok a d more)
      (fun e d es found => ∃ more, es = ds ++ more ∧ halt e d more found) := by
  rcases h with ⟨a, d, more, hrun, h⟩ | ⟨e, d, more, found, hrun, h⟩
  · refine .inl ⟨a, d, ds ++ more, fun note findings => ?_, more, rfl, h⟩
    have := hrun note (findings ++ Drop.record note ds)
    rwa [Drop.record_nil, List.append_nil, List.append_assoc, ← Drop.record_append] at this
  · refine .inr ⟨e, d, ds ++ more, found, fun note findings => ?_, more, rfl, h⟩
    have := hrun note (findings ++ Drop.record note ds)
    rwa [Drop.record_nil, List.append_nil, List.append_assoc findings, ← Drop.record_append] at this

/-- What a parser does without notes. -/
theorem plain {y : Parser ε α} (h : Told x c [] ok halt) (hy : x (fun _ => []) = y) :
    (∃ a d ds, (∀ findings, y ⟨c, findings⟩ =
        .ok a ⟨d, findings ++ ds.filterMap Drop.finding⟩) ∧ ok a d ds) ∨
      ∃ e d ds found, (∀ findings, y ⟨c, findings⟩ =
        .error e ⟨d, findings ++ ds.filterMap Drop.finding ++ found.toList⟩) ∧ halt e d ds found := by
  subst hy
  rcases h with ⟨a, d, ds, hrun, h⟩ | ⟨e, d, ds, found, hrun, h⟩
  · refine .inl ⟨a, d, ds, fun findings => ?_, h⟩
    simpa only [Drop.record_nil, List.append_nil, Drop.record_nothing] using
      hrun (fun _ => []) findings
  · refine .inr ⟨e, d, ds, found, fun findings => ?_, h⟩
    simpa only [Drop.record_nil, List.append_nil, Drop.record_nothing] using
      hrun (fun _ => []) findings

/-! The steps that only look at the cursor or move it are followed by rewriting. -/

section Steps
open Parse
variable {f : Note → Unit → Parser ε α}

theorem move_bind {g : Cursor → Cursor} :
    Told (fun note => move g >>= f note) c ds ok halt ↔
      Told (fun note => f note ()) (g c) ds ok halt := Iff.rfl

theorem advance_bind :
    Told (fun note => advance >>= f note) c ds ok halt ↔
      Told (fun note => f note ()) c.advance ds ok halt := Iff.rfl

theorem advance {ok : Unit → Cursor → List Drop → Prop} (h : ok () c.advance ds) :
    Told (fun _ => (Parse.advance : Parser ε Unit)) c ds ok halt :=
  .inl ⟨(), c.advance, ds, fun _ _ => rfl, h⟩

theorem current_bind {f : Note → Token → Parser ε α} :
    Told (fun note => current >>= f note) c ds ok halt ↔
      Told (fun note => f note c.current) c ds ok halt := Iff.rfl

theorem peek_bind {f : Note → Token → Parser ε α} :
    Told (fun note => peek >>= f note) c ds ok halt ↔
      Told (fun note => f note c.peek) c ds ok halt := Iff.rfl

theorem peekIs_bind {kind : Kind} {f : Note → Bool → Parser ε α} :
    Told (fun note => peekIs kind >>= f note) c ds ok halt ↔
      Told (fun note => f note (c.peek.is kind)) c ds ok halt := Iff.rfl

theorem atEnd_bind {f : Note → Bool → Parser ε α} :
    Told (fun note => atEnd >>= f note) c ds ok halt ↔
      Told (fun note => f note c.peek.kind.isTerminator) c ds ok halt := Iff.rfl

theorem remaining_bind {f : Note → Nat → Parser ε α} :
    Told (fun note => remaining >>= f note) c ds ok halt ↔
      Told (fun note => f note c.ahead.length) c ds ok halt := Iff.rfl

theorem liftCrash {x : Note → Parser Crash α}
    {halt : ParseHalt → Cursor → List Drop → Option Finding → Prop}
    (h : Told x c ds ok fun crash => halt (.crash crash)) :
    Told (fun note => Parse.liftCrash (x note)) c ds ok halt := by
  rcases h with ⟨a, d, es, hrun, h⟩ | ⟨crash, d, es, found, hrun, h⟩
  · refine .inl ⟨a, d, es, fun note findings => ?_, h⟩
    simp only [Parse.liftCrash, hrun]
  · refine .inr ⟨.crash crash, d, es, found, fun note findings => ?_, h⟩
    simp only [Parse.liftCrash, hrun]

end Steps

theorem ite {p : Prop} [Decidable p] {y : Note → Parser ε α} (ht : p → Told x c ds ok halt)
    (he : ¬ p → Told y c ds ok halt) :
    Told (fun note => if p then x note else y note) c ds ok halt := by
  by_cases h : p
  · simpa only [if_pos h] using ht h
  · simpa only [if_neg h] using he h

end Told

end LimLang
