import LimLang.Parse.Program
import LimLang.Proofs.Halting

/-! # Parsing up to a seam

A list of tokens is parsed on its own, and then `eof` stands at its end; or it is parsed in front of
another list, and then a newline stands there and the other list goes on.  The two runs are compared
step by step, from the same place in the list.  As long as the place is before the end, they do the
same: a newline and `eof` both end what can be ended, and neither goes on with anything.

They part in two ways only.  One run comes to the `eof`, which it can do nothing with; or the end is
the next thing it sees inside a group, where newlines are dropped, and then the group is never
closed.  Both are told from what is ahead (`ParseState.Before`), and both are for good, since what
is ahead gets less and less.  So everything is said from the end: a run that **ends before the
seam** was before it all along, and then the other run does the same (`Beside`).

A run that finds something wrong at the `eof` parts from the other too.  What else may be found
wrong before the seam is left open (`Seam.Clean`).
-/
namespace LimLang

open Cursor (isNewline)

/-- **Where a list of tokens ends**, or goes on with another. -/
structure Seam where
  /-- The token that ends the list. -/
  last : Token
  /-- The newline in its place, if the list goes on. -/
  newline : Token
  /-- The tokens after the newline. -/
  more : List Token
  /-- What may be found wrong before the seam. -/
  Clean : List Finding → Prop
  last_kind : last.kind = .eof
  newline_kind : newline.kind = .endOfLine
  clean_of_append : ∀ findings finding, Clean (findings ++ [finding]) → Clean findings
  /-- Nothing is found wrong at the end. -/
  ne_eof_of_clean : ∀ findings finding, Clean (findings ++ [finding]) → finding.token.kind ≠ .eof

namespace Cursor

variable {j : Seam} {c : Cursor}

/-- **The cursor is before the seam**: the end is ahead, and inside a group something else too. -/
def Before (j : Seam) (c : Cursor) : Prop :=
  ∃ rest, c.ahead = rest ++ [j.last] ∧ (c.groups ≠ 0 → rest ≠ [])

/-- The cursor at the same place, if the list goes on. -/
def joined (j : Seam) (c : Cursor) : Cursor :=
  { c with ahead := c.ahead.dropLast ++ j.newline :: j.more }

theorem joined_of_ahead {rest : List Token} (h : c.ahead = rest ++ [j.last]) :
    c.joined j = ⟨c.current, rest ++ j.newline :: j.more, c.groups⟩ := by
  rw [joined, h, List.dropLast_concat]

theorem Before.not_nil (h : c.Before j) : c.ahead ≠ [] := by
  obtain ⟨rest, ha, -⟩ := h
  simp [ha]

/-- The token ahead is the same, or both are the end of what stands before. -/
theorem Before.peek_joined (h : c.Before j) :
    (c.joined j).peek = c.peek ∨
      c.peek.kind = .eof ∧ (c.joined j).peek.kind = .endOfLine := by
  obtain ⟨rest, ha, -⟩ := h
  rw [joined_of_ahead ha, peek, peek, ha]
  cases rest with
  | nil => exact .inr ⟨j.last_kind, j.newline_kind⟩
  | cons t rest => exact .inl rfl

theorem length_joined_le (j : Seam) (c : Cursor) : c.ahead.length ≤ (c.joined j).ahead.length := by
  simp only [joined, List.length_append, List.length_dropLast, List.length_cons]
  omega

end Cursor

/-- What is settled before the seam is settled the same if the list goes on. -/
theorem exists_of_settle {groups : Nat} {ts rest : List Token} {last : Token}
    (h : settle groups ts = rest ++ [last]) (hr : groups ≠ 0 → rest ≠ []) :
    ∃ us, ts = us ++ [last] ∧ (rest ≠ [] → us ≠ []) ∧
      ∀ more, settle groups (us ++ more) = rest ++ more := by
  by_cases h0 : groups = 0
  · subst h0
    exact ⟨rest, h, id, fun _ => rfl⟩
  obtain ⟨t, rest, rfl⟩ := List.exists_cons_of_ne_nil (hr h0)
  rw [settle_pos h0] at h
  obtain ⟨gap, hgap, rfl, ht⟩ := exists_gap h
  refine ⟨gap ++ t :: rest, by simp, by simp, fun more => ?_⟩
  rw [settle_pos h0, List.append_assoc, hgap.dropWhile_append, List.cons_append, dropWhile_of_ne ht]

namespace Cursor

variable {j : Seam} {c : Cursor}

theorem advance_of_nil (h : c.ahead.dropWhile isNewline = []) : c.advance = c := by
  unfold advance
  rw [h]

/-- **A step that ends before the seam** starts before it, whatever groups are open, and is the same
if the list goes on. -/
theorem exists_of_advance (h : c.advance.Before j) :
    (∃ rest, c.ahead = rest ++ [j.last] ∧ rest ≠ []) ∧
      (c.joined j).advance = c.advance.joined j := by
  cases hd : c.ahead.dropWhile isNewline with
  | nil =>
    -- The end is ahead and is no newline.
    rw [advance_of_nil hd] at h
    obtain ⟨rest, ha, -⟩ := h
    have hlast := List.dropWhile_eq_nil_iff.1 hd j.last (by simp [ha])
    rw [isNewline_iff, j.last_kind] at hlast
    cases hlast
  | cons t ts =>
    rw [advance_of_ahead hd] at h ⊢
    obtain ⟨rest, ha, hr⟩ := h
    obtain ⟨us, rfl, -, hsettle⟩ := exists_of_settle ha hr
    obtain ⟨gap, hgap, hahead, ht⟩ := exists_gap hd
    have hstart : c.ahead = (gap ++ t :: us) ++ [j.last] := by simp [hahead]
    refine ⟨⟨gap ++ t :: us, hstart, by simp⟩, ?_⟩
    have hnext : (c.joined j).ahead.dropWhile isNewline = t :: (us ++ j.newline :: j.more) := by
      rw [joined_of_ahead hstart, List.append_assoc, hgap.dropWhile_append, List.cons_append,
        dropWhile_of_ne ht]
    rw [advance_of_ahead hnext, joined_of_ahead ha, ← hsettle]
    rfl

theorem before_of_openGroup (h : c.openGroup.Before j) :
    c.Before j ∧ (c.joined j).openGroup = c.openGroup.joined j := by
  obtain ⟨rest, ha, hr⟩ := h
  have hsettle : settle (c.groups + 1) c.ahead = rest ++ [j.last] := by rw [settle_succ, ← ha]; rfl
  obtain ⟨us, hahead, hus, hmore⟩ := exists_of_settle hsettle hr
  refine ⟨⟨us, hahead, fun _ => hus (hr (Nat.succ_ne_zero _))⟩, ?_⟩
  rw [joined_of_ahead ha, joined_of_ahead hahead, ← hmore, settle_succ]
  rfl

end Cursor

namespace ParseState

/-- **The parser is before the seam**, and has found nothing wrong but what may be. -/
structure Before (j : Seam) (s : ParseState) : Prop where
  clean : j.Clean s.findings
  cursor : s.toCursor.Before j

/-- The same state, if the list goes on. -/
def joined (j : Seam) (s : ParseState) : ParseState :=
  ⟨s.toCursor.joined j, s.findings⟩

end ParseState

/-! ## Two runs side by side -/

variable {ε α β : Type}

/-- The state a run leaves. -/
def finalState : EStateM.Result ε ParseState α → ParseState
  | .ok _ s => s
  | .error _ s => s

/-- The same end of a run, if the list goes on. -/
def Seam.carry (j : Seam) : EStateM.Result ε ParseState α → EStateM.Result ε ParseState α
  | .ok a s => .ok a (s.joined j)
  | .error e s => .error e (s.joined j)

/-- **What `x` does on the list alone, `y` does if the list goes on**: if the run of `x` ends before
the seam then it also starts before it, and the run of `y` is the same.  In any case the state that
`x` leaves with a result satisfies `after`. -/
structure Beside (j : Seam) (x y : Parser ε α) (s : ParseState) (after : ParseState → Prop) :
    Prop where
  before : (finalState (x s)).Before j → s.Before j
  same : (finalState (x s)).Before j → y (s.joined j) = j.carry (x s)
  after : ∀ a t, x s = .ok a t → after t

namespace Beside

variable {j : Seam} {s : ParseState} {x y : Parser ε α} {f g : α → Parser ε β}
  {after final : ParseState → Prop}

theorem mono (h : Beside j x y s after) (hafter : ∀ t, after t → final t) :
    Beside j x y s final :=
  ⟨h.before, h.same, fun a t hx => hafter t (h.after a t hx)⟩

/-- **Going on**: what holds of both parts holds of the whole. -/
theorem bind (h : Beside j x y s after)
    (hf : ∀ a t, after t → Beside j (f a) (g a) t final) :
    Beside j (x >>= f) (y >>= g) s final := by
  cases hx : x s with
  | ok a t =>
    have hrest := hf a t (h.after a t hx)
    have hrun : (x >>= f) s = f a t := bind_of_ok hx f
    have hback : (finalState (f a t)).Before j → (finalState (x s)).Before j := by
      rw [hx]
      exact hrest.before
    refine ⟨?_, ?_, ?_⟩
    · rw [hrun]
      exact fun hend => h.before (hback hend)
    · rw [hrun]
      intro hend
      have hy := h.same (hback hend)
      rw [hx] at hy
      rw [bind_of_ok hy g]
      exact hrest.same hend
    · rw [hrun]
      exact hrest.after
  | error e t =>
    have hrun : (x >>= f) s = .error e t := bind_of_error hx f
    have hsame := h.same
    have hbefore := h.before
    rw [hx] at hsame hbefore
    refine ⟨?_, ?_, ?_⟩
    · rw [hrun]
      exact hbefore
    · rw [hrun]
      exact fun hend => bind_of_error (hsame hend) g
    · rw [hrun]
      rintro _ _ ⟨⟩

/-- A run that does not end before the seam is beside any other. -/
theorem of_not_before (hend : ¬ (finalState (x s)).Before j)
    (hafter : ∀ a t, x s = .ok a t → after t) : Beside j x y s after :=
  ⟨fun h => absurd h hend, fun h => absurd h hend, hafter⟩

/-- A result that is there already. -/
theorem pure {a : α} (h : after s) : Beside j (pure a : Parser ε α) (pure a) s after := by
  refine ⟨id, fun _ => rfl, ?_⟩
  rintro _ _ ⟨⟩
  exact h

theorem throw {e : ε} : Beside j (throw e : Parser ε α) (throw e) s after := by
  refine ⟨id, fun _ => rfl, ?_⟩
  rintro _ _ ⟨⟩

end Beside

/-- **How far a run has got**: behind `base`, inside `groups` groups, with at most `bound` tokens
ahead. -/
structure At (base : ParseState) (groups bound : Nat) (s : ParseState) : Prop where
  later : base.Later s
  groups_eq : s.groups = groups
  length_le : s.ahead.length ≤ bound

namespace At

variable {base s : ParseState} {groups bound bound' : Nat}

theorem mono (h : At base groups bound s) (hb : bound ≤ bound') : At base groups bound' s :=
  ⟨h.later, h.groups_eq, Nat.le_trans h.length_le hb⟩

theorem tight (h : At base groups bound s) : At base groups s.ahead.length s :=
  ⟨h.later, h.groups_eq, Nat.le_refl _⟩

/-- A step leaves less ahead, unless nothing is. -/
theorem advance (h : At base groups bound s) :
    At base groups (bound - 1) ⟨s.toCursor.advance, s.findings⟩ := by
  refine ⟨h.later.advance, (Cursor.advance_groups _).trans h.groups_eq, ?_⟩
  show s.toCursor.advance.ahead.length ≤ bound - 1
  have hle := h.length_le
  by_cases hend : s.current.kind = .eof
  · rw [Cursor.advance_of_eof h.later.ready hend, h.later.ready.ahead_eq_nil hend]
    exact Nat.zero_le _
  · have := h.later.ready.length_advance_lt hend
    omega

theorem openGroup (h : At base groups bound s) :
    At base (groups + 1) bound ⟨s.toCursor.openGroup, s.findings⟩ := by
  refine ⟨h.later.openGroup, congrArg (· + 1) h.groups_eq, Nat.le_trans ?_ h.length_le⟩
  exact (List.dropWhile_sublist isNewline).length_le

theorem closeGroup (h : At base (groups + 1) bound s) :
    At base groups bound ⟨s.toCursor.closeGroup, s.findings⟩ :=
  ⟨h.later.closeGroup, congrArg (· - 1) h.groups_eq, h.length_le⟩

end At

namespace Parse

open Beside

variable {j : Seam} {base s : ParseState} {groups bound : Nat} {after : ParseState → Prop}

/-! ## Single steps -/

/-- Moving the cursor, if that does not pass the seam unseen. -/
theorem move_beside {f : Cursor → Cursor}
    (hf : (f s.toCursor).Before j →
      s.toCursor.Before j ∧ f (s.toCursor.joined j) = (f s.toCursor).joined j)
    (hafter : after ⟨f s.toCursor, s.findings⟩) :
    Beside j (move f : Parser ε Unit) (move f) s after := by
  refine ⟨fun h => ⟨h.clean, (hf h.cursor).1⟩, fun h => ?_, ?_⟩
  · show EStateM.Result.ok () (ParseState.mk (f (s.toCursor.joined j)) s.findings) = _
    rw [(hf h.cursor).2]
    rfl
  · rintro _ _ ⟨⟩
    exact hafter

theorem advance_beside (hs : At base groups bound s) :
    Beside j (advance : Parser ε Unit) advance s (At base groups (bound - 1)) := by
  refine move_beside (fun h => ?_) hs.advance
  obtain ⟨⟨rest, ha, hr⟩, hsame⟩ := Cursor.exists_of_advance h
  exact ⟨⟨rest, ha, fun _ => hr⟩, hsame⟩

theorem openGroup_beside (hs : At base groups bound s) :
    Beside j (move Cursor.openGroup : Parser ε Unit) (move Cursor.openGroup) s
      (At base (groups + 1) bound) :=
  move_beside Cursor.before_of_openGroup hs.openGroup

theorem current_bind {f g : Token → Parser ε α}
    (h : Beside j (f s.current) (g s.current) s after) :
    Beside j (current >>= f) (current >>= g) s after :=
  ⟨h.before, h.same, h.after⟩

theorem get_bind {f g : ParseState → Parser ε α} (h : Beside j (f s) (g (s.joined j)) s after) :
    Beside j (get >>= f) (get >>= g) s after :=
  ⟨h.before, h.same, h.after⟩

theorem remaining_bind {f g : Nat → Parser ε α}
    (h : ∀ n, s.ahead.length ≤ n → Beside j (f s.ahead.length) (g n) s after) :
    Beside j (remaining >>= f) (remaining >>= g) s after :=
  have hmore := h _ (Cursor.length_joined_le j s.toCursor)
  ⟨hmore.before, hmore.same, hmore.after⟩

/-- Looking ahead.  At the seam one run sees the end and the other a newline. -/
theorem peek_bind {f g : Token → Parser ε α}
    (h : Beside j (f s.toCursor.peek) (g s.toCursor.peek) s after)
    (hseam : ∀ t, s.toCursor.peek.kind = .eof → t.kind = .endOfLine →
      Beside j (f s.toCursor.peek) (g t) s after) :
    Beside j (peek >>= f) (peek >>= g) s after := by
  refine ⟨h.before, fun hend => ?_, h.after⟩
  show g (s.toCursor.joined j).peek (s.joined j) = j.carry (f s.toCursor.peek s)
  rcases (h.before hend).cursor.peek_joined with heq | ⟨heof, hline⟩
  · rw [heq]
    exact h.same hend
  · exact (hseam _ heof hline).same hend

theorem peekIs_bind {kind : Kind} (hk : kind.isBoundary = false) {f g : Bool → Parser ε α}
    (h : ∀ b, Beside j (f b) (g b) s after) :
    Beside j (peekIs kind >>= f) (peekIs kind >>= g) s after := by
  have hall : Beside j (peek >>= fun t => f (t.is kind)) (peek >>= fun t => g (t.is kind)) s
      after := by
    refine peek_bind (h _) fun t heof hline => ?_
    have hsame : t.is kind = s.toCursor.peek.is kind := by
      simp only [Token.is, hline, heof]
      revert hk
      cases kind <;> decide
    rw [hsame]
    exact h _
  exact ⟨hall.before, hall.same, hall.after⟩

section Choice
variable {x x' y y' : Parser ε α} (hx : Beside j x x' s after) (hy : Beside j y y' s after)
include hx hy

/-- A choice for which it is all the same whether the end or a newline is ahead. -/
theorem peek_ite (p : Kind → Prop) [DecidablePred p] (hp : p .endOfLine ↔ p .eof) :
    Beside j (do if p (← peek).kind then x else y) (do if p (← peek).kind then x' else y') s
      after := by
  have hboth : Beside j (if p s.toCursor.peek.kind then x else y)
      (if p s.toCursor.peek.kind then x' else y') s after := by
    split
    · exact hx
    · exact hy
  refine peek_bind hboth fun t heof hline => ?_
  have hsame : p t.kind ↔ p s.toCursor.peek.kind := by rw [hline, heof, hp]
  rw [if_congr hsame rfl rfl]
  exact hboth

theorem peekIs_ite {kind : Kind} (hk : kind.isBoundary = false) :
    Beside j (do if ← peekIs kind then x else y) (do if ← peekIs kind then x' else y') s after := by
  refine peekIs_bind hk fun b => ?_
  cases b
  · exact hy
  · exact hx

theorem atEnd_ite :
    Beside j (do if ← atEnd then x else y) (do if ← atEnd then x' else y') s after := by
  have h := peek_ite hx hy (fun k => k.isTerminator = true) Iff.rfl
  exact ⟨h.before, h.same, h.after⟩

end Choice

/-- Giving up is recorded, unless the token is none. -/
theorem reject_run (violation : Violation) (token : Token) (s : ParseState) :
    (reject violation token : Parse α) s =
      .error .malformed ⟨s.toCursor,
        if token.is .illegal then s.findings else s.findings ++ [⟨violation, token⟩]⟩ := by
  unfold reject
  cases hi : token.is .illegal <;> rfl

theorem reject_beside {violation : Violation} {token : Token} :
    Beside j (reject violation token : Parse α) (reject violation token) s after := by
  refine ⟨fun h => ?_, fun _ => ?_, ?_⟩
  · rw [reject_run] at h
    refine ⟨?_, h.cursor⟩
    have hclean := h.clean
    dsimp only [finalState] at hclean
    split at hclean
    · exact hclean
    · exact j.clean_of_append _ _ hclean
  · rw [reject_run, reject_run]
    rfl
  · rw [reject_run]
    rintro _ _ ⟨⟩

/-- Giving up at the end is what the other run does not do. -/
theorem not_before_reject {violation : Violation} {token : Token} (h : token.kind = .eof) :
    ¬ (finalState ((reject violation token : Parse α) s)).Before j := by
  rw [reject_run, if_neg (by simp [Token.is, h])]
  exact fun hend => j.ne_eof_of_clean _ _ hend.clean h

theorem reject_eof {violation : Violation} {token : Token} {y : Parse α} (h : token.kind = .eof) :
    Beside j (reject violation token : Parse α) y s after :=
  of_not_before (not_before_reject h) (reject_beside (j := j)).after

section Expect
variable {kind : Kind} {what : String} (hk : kind.isBoundary = false)
include hk

theorem not_before_expectNamed (heof : s.toCursor.peek.kind = .eof) :
    ¬ (finalState (expectNamed kind what s)).Before j := by
  have hne : s.toCursor.peek.is kind = false := by
    simp only [Token.is, heof]
    revert hk
    cases kind <;> decide
  show ¬ (finalState ((if s.toCursor.peek.is kind = true then _ else _ : Parse Token) s)).Before j
  rw [if_neg (by rw [hne]; decide)]
  exact not_before_reject heof

theorem expectNamed_beside (hs : At base groups bound s) :
    Beside j (expectNamed kind what) (expectNamed kind what) s (At base groups (bound - 1)) := by
  have hthis : ∀ token : Token,
      Beside j (if token.is kind then do advance; current else reject (.expected what token) token)
        (if token.is kind then do advance; current else reject (.expected what token) token) s
        (At base groups (bound - 1)) := by
    intro token
    split
    · exact (advance_beside hs).bind fun _ _ ht => current_bind (.pure ht)
    · exact reject_beside
  refine peek_bind (hthis _) fun t heof _ => of_not_before ?_ (hthis _).after
  exact not_before_expectNamed hk heof

end Expect

/-! ## Leaving a group -/

/-- Closing a group is the same on both sides if the end is not what comes next. -/
theorem closeGroup_beside {x : Parser ε α}
    (hx : Beside j x x ⟨s.toCursor.closeGroup, s.findings⟩ after)
    (hne : (finalState (x ⟨s.toCursor.closeGroup, s.findings⟩)).Before j → s.ahead ≠ [j.last]) :
    Beside j (do move Cursor.closeGroup; x) (do move Cursor.closeGroup; x) s after := by
  refine ⟨fun hend => ⟨(hx.before hend).clean, ?_⟩, hx.same, hx.after⟩
  obtain ⟨rest, ha, -⟩ := (hx.before hend).cursor
  refine ⟨rest, ha, ?_⟩
  rintro - rfl
  exact hne hend ha

/-- A group is closed by its bracket, so the end does not come first. -/
theorem close_bind {closer : Kind} (hk : closer.isBoundary = false)
    (hs : At base (groups + 1) bound s) {f g : Token → Parse α}
    (h : ∀ token t, At base groups (bound - 1) t → Beside j (f token) (g token) t after) :
    Beside j (do move Cursor.closeGroup; let token ← expect closer; f token)
      (do move Cursor.closeGroup; let token ← expect closer; g token) s after := by
  have hclose : Beside j (do move Cursor.closeGroup; expect closer)
      (do move Cursor.closeGroup; expect closer) s (At base groups (bound - 1)) := by
    refine closeGroup_beside (expectNamed_beside hk hs.closeGroup) fun hend ha => ?_
    refine not_before_expectNamed hk ?_ hend
    simp [Cursor.peek, Cursor.closeGroup, ha, j.last_kind]
  have hall := hclose.bind h
  exact ⟨hall.before, hall.same, hall.after⟩

theorem leave_bind (hs : At base (groups + 1) bound s) {x y : Parser ε α}
    (h : ∀ t, At base groups (bound - 1) t → Beside j x y t after) :
    Beside j (do move Cursor.closeGroup; advance; x) (do move Cursor.closeGroup; advance; y) s
      after := by
  have hleave : Beside j (do move Cursor.closeGroup; advance : Parser ε Unit)
      (do move Cursor.closeGroup; advance) s (At base groups (bound - 1)) := by
    refine closeGroup_beside (advance_beside hs.closeGroup) fun hend ha => ?_
    obtain ⟨⟨rest, ha', hr⟩, -⟩ := Cursor.exists_of_advance hend.cursor
    exact hr (List.append_left_eq_self.1 (ha'.symm.trans ha))
  have hall := hleave.bind fun _ => h
  exact ⟨hall.before, hall.same, hall.after⟩

/-! ## Loops

A loop is bounded by what is ahead, which is less on one side.  Its bound runs out only where
nothing is ahead. -/

theorem not_before_of_bound (hs : At base groups bound s) (hb : bound ≤ 0) : ¬ s.Before j := by
  intro h
  have hle := Nat.le_trans hs.length_le hb
  exact h.cursor.not_nil (List.length_eq_zero_iff.1 (Nat.le_zero.1 hle))

theorem pure_of_bound {a : α} {y : Parser ε α} (hs : At base groups bound s) (hb : bound ≤ 0) :
    Beside j (Pure.pure a) y s (At base groups bound) :=
  of_not_before (not_before_of_bound hs hb) (Beside.pure (j := j) hs).after

end Parse

end LimLang
