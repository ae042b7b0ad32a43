import LimLang.Proofs.Seam
import LimLang.Proofs.Sight

/-! # Parsing in tandem

Two lists of tokens are parsed side by side.  They look the same up to a place, and there either both
end, or both have a newline and go on with different tokens (`Tandem`).  The first parser may be
nested less deep than the second.  As long as neither has passed the place they do the same: what
they see is the same, and so is what they do about it.

It is the first run that is followed (`Tracks`).  If it crashes nothing is said, since the second may
go deeper; and if it passes the place, nothing is said either.  A run that has passed the place never
comes back, because what is ahead gets less and less (`Shrinks`).  Inside a group newlines are
dropped, so there the place must not be what comes next; else the run counts as past it.

The loops of the parser are bounded by the number of tokens ahead.  The bounds of two loops are the
same, or both are as large as what is ahead (`Tandem.Fair`).
-/
namespace LimLang

open Cursor (isNewline)

/-- **Two lists of tokens that look the same up to a place**, and what comes then. -/
structure Tandem where
  sight : Sight
  /-- What the first list goes on with. -/
  tail : List Token
  /-- What the second list goes on with. -/
  tail' : List Token
  ends : tail = [] ∧ tail' = [] ∨
    ∃ newline more more', newline.kind = .endOfLine ∧ tail = newline :: more ∧
      tail' = newline :: more' ∧ (∃ t ∈ more, t.kind ≠ .endOfLine) ∧ ∃ t ∈ more', t.kind ≠ .endOfLine

namespace Tandem

variable {p : Tandem} {us us' : List Token}

/-- The place is passed. -/
def Past (p : Tandem) (ahead : List Token) : Prop :=
  ahead.length < p.tail.length

theorem Past.mono {ahead left : List Token} (h : p.Past ahead)
    (hle : left.length ≤ ahead.length) : p.Past left :=
  Nat.lt_of_le_of_lt hle h

theorem tail'_eq_nil_iff : p.tail' = [] ↔ p.tail = [] := by
  rcases p.ends with ⟨htail, htail'⟩ | ⟨newline, more, more', -, htail, htail', -⟩
  · rw [htail, htail']
  · simp [htail, htail']

/-- Behind the newline at the place something is left. -/
theorem exists_dropWhile_tail (h : p.tail ≠ []) :
    ∃ t ts, p.tail.dropWhile isNewline = t :: ts ∧ ts.length + 1 < p.tail.length := by
  rcases p.ends with ⟨hnil, -⟩ | ⟨newline, more, -, hline, htail, -, ⟨u, hu, hune⟩, -⟩
  · exact absurd hnil h
  rw [htail, List.dropWhile_cons_of_pos (isNewline_iff.2 hline)]
  cases hd : more.dropWhile isNewline with
  | nil =>
    have hline := List.dropWhile_eq_nil_iff.1 hd u hu
    exact absurd (isNewline_iff.1 hline) hune
  | cons t ts =>
    have hle := (List.dropWhile_sublist isNewline (l := more)).length_le
    rw [hd, List.length_cons] at hle
    exact ⟨t, ts, rfl, by rw [List.length_cons]; omega⟩

/-- **Dropping newlines** passes the place, or comes to nothing at all, or to tokens that look the
same. -/
theorem dropWhile_cases (h : us.map p.sight.see = us'.map p.sight.see) :
    (∃ t ts, (us ++ p.tail).dropWhile isNewline = t :: ts ∧ ts.length + 1 < p.tail.length) ∨
      (p.tail = [] ∧ (us ++ p.tail).dropWhile isNewline = [] ∧
        (us' ++ p.tail').dropWhile isNewline = []) ∨
      ∃ t t' rest rest', (us ++ p.tail).dropWhile isNewline = t :: (rest ++ p.tail) ∧
        (us' ++ p.tail').dropWhile isNewline = t' :: (rest' ++ p.tail') ∧
        p.sight.see t = p.sight.see t' ∧ rest.map p.sight.see = rest'.map p.sight.see := by
  induction us generalizing us' with
  | nil =>
    obtain rfl : us' = [] := List.map_eq_nil_iff.1 h.symm
    by_cases htail : p.tail = []
    · have htail' := tail'_eq_nil_iff.2 htail
      exact .inr (.inl ⟨htail, by rw [htail]; rfl, by rw [htail']; rfl⟩)
    · exact .inl (exists_dropWhile_tail htail)
  | cons u us ih =>
    obtain ⟨u', us', rfl⟩ : ∃ u' us'', us' = u' :: us'' := by
      cases us' with
      | nil => simp at h
      | cons u' us' => exact ⟨u', us', rfl⟩
    obtain ⟨hu, hus⟩ := List.cons.inj h
    by_cases hline : u.kind = .endOfLine
    · have hline' : u'.kind = .endOfLine := (Sight.kind_eq hu).symm.trans hline
      rw [List.cons_append, List.cons_append, List.dropWhile_cons_of_pos (isNewline_iff.2 hline),
        List.dropWhile_cons_of_pos (isNewline_iff.2 hline')]
      exact ih hus
    · have hline' : u'.kind ≠ .endOfLine := fun h => hline ((Sight.kind_eq hu).trans h)
      exact .inr (.inr ⟨u, u', us, us', dropWhile_of_ne hline _, dropWhile_of_ne hline' _, hu, hus⟩)

/-- What is settled passes the place, or looks the same; inside a group something is left before the
place. -/
theorem settle_cases (groups : Nat) (h : us.map p.sight.see = us'.map p.sight.see) :
    p.Past (settle groups (us ++ p.tail)) ∨
      ∃ rest rest', settle groups (us ++ p.tail) = rest ++ p.tail ∧
        settle groups (us' ++ p.tail') = rest' ++ p.tail' ∧
        rest.map p.sight.see = rest'.map p.sight.see ∧ (groups ≠ 0 → p.tail ≠ [] → rest ≠ []) := by
  by_cases hg : groups = 0
  · subst hg
    exact .inr ⟨us, us', rfl, rfl, h, fun h => absurd rfl h⟩
  rw [settle_pos hg, settle_pos hg]
  rcases dropWhile_cases h with ⟨t, ts, hd, hlt⟩ | ⟨htail, hd, hd'⟩ |
    ⟨t, t', rest, rest', hd, hd', ht, hrest⟩
  · left
    rw [hd]
    exact hlt
  · right
    have htail' := tail'_eq_nil_iff.2 htail
    exact ⟨[], [], by rw [hd, htail]; rfl, by rw [hd', htail']; rfl, rfl, fun _ h => absurd htail h⟩
  · right
    refine ⟨t :: rest, t' :: rest', hd, hd', ?_, fun _ _ => List.cons_ne_nil _ _⟩
    rw [List.map_cons, List.map_cons, ht, hrest]

/-! ## Cursors in sync -/

/-- **Two cursors at the same place** of the two lists, inside `groups` groups.  If the lists go on,
`m` and `n` bound what is ahead. -/
structure Sync (p : Tandem) (groups m n : Nat) (c c' : Cursor) : Prop where
  current : p.sight.see c.current = p.sight.see c'.current
  groups_eq : c.groups = groups
  groups_eq' : c'.groups = groups
  ahead : ∃ rest rest', c.ahead = rest ++ p.tail ∧ c'.ahead = rest' ++ p.tail' ∧
    rest.map p.sight.see = rest'.map p.sight.see ∧ (groups ≠ 0 → p.tail ≠ [] → rest ≠ [])
  bounds : p.tail ≠ [] → c.ahead.length ≤ m ∧ c'.ahead.length ≤ n

namespace Sync

variable {groups m n m' n' : Nat} {c c' : Cursor}

theorem mono (h : p.Sync groups m n c c') (hb : p.tail ≠ [] → m ≤ m' ∧ n ≤ n') :
    p.Sync groups m' n' c c' := by
  refine ⟨h.current, h.groups_eq, h.groups_eq', h.ahead, fun htail => ?_⟩
  obtain ⟨hm, hn⟩ := h.bounds htail
  obtain ⟨hm', hn'⟩ := hb htail
  omega

theorem tight (h : p.Sync groups m n c c') :
    p.Sync groups c.ahead.length c'.ahead.length c c' :=
  ⟨h.current, h.groups_eq, h.groups_eq', h.ahead, fun _ => ⟨Nat.le_refl _, Nat.le_refl _⟩⟩

theorem peek (h : p.Sync groups m n c c') : p.sight.see c.peek = p.sight.see c'.peek := by
  obtain ⟨rest, rest', ha, ha', hrest, -⟩ := h.ahead
  rw [Cursor.peek, Cursor.peek, ha, ha']
  cases rest with
  | nil =>
    obtain rfl : rest' = [] := List.map_eq_nil_iff.1 hrest.symm
    rcases p.ends with ⟨htail, htail'⟩ | ⟨newline, more, more', -, htail, htail', -⟩
    · rw [htail, htail']
      exact h.current
    · rw [htail, htail']
      rfl
  | cons t rest =>
    cases rest' with
    | nil => simp at hrest
    | cons t' rest' => exact (List.cons.inj hrest).1

/-- **A step** passes the place, or both cursors take it. -/
theorem advance (h : p.Sync groups m n c c') :
    p.Past c.advance.ahead ∨ p.Sync groups (m - 1) (n - 1) c.advance c'.advance := by
  obtain ⟨rest, rest', ha, ha', hrest, -⟩ := h.ahead
  rcases dropWhile_cases hrest with ⟨t, ts, hd, hlt⟩ | ⟨htail, hd, hd'⟩ |
    ⟨t, t', us, us', hd, hd', ht, hus⟩
  · left
    rw [← ha] at hd
    rw [Cursor.advance_of_ahead hd]
    have hle := (settle_sublist c.groups ts).length_le
    unfold Past
    dsimp only
    omega
  · right
    rw [← ha] at hd
    rw [← ha'] at hd'
    rw [Cursor.advance_of_nil hd, Cursor.advance_of_nil hd']
    exact h.mono fun hne => absurd htail hne
  · rw [← ha] at hd
    rw [← ha'] at hd'
    have hbounds : p.tail ≠ [] → (us ++ p.tail).length ≤ m - 1 ∧ (us' ++ p.tail').length ≤ n - 1 := by
      intro htail
      have hle := (List.dropWhile_sublist isNewline (l := c.ahead)).length_le
      have hle' := (List.dropWhile_sublist isNewline (l := c'.ahead)).length_le
      rw [hd, List.length_cons] at hle
      rw [hd', List.length_cons] at hle'
      have := h.bounds htail
      omega
    rw [Cursor.advance_of_ahead hd, Cursor.advance_of_ahead hd', h.groups_eq, h.groups_eq']
    rcases settle_cases groups hus with hpast | ⟨left, left', hl, hl', hleft, hne⟩
    · exact .inl hpast
    · refine .inr ⟨ht, rfl, rfl, ⟨left, left', hl, hl', hleft, hne⟩, fun htail => ?_⟩
      have hle := (settle_sublist groups (us ++ p.tail)).length_le
      have hle' := (settle_sublist groups (us' ++ p.tail')).length_le
      have := hbounds htail
      dsimp only
      omega

theorem openGroup (h : p.Sync groups m n c c') :
    p.Past c.openGroup.ahead ∨ p.Sync (groups + 1) m n c.openGroup c'.openGroup := by
  obtain ⟨rest, rest', ha, ha', hrest, -⟩ := h.ahead
  have hopen : c.openGroup.ahead = settle (groups + 1) (rest ++ p.tail) := by
    rw [settle_succ, ← ha]
    rfl
  have hopen' : c'.openGroup.ahead = settle (groups + 1) (rest' ++ p.tail') := by
    rw [settle_succ, ← ha']
    rfl
  rcases settle_cases (groups + 1) hrest with hpast | ⟨left, left', hl, hl', hleft, hne⟩
  · left
    rw [hopen]
    exact hpast
  · refine .inr ⟨h.current, congrArg (· + 1) h.groups_eq, congrArg (· + 1) h.groups_eq',
      ⟨left, left', hopen.trans hl, hopen'.trans hl', hleft, hne⟩, fun htail => ?_⟩
    have hle := (List.dropWhile_sublist isNewline (l := c.ahead)).length_le
    have hle' := (List.dropWhile_sublist isNewline (l := c'.ahead)).length_le
    have := h.bounds htail
    simp only [Cursor.openGroup]
    omega

theorem closeGroup (h : p.Sync (groups + 1) m n c c') :
    p.Sync groups m n c.closeGroup c'.closeGroup := by
  obtain ⟨rest, rest', ha, ha', hrest, hne⟩ := h.ahead
  exact ⟨h.current, congrArg (· - 1) h.groups_eq, congrArg (· - 1) h.groups_eq',
    ⟨rest, rest', ha, ha', hrest, fun _ => hne (Nat.succ_ne_zero _)⟩, h.bounds⟩

/-- Outside of all groups. -/
theorem ungroup (h : p.Sync groups m n c c') :
    p.Sync 0 m n { c with groups := 0 } { c' with groups := 0 } := by
  obtain ⟨rest, rest', ha, ha', hrest, -⟩ := h.ahead
  exact ⟨h.current, rfl, rfl, ⟨rest, rest', ha, ha', hrest, fun h => absurd rfl h⟩, h.bounds⟩

end Sync

/-- **Bounds of two loops** that are started in sync: the same if the lists end, and else as large as
what is ahead. -/
def Fair (p : Tandem) (more more' m n : Nat) : Prop :=
  (p.tail = [] → more = more') ∧ (p.tail ≠ [] → m ≤ more ∧ n ≤ more')

theorem Fair.mono {more more' m n m' n' : Nat} (h : p.Fair (more + 1) (more' + 1) m n)
    (hm : m' ≤ m - 1) (hn : n' ≤ n - 1) : p.Fair more more' m' n' := by
  refine ⟨fun htail => Nat.succ.inj (h.1 htail), fun htail => ?_⟩
  have := h.2 htail
  omega

theorem Fair.succ {more more' m n : Nat} (h : p.Fair more more' m n) :
    p.Fair (more + 1) (more' + 1) m n := by
  refine ⟨fun htail => congrArg (· + 1) (h.1 htail), fun htail => ?_⟩
  have := h.2 htail
  omega

theorem Sync.fair {groups m n : Nat} {c c' : Cursor} (h : p.Sync groups m n c c') :
    p.Fair c.ahead.length c'.ahead.length c.ahead.length c'.ahead.length := by
  refine ⟨fun htail => ?_, fun _ => ⟨Nat.le_refl _, Nat.le_refl _⟩⟩
  obtain ⟨rest, rest', ha, ha', hrest, -⟩ := h.ahead
  have hlength := congrArg List.length hrest
  rw [List.length_map, List.length_map] at hlength
  rw [ha, ha', htail, tail'_eq_nil_iff.2 htail, List.append_nil, List.append_nil, hlength]

/-- A loop that may not go on stands at the end of a list that ends. -/
theorem Sync.fair_cases {groups m n more more' : Nat} {c c' : Cursor} (h : p.Sync groups m n c c')
    (hf : p.Fair more more' m n) :
    more = 0 ∧ more' = 0 ∨ ∃ k k', more = k + 1 ∧ more' = k' + 1 := by
  by_cases htail : p.tail = []
  · have hsame := hf.1 htail
    subst hsame
    cases more with
    | zero => exact .inl ⟨rfl, rfl⟩
    | succ k => exact .inr ⟨k, k, rfl, rfl⟩
  · -- Something is ahead on both sides.
    obtain ⟨rest, rest', ha, ha', -⟩ := h.ahead
    obtain ⟨hm, hn⟩ := h.bounds htail
    obtain ⟨hmore, hmore'⟩ := hf.2 htail
    have hpos := List.length_pos_of_ne_nil htail
    have hpos' := List.length_pos_of_ne_nil (mt tail'_eq_nil_iff.1 htail)
    rw [ha, List.length_append] at hm
    rw [ha', List.length_append] at hn
    exact .inr ⟨more - 1, more' - 1, by omega, by omega⟩

end Tandem

theorem Cursor.length_skipWithin_le (bound depth : Nat) (c : Cursor) :
    (c.skipWithin bound depth).ahead.length ≤ c.ahead.length := by
  induction bound generalizing c depth with
  | zero => exact Nat.le_refl _
  | succ bound ih =>
    unfold skipWithin
    split
    · exact Nat.le_refl _
    · split
      · exact Nat.le_refl _
      · exact Nat.le_trans (ih _ _) (length_ahead_advance_le c)

namespace Tandem

variable {p : Tandem}

/-- **Malformed statements are skipped in sync.** -/
theorem Sync.skipWithin {groups m n bound bound' : Nat} {c c' : Cursor} (h : p.Sync groups m n c c')
    (hf : p.Fair bound bound' m n) (depth : Nat) :
    p.Past (c.skipWithin bound depth).ahead ∨
      p.Sync groups m n (c.skipWithin bound depth) (c'.skipWithin bound' depth) := by
  induction bound generalizing c c' m n bound' depth with
  | zero =>
    rcases h.fair_cases hf with ⟨-, rfl⟩ | ⟨_, _, h0, -⟩
    · exact .inr h
    · cases h0
  | succ bound ih =>
    obtain ⟨-, bound', -, rfl⟩ : ∃ k k', bound + 1 = k + 1 ∧ bound' = k' + 1 := by
      rcases h.fair_cases hf with ⟨h0, -⟩ | hboth
      · cases h0
      · exact hboth
    unfold Cursor.skipWithin
    rw [← Sight.kind_eq h.current, ← Sight.kind_eq h.peek]
    split
    · exact .inr h
    · split
      · exact .inr h
      · rcases h.advance with hpast | hnext
        · exact .inl (hpast.mono (Cursor.length_skipWithin_le _ _ _))
        · exact (ih hnext (hf.mono (Nat.le_refl _) (Nat.le_refl _)) _).imp_right
            fun h => h.mono fun _ => ⟨Nat.sub_le _ _, Nat.sub_le _ _⟩

end Tandem

/-! ## Runs in tandem -/

variable {ε α β : Type}

/-- **A parser that only goes forward**: it never leaves more ahead than it found. -/
def Shrinks (x : Parser ε α) : Prop :=
  ∀ s, (finalState (x s)).ahead.length ≤ s.ahead.length

namespace Shrinks

theorem pure (a : α) : Shrinks (pure a : Parser ε α) := fun _ => Nat.le_refl _

theorem throw (e : ε) : Shrinks (throw e : Parser ε α) := fun _ => Nat.le_refl _

theorem bind {x : Parser ε α} {f : α → Parser ε β} (hx : Shrinks x) (hf : ∀ a, Shrinks (f a)) :
    Shrinks (x >>= f) := by
  intro s
  have hle := hx s
  cases hrun : x s with
  | ok a t =>
    rw [hrun] at hle
    rw [bind_of_ok hrun]
    exact Nat.le_trans (hf a t) hle
  | error e t =>
    rw [hrun] at hle
    rw [bind_of_error hrun]
    exact hle

theorem move {f : Cursor → Cursor} (hf : ∀ c, (f c).ahead.length ≤ c.ahead.length) :
    Shrinks (Parse.move f : Parser ε Unit) :=
  fun s => hf s.toCursor

theorem current_bind {f : Token → Parser ε α} (hf : ∀ t, Shrinks (f t)) :
    Shrinks (Parse.current >>= f) :=
  fun s => hf s.current s

theorem remaining_bind {f : Nat → Parser ε α} (hf : ∀ n, Shrinks (f n)) :
    Shrinks (Parse.remaining >>= f) :=
  fun s => hf s.ahead.length s

theorem reject (violation : Violation) (token : Token) :
    Shrinks (Parse.reject violation token : Parse α) := by
  intro s
  rw [Parse.reject_run]
  exact Nat.le_refl _

end Shrinks

/-- Reasons to halt, and which of them a surrounding parser recovers from. -/
class Halt (ε : Type) where
  Mendable : ε → Prop

instance : Halt Crash := ⟨fun _ => False⟩

instance : Halt ParseHalt := ⟨fun halt => halt = .malformed⟩

namespace Tandem

/-- **Two parsers at the same place**, which have found the same wrong. -/
structure InSync (p : Tandem) (groups m n : Nat) (s s' : ParseState) : Prop where
  cursor : p.Sync groups m n s.toCursor s'.toCursor
  findings : s.findings.map (Finding.mapTokens p.sight.see) =
    s'.findings.map (Finding.mapTokens p.sight.see)

theorem InSync.mono {p : Tandem} {groups m n m' n' : Nat} {s s' : ParseState}
    (h : p.InSync groups m n s s') (hb : p.tail ≠ [] → m ≤ m' ∧ n ≤ n') :
    p.InSync groups m' n' s s' :=
  ⟨h.cursor.mono hb, h.findings⟩

/-- **What the second run does, told by the first**: the same, unless the first crashes or passes the
place. -/
def Agrees [Halt ε] [Visible α] (p : Tandem) (post : ParseState → ParseState → Prop) :
    EStateM.Result ε ParseState α → EStateM.Result ε ParseState α → Prop
  | .ok a t, r =>
      p.Past t.ahead ∨ ∃ a' t', r = .ok a' t' ∧ look p.sight a = look p.sight a' ∧ post t t'
  | .error e t, r =>
      Halt.Mendable e → p.Past t.ahead ∨
        ∃ t' groups m n, r = .error e t' ∧ p.InSync groups m n t t'

end Tandem

/-- **The runs of `x` and `y` in tandem**, from states that satisfy `pre` to states that satisfy
`post`. -/
structure Tracks [Halt ε] [Visible α] (p : Tandem) (pre post : ParseState → ParseState → Prop)
    (x y : Parser ε α) : Prop where
  shrinks : Shrinks x ∧ Shrinks y
  agrees : ∀ s s', pre s s' → p.Agrees post (x s) (y s')

namespace Tracks

open Tandem (InSync)

variable [Halt ε] [Visible α] [Visible β] {p : Tandem}
  {pre mid post final : ParseState → ParseState → Prop} {x y : Parser ε α}
  {f g : α → Parser ε β} {groups m n m' n' : Nat}

theorem mono (h : Tracks p pre post x y) (hpost : ∀ t t', post t t' → final t t') :
    Tracks p pre final x y := by
  refine ⟨h.shrinks, fun s s' hs => ?_⟩
  have hagrees := h.agrees s s' hs
  cases hx : x s with
  | ok a t =>
    rw [hx] at hagrees
    refine hagrees.imp_right ?_
    rintro ⟨a', t', hy, ha, ht⟩
    exact ⟨a', t', hy, ha, hpost t t' ht⟩
  | error e t =>
    rw [hx] at hagrees
    exact hagrees

/-- Less may be said of how much is ahead. -/
theorem widen (h : Tracks p pre (p.InSync groups m n) x y) (hm : m ≤ m') (hn : n ≤ n') :
    Tracks p pre (p.InSync groups m' n') x y :=
  h.mono fun _ _ ht => ht.mono fun _ => ⟨hm, hn⟩

theorem pure {a a' : α} (h : look p.sight a = look p.sight a') :
    Tracks p pre pre (pure a : Parser ε α) (pure a') :=
  ⟨⟨.pure a, .pure a'⟩, fun _ s' hs => .inr ⟨a', s', rfl, h, hs⟩⟩

theorem throw {e : ε} :
    Tracks p (p.InSync groups m n) post (throw e : Parser ε α) (throw e) :=
  ⟨⟨.throw e, .throw e⟩, fun _ s' hs _ => .inr ⟨s', groups, m, n, rfl, hs⟩⟩

/-- A crash says nothing. -/
theorem crash {e : ε} (h : ¬ Halt.Mendable e) (hy : Shrinks y) :
    Tracks p pre post (MonadExcept.throw e : Parser ε α) y :=
  ⟨⟨.throw e, hy⟩, fun _ _ _ hmend => absurd hmend h⟩

/-- **Going on**: what holds of both parts holds of the whole. -/
theorem bind (h : Tracks p pre mid x y)
    (hf : ∀ a a', look p.sight a = look p.sight a' → Tracks p mid post (f a) (g a')) :
    Tracks p pre post (x >>= f) (y >>= g) := by
  have hfirst := h.shrinks.1.bind fun a => (hf a a rfl).shrinks.1
  have hsecond := h.shrinks.2.bind fun a => (hf a a rfl).shrinks.2
  refine ⟨⟨hfirst, hsecond⟩, fun s s' hs => ?_⟩
  have hagrees := h.agrees s s' hs
  cases hx : x s with
  | ok a t =>
    rw [hx] at hagrees
    rw [bind_of_ok hx]
    rcases hagrees with hpast | ⟨a', t', hy, ha, ht⟩
    · -- What comes then does not lead back.
      have hend := hpast.mono ((hf a a rfl).shrinks.1 t)
      cases hrun : f a t with
      | ok b u =>
        rw [hrun] at hend
        exact .inl hend
      | error e u =>
        rw [hrun] at hend
        exact fun _ => .inl hend
    · rw [bind_of_ok hy]
      exact (hf a a' ha).agrees t t' ht
  | error e t =>
    rw [hx] at hagrees
    rw [bind_of_error hx]
    intro hmend
    refine (hagrees hmend).imp_right ?_
    rintro ⟨t', groups, m, n, hy, ht⟩
    exact ⟨t', groups, m, n, bind_of_error hy g, ht⟩

/-! ## Single steps -/

theorem current_bind {f g : Token → Parser ε α}
    (h : ∀ t t', p.sight.see t = p.sight.see t' →
      Tracks p (p.InSync groups m n) post (f t) (g t')) :
    Tracks p (p.InSync groups m n) post (Parse.current >>= f) (Parse.current >>= g) :=
  ⟨⟨fun s => (h s.current s.current rfl).shrinks.1 s,
    fun s => (h s.current s.current rfl).shrinks.2 s⟩,
    fun s s' hs => (h _ _ hs.cursor.current).agrees s s' hs⟩

theorem peek_bind {f g : Token → Parser ε α}
    (h : ∀ t t', p.sight.see t = p.sight.see t' →
      Tracks p (p.InSync groups m n) post (f t) (g t')) :
    Tracks p (p.InSync groups m n) post (Parse.peek >>= f) (Parse.peek >>= g) :=
  ⟨⟨fun s => (h s.toCursor.peek s.toCursor.peek rfl).shrinks.1 s,
    fun s => (h s.toCursor.peek s.toCursor.peek rfl).shrinks.2 s⟩,
    fun s s' hs => (h _ _ hs.cursor.peek).agrees s s' hs⟩

theorem peekIs_bind {kind : Kind} {f g : Bool → Parser ε α}
    (h : ∀ b, Tracks p (p.InSync groups m n) post (f b) (g b)) :
    Tracks p (p.InSync groups m n) post (Parse.peekIs kind >>= f) (Parse.peekIs kind >>= g) := by
  have hall : Tracks p (p.InSync groups m n) post (Parse.peek >>= fun t => f (t.is kind))
      (Parse.peek >>= fun t => g (t.is kind)) := by
    refine peek_bind fun t t' ht => ?_
    rw [← Sight.is_eq ht]
    exact h _
  exact ⟨hall.shrinks, hall.agrees⟩

section Choice
variable {x' y' : Parser ε α} (hx : Tracks p (p.InSync groups m n) post x x')
  (hy : Tracks p (p.InSync groups m n) post y y')
include hx hy

theorem peek_ite (q : Kind → Prop) [DecidablePred q] :
    Tracks p (p.InSync groups m n) post (do if q (← Parse.peek).kind then x else y)
      (do if q (← Parse.peek).kind then x' else y') := by
  refine peek_bind fun t t' ht => ?_
  rw [← Sight.kind_eq ht]
  split
  · exact hx
  · exact hy

theorem peekIs_ite (kind : Kind) :
    Tracks p (p.InSync groups m n) post (do if ← Parse.peekIs kind then x else y)
      (do if ← Parse.peekIs kind then x' else y') := by
  refine peekIs_bind fun b => ?_
  cases b
  · exact hy
  · exact hx

theorem atEnd_ite :
    Tracks p (p.InSync groups m n) post (do if ← Parse.atEnd then x else y)
      (do if ← Parse.atEnd then x' else y') := by
  have h := peek_ite hx hy fun kind => kind.isTerminator = true
  exact ⟨h.shrinks, h.agrees⟩

end Choice

theorem move {c : Cursor → Cursor} {groups' : Nat} (hc : ∀ d, (c d).ahead.length ≤ d.ahead.length)
    (h : ∀ d d', p.Sync groups m n d d' →
      p.Past (c d).ahead ∨ p.Sync groups' m' n' (c d) (c d')) :
    Tracks p (p.InSync groups m n) (p.InSync groups' m' n') (Parse.move c : Parser ε Unit)
      (Parse.move c) :=
  ⟨⟨.move hc, .move hc⟩, fun _ s' hs => (h _ _ hs.cursor).imp_right fun hnext =>
    ⟨(), ⟨c s'.toCursor, s'.findings⟩, rfl, rfl, hnext, hs.findings⟩⟩

theorem advance :
    Tracks p (p.InSync groups m n) (p.InSync groups (m - 1) (n - 1))
      (Parse.advance : Parser ε Unit) Parse.advance :=
  move Cursor.length_ahead_advance_le fun _ _ => Tandem.Sync.advance

/-- Outside of all groups nothing depends on which were open. -/
theorem ungroup :
    Tracks p (p.InSync groups m n) (p.InSync 0 m n)
      (Parse.move fun c => { c with groups := 0 } : Parser ε Unit)
      (Parse.move fun c => { c with groups := 0 }) :=
  move (fun _ => Nat.le_refl _) fun _ _ h => .inr h.ungroup

theorem openGroup :
    Tracks p (p.InSync groups m n) (p.InSync (groups + 1) m n)
      (Parse.move Cursor.openGroup : Parser ε Unit) (Parse.move Cursor.openGroup) :=
  move (fun _ => (List.dropWhile_sublist isNewline).length_le) fun _ _ => Tandem.Sync.openGroup

theorem closeGroup :
    Tracks p (p.InSync (groups + 1) m n) (p.InSync groups m n)
      (Parse.move Cursor.closeGroup : Parser ε Unit) (Parse.move Cursor.closeGroup) :=
  move (fun _ => Nat.le_refl _) fun _ _ h => .inr h.closeGroup

theorem reject {violation violation' : Violation} {token token' : Token}
    (hv : violation.mapTokens p.sight.see = violation'.mapTokens p.sight.see)
    (ht : p.sight.see token = p.sight.see token') :
    Tracks p (p.InSync groups m n) post (Parse.reject violation token : Parse α)
      (Parse.reject violation' token') := by
  refine ⟨⟨.reject _ _, .reject _ _⟩, fun s s' hs => ?_⟩
  rw [Parse.reject_run, Parse.reject_run, ← Sight.is_eq ht]
  refine fun _ => .inr ⟨_, groups, m, n, rfl, hs.cursor, ?_⟩
  dsimp only
  split
  · exact hs.findings
  · simp only [List.map_append, hs.findings, List.map_cons, List.map_nil, Finding.mapTokens, hv, ht]

theorem expectNamed (kind : Kind) (what : String) :
    Tracks p (p.InSync groups m n) (p.InSync groups (m - 1) (n - 1)) (Parse.expectNamed kind what)
      (Parse.expectNamed kind what) := by
  refine peek_bind fun t t' ht => ?_
  rw [← Sight.is_eq ht]
  split
  · exact advance.bind fun _ _ _ => current_bind fun u u' hu => .pure hu
  · refine .reject ?_ ht
    rw [Violation.mapTokens, Violation.mapTokens, ht]

theorem expect (kind : Kind) :
    Tracks p (p.InSync groups m n) (p.InSync groups (m - 1) (n - 1)) (Parse.expect kind)
      (Parse.expect kind) :=
  expectNamed kind _

/-! ## Loops -/

/-- What is ahead in two lists is a fair bound for two loops. -/
theorem remaining_bind {groups' : Nat} {f g : Nat → Parser ε α}
    (h : ∀ k k', p.Fair k k' k k' →
      Tracks p (p.InSync groups k k') (p.InSync groups' k k') (f k) (g k')) :
    Tracks p (p.InSync groups m n) (p.InSync groups' m n) (Parse.remaining >>= f)
      (Parse.remaining >>= g) := by
  have hfair : ∀ k, p.Fair k k k k := fun k => ⟨fun _ => rfl, fun _ => ⟨Nat.le_refl _, Nat.le_refl _⟩⟩
  refine ⟨⟨fun s => (h _ _ (hfair s.ahead.length)).shrinks.1 s,
    fun s => (h _ _ (hfair s.ahead.length)).shrinks.2 s⟩, fun s s' hs => ?_⟩
  have hthis := h _ _ hs.cursor.fair
  refine (hthis.mono fun t t' ht => ?_).agrees s s' ⟨hs.cursor.tight, hs.findings⟩
  exact ht.mono hs.cursor.bounds

/-- **Loops with fair bounds** run in tandem if their bodies do.  One bound alone runs out only
where nothing is in sync any more. -/
theorem loopWith {ι : Type} [Visible ι] {x y : Nat → ι → Parser ε α}
    (zero : ∀ i i' m n, look p.sight i = look p.sight i' →
      Tracks p (p.InSync groups m n) (p.InSync groups m n) (x 0 i) (y 0 i'))
    (succ : ∀ k k', (∀ i i' m n, look p.sight i = look p.sight i' → p.Fair k k' m n →
        Tracks p (p.InSync groups m n) (p.InSync groups m n) (x k i) (y k' i')) →
      ∀ i i' m n, look p.sight i = look p.sight i' → p.Fair (k + 1) (k' + 1) m n →
        Tracks p (p.InSync groups m n) (p.InSync groups m n) (x (k + 1) i) (y (k' + 1) i'))
    {more more' : Nat} {i i' : ι} (hi : look p.sight i = look p.sight i')
    (hf : p.Fair more more' m n) :
    Tracks p (p.InSync groups m n) (p.InSync groups m n) (x more i) (y more' i') := by
  -- Under one bound the two run in tandem in any case, which shows that both shrink.
  have hsame : ∀ k i i' m n, look p.sight i = look p.sight i' → p.Fair k k m n →
      Tracks p (p.InSync groups m n) (p.InSync groups m n) (x k i) (y k i') := by
    intro k
    induction k with
    | zero => exact fun i i' m n hi _ => zero i i' m n hi
    | succ k ih => exact succ k k ih
  have hshrinks : ∀ k i, Shrinks (x k i) ∧ Shrinks (y k i) := fun k i =>
    (hsame k i i 0 0 rfl ⟨fun _ => rfl, fun _ => ⟨Nat.zero_le _, Nat.zero_le _⟩⟩).shrinks
  have hnone : ∀ k k' m n, ¬ (k = 0 ∧ k' = 0) → ¬ (∃ j j', k = j + 1 ∧ k' = j' + 1) →
      p.Fair k k' m n → ∀ i i',
        Tracks p (p.InSync groups m n) (p.InSync groups m n) (x k i) (y k' i') := by
    intro k k' m n hzero hsucc hf i i'
    refine ⟨⟨(hshrinks k i).1, (hshrinks k' i').2⟩, fun s s' hs => ?_⟩
    exact absurd (hs.cursor.fair_cases hf) (not_or.2 ⟨hzero, hsucc⟩)
  induction more generalizing more' i i' m n with
  | zero =>
    cases more' with
    | zero => exact zero i i' m n hi
    | succ more' => exact hnone 0 (more' + 1) m n (by omega) (by omega) hf i i'
  | succ more ih =>
    cases more' with
    | zero => exact hnone (more + 1) 0 m n (by omega) (by omega) hf i i'
    | succ more' => exact succ more more' (fun i i' m n hi hf => ih hi hf) i i' m n hi hf

theorem loop {x y : Nat → Parser ε α}
    (zero : ∀ m n, Tracks p (p.InSync groups m n) (p.InSync groups m n) (x 0) (y 0))
    (succ : ∀ k k', (∀ m n, p.Fair k k' m n →
        Tracks p (p.InSync groups m n) (p.InSync groups m n) (x k) (y k')) →
      ∀ m n, p.Fair (k + 1) (k' + 1) m n →
        Tracks p (p.InSync groups m n) (p.InSync groups m n) (x (k + 1)) (y (k' + 1)))
    {more more' : Nat} (hf : p.Fair more more' m n) :
    Tracks p (p.InSync groups m n) (p.InSync groups m n) (x more) (y more') :=
  loopWith (x := fun k (_ : Unit) => x k) (y := fun k _ => y k) (fun _ _ m n _ => zero m n)
    (fun k k' ih _ _ m n _ => succ k k' (fun m n => ih () () m n rfl) m n) (rfl : look _ () = _) hf

end Tracks

end LimLang
