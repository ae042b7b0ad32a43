import LimLang.Parse.State
import LimLang.Proofs.Outcome
import Mathlib.Data.List.DropRight

/-! # Reading tokens

What the cursor has read between two of its states, as a list of tokens.  Outside all groups that is
the stretch of the list of tokens between the two; inside a group it is that stretch without its
newlines, since the cursor drops them before it comes to them.  `Reads groups ts read rest` says that
reading `read` off the tokens `ts` leaves `rest`, and `Cursor.Moves c read d` that the cursor gets from
`c` to `d` by reading `read`.

A group is entered and left in the middle of the list, so the two views meet there: what is read
inside a group is what is read outside of it, with the newlines left out (`Reads.enter`, `Reads.leave`).
-/
namespace LimLang

open Cursor (isNewline)

/-- Tokens that separate lines and do nothing else. -/
def IsNewlines (gap : List Token) : Prop :=
  ∀ t ∈ gap, t.kind = .endOfLine

/-- Tokens as they are read inside a group: without newlines. -/
def unbroken (ts : List Token) : List Token :=
  ts.filter fun t => !isNewline t

/-- **A list of tokens ends with its only `eof`.** -/
def Terminated : List Token → Prop
  | [] => False
  | t :: ts => if t.kind = .eof then ts = [] else Terminated ts

/-- What the cursor keeps of the tokens ahead: inside groups the nearest is no newline. -/
def settle (groups : Nat) (ts : List Token) : List Token :=
  if groups = 0 then ts else ts.dropWhile isNewline

/-- **Reading `read` off the tokens `ts` leaves `rest`.** -/
def Reads (groups : Nat) : List Token → List Token → List Token → Prop
  | ts, [], rest => ts = rest
  | ts, t :: read, rest => ∃ us, ts = t :: us ∧ Reads groups (settle groups us) read rest

/-! ## Newlines -/

/-- A token that is no part of what it follows: the end of a line, or of all. -/
def Kind.isBoundary : Kind → Bool
  | .endOfLine | .eof => true
  | _ => false

theorem Kind.ne_of_isBoundary {kind other : Kind} (h : kind.isBoundary = false)
    (ho : other.isBoundary = true) : kind ≠ other := by
  rintro rfl
  rw [ho] at h
  cases h

@[simp] theorem isNewline_iff {t : Token} : isNewline t = true ↔ t.kind = .endOfLine := by
  simp [isNewline, Token.is]

theorem isNewline_eq_false {t : Token} : isNewline t = false ↔ t.kind ≠ .endOfLine := by
  simp [isNewline, Token.is]

@[simp] theorem IsNewlines.nil : IsNewlines [] := by
  intro t ht
  cases ht

@[simp] theorem unbroken_append (ts us : List Token) :
    unbroken (ts ++ us) = unbroken ts ++ unbroken us := by
  simp [unbroken]

theorem unbroken_cons {t : Token} (h : t.kind ≠ .endOfLine) (ts : List Token) :
    unbroken (t :: ts) = t :: unbroken ts := by
  simp [unbroken, isNewline_eq_false.2 h]

theorem unbroken_eq_self {ts : List Token} (h : ∀ t ∈ ts, t.kind ≠ .endOfLine) : unbroken ts = ts :=
  List.filter_eq_self.2 fun t ht => by simp [isNewline_eq_false.2 (h t ht)]

@[simp] theorem unbroken_unbroken (ts : List Token) : unbroken (unbroken ts) = unbroken ts :=
  unbroken_eq_self fun _ ht => isNewline_eq_false.1 (by simpa using (List.mem_filter.1 ht).2)

theorem IsNewlines.unbroken {gap : List Token} (h : IsNewlines gap) : unbroken gap = [] := by
  simp only [LimLang.unbroken, List.filter_eq_nil_iff]
  intro t ht
  simp [h t ht]

theorem IsNewlines.dropWhile_append {gap : List Token} (h : IsNewlines gap) (ts : List Token) :
    (gap ++ ts).dropWhile isNewline = ts.dropWhile isNewline := by
  induction gap with
  | nil => rfl
  | cons t gap ih =>
    have ht : isNewline t = true := by simp [h t (by simp)]
    rw [List.cons_append, List.dropWhile_cons_of_pos ht]
    exact ih fun u hu => h u (List.mem_cons_of_mem _ hu)

theorem dropWhile_of_ne {t : Token} (h : t.kind ≠ .endOfLine) (ts : List Token) :
    (t :: ts).dropWhile isNewline = t :: ts := by
  rw [List.dropWhile_cons_of_neg]
  simp [isNewline_eq_false.2 h]

/-- The newlines in front of a token that is none. -/
theorem exists_gap {ts us : List Token} {t : Token} (h : ts.dropWhile isNewline = t :: us) :
    ∃ gap, IsNewlines gap ∧ ts = gap ++ t :: us ∧ t.kind ≠ .endOfLine := by
  refine ⟨ts.takeWhile isNewline, ?_, ?_, ?_⟩
  · intro u hu
    exact isNewline_iff.1 (List.mem_takeWhile_imp hu)
  · rw [← h, List.takeWhile_append_dropWhile]
  · have := List.head?_dropWhile_not isNewline ts
    rw [h] at this
    exact isNewline_eq_false.1 (by simpa using this)

/-! ## The end of the list -/

theorem Terminated.ne_nil {ts : List Token} (h : Terminated ts) : ts ≠ [] := by
  rintro rfl
  exact h

theorem Terminated.tail {t : Token} {ts : List Token} (h : Terminated (t :: ts))
    (ht : t.kind ≠ .eof) : Terminated ts := by
  simpa [Terminated, ht] using h

theorem Terminated.tail_eq_nil {t : Token} {ts : List Token} (h : Terminated (t :: ts))
    (ht : t.kind = .eof) : ts = [] := by
  simpa [Terminated, ht] using h

theorem Terminated.cons {t : Token} {ts : List Token} (ht : t.kind ≠ .eof) (h : Terminated ts) :
    Terminated (t :: ts) := by
  simpa [Terminated, ht] using h

theorem Terminated.dropWhile {ts : List Token} (h : Terminated ts) :
    Terminated (ts.dropWhile isNewline) := by
  induction ts with
  | nil => exact h
  | cons t ts ih =>
    by_cases ht : isNewline t = true
    · rw [List.dropWhile_cons_of_pos ht]
      exact ih (h.tail (by rw [isNewline_iff.1 ht]; decide))
    · rw [List.dropWhile_cons_of_neg ht]
      exact h

theorem Terminated.append {ts us : List Token} (h : ∀ t ∈ ts, t.kind ≠ .eof) (hu : Terminated us) :
    Terminated (ts ++ us) := by
  induction ts with
  | nil => exact hu
  | cons t ts ih =>
    exact .cons (h t (by simp)) (ih fun u hu => h u (List.mem_cons_of_mem _ hu))

/-- Something that is no newline is ahead unless the end is reached. -/
theorem Terminated.exists_ahead {ts : List Token} (h : Terminated ts) :
    ∃ gap t us, IsNewlines gap ∧ ts = gap ++ t :: us ∧ t.kind ≠ .endOfLine ∧
      ts.dropWhile isNewline = t :: us := by
  cases hd : ts.dropWhile isNewline with
  | nil => exact absurd hd h.dropWhile.ne_nil
  | cons t us =>
    obtain ⟨gap, hgap, hts, ht⟩ := exists_gap hd
    exact ⟨gap, t, us, hgap, hts, ht, rfl⟩

/-! ## Settling -/

@[simp] theorem settle_zero (ts : List Token) : settle 0 ts = ts := rfl

theorem settle_succ (groups : Nat) (ts : List Token) :
    settle (groups + 1) ts = ts.dropWhile isNewline := by
  simp [settle]

theorem settle_pos {groups : Nat} (h : groups ≠ 0) (ts : List Token) :
    settle groups ts = ts.dropWhile isNewline := by
  simp [settle, h]

@[simp] theorem settle_settle (groups : Nat) (ts : List Token) :
    settle groups (settle groups ts) = settle groups ts := by
  unfold settle
  split
  · rfl
  · exact List.dropWhile_idempotent isNewline ts

theorem settle_sublist (groups : Nat) (ts : List Token) : (settle groups ts).Sublist ts := by
  unfold settle
  split
  · exact List.Sublist.refl ts
  · exact List.dropWhile_sublist isNewline

theorem Terminated.settle {ts : List Token} (h : Terminated ts) (groups : Nat) :
    Terminated (settle groups ts) := by
  unfold LimLang.settle
  split
  · exact h
  · exact h.dropWhile

@[simp] theorem dropWhile_settle (groups : Nat) (ts : List Token) :
    (settle groups ts).dropWhile isNewline = ts.dropWhile isNewline := by
  unfold settle
  split
  · rfl
  · exact List.dropWhile_idempotent isNewline ts

/-! ## Reading -/

variable {groups : Nat} {ts us read rest mid : List Token} {t : Token}

@[simp] theorem reads_nil : Reads groups ts [] rest ↔ ts = rest := Iff.rfl

@[simp] theorem reads_cons :
    Reads groups ts (t :: read) rest ↔
      ∃ us, ts = t :: us ∧ Reads groups (settle groups us) read rest := Iff.rfl

theorem reads_append {more : List Token} :
    Reads groups ts (read ++ more) rest ↔
      ∃ mid, Reads groups ts read mid ∧ Reads groups mid more rest := by
  induction read generalizing ts with
  | nil => simp
  | cons t read ih =>
    simp only [List.cons_append, reads_cons, ih]
    constructor
    · rintro ⟨us, rfl, mid, h, h'⟩
      exact ⟨mid, ⟨us, rfl, h⟩, h'⟩
    · rintro ⟨mid, ⟨us, rfl, h⟩, h'⟩
      exact ⟨us, rfl, mid, h, h'⟩

/-- Outside groups, what is read stands at the front. -/
theorem reads_zero : Reads 0 ts read rest ↔ ts = read ++ rest := by
  induction read generalizing ts with
  | nil => simp
  | cons t read ih => simp [ih]

theorem Reads.length_le (h : Reads groups ts read rest) :
    read.length + rest.length ≤ ts.length := by
  induction read generalizing ts with
  | nil => simp [reads_nil.1 h]
  | cons t read ih =>
    obtain ⟨us, rfl, h⟩ := h
    have shorter := (settle_sublist groups us).length_le
    have := ih h
    simp only [List.length_cons]
    omega

theorem Reads.sublist (h : Reads groups ts read rest) : (read ++ rest).Sublist ts := by
  induction read generalizing ts with
  | nil => rw [reads_nil.1 h, List.nil_append]
  | cons t read ih =>
    obtain ⟨us, rfl, h⟩ := h
    exact .cons_cons t ((ih h).trans (settle_sublist groups us))

/-- What has been read leaves the cursor settled. -/
theorem Reads.settled (h : Reads groups ts read rest) (hs : settle groups ts = ts) :
    settle groups rest = rest := by
  induction read generalizing ts with
  | nil => rw [← reads_nil.1 h, hs]
  | cons t read ih =>
    obtain ⟨us, rfl, h⟩ := h
    exact ih h (settle_settle groups us)

/-- What is left is a list that ends. -/
theorem Reads.terminated (h : Reads groups ts read rest) (ht : Terminated (t :: ts)) :
    Terminated (read.getLastD t :: rest) := by
  induction read generalizing t ts with
  | nil =>
    rw [← reads_nil.1 h]
    exact ht
  | cons u read ih =>
    obtain ⟨us, rfl, h⟩ := h
    have hne : t.kind ≠ .eof := by
      intro he
      exact absurd (ht.tail_eq_nil he) (by simp)
    have hu := ht.tail hne
    have hs : Terminated (u :: settle groups us) := by
      by_cases hue : u.kind = .eof
      · have hnil := hu.tail_eq_nil hue
        subst hnil
        simpa [settle] using hu
      · exact .cons hue ((hu.tail hue).settle _)
    rw [List.getLastD_cons]
    exact ih h hs

/-- Newlines can be read outside groups only. -/
theorem reads_gap {gap : List Token} (hg : IsNewlines gap) (h : Reads groups ts gap rest)
    (hs : settle groups ts = ts) : ts = gap ++ rest := by
  by_cases h0 : groups = 0
  · subst h0
    exact reads_zero.1 h
  · cases gap with
    | nil => exact reads_nil.1 h
    | cons t gap =>
      obtain ⟨us, rfl, -⟩ := h
      rw [settle_pos h0] at hs
      have ht : isNewline t = true := isNewline_iff.2 (hg t (by simp))
      have shorter := (List.dropWhile_sublist isNewline (l := us)).length_le
      have := congrArg List.length hs
      rw [List.dropWhile_cons_of_pos ht, List.length_cons] at this
      omega

/-- **Entering a group**: what is read up to its closing bracket is read inside without newlines. -/
theorem Reads.enter {close : Token} (hc : close.kind ≠ .endOfLine)
    (h : Reads groups ts (read ++ [close]) rest) :
    ∃ after, Reads (groups + 1) (ts.dropWhile isNewline) (unbroken read) (close :: after) ∧
      settle groups after = rest := by
  induction read generalizing ts with
  | nil =>
    obtain ⟨us, rfl, h⟩ := h
    exact ⟨us, by rw [dropWhile_of_ne hc]; rfl, reads_nil.1 h⟩
  | cons t read ih =>
    obtain ⟨us, rfl, h⟩ := h
    obtain ⟨after, ha, hr⟩ := ih h
    refine ⟨after, ?_, hr⟩
    rw [dropWhile_settle] at ha
    by_cases ht : t.kind = .endOfLine
    · rw [List.dropWhile_cons_of_pos (isNewline_iff.2 ht)]
      simpa [unbroken, ht] using ha
    · rw [unbroken_cons ht, dropWhile_of_ne ht]
      exact ⟨us, rfl, by rwa [settle_succ]⟩

/-- **Leaving a group**: what was read inside is what is read outside, with newlines in it. -/
theorem Reads.leave {close : Token} {after : List Token} (hc : close.kind ≠ .endOfLine)
    (hs : settle groups ts = ts)
    (h : Reads (groups + 1) (ts.dropWhile isNewline) read (close :: after)) :
    ∃ stretch, unbroken stretch = read ∧
      Reads groups ts (stretch ++ [close]) (settle groups after) := by
  induction read generalizing ts with
  | nil =>
    obtain ⟨gap, hgap, rfl, -⟩ := exists_gap (reads_nil.1 h)
    refine ⟨gap, hgap.unbroken, reads_append.2 ⟨close :: after, ?_, after, rfl, rfl⟩⟩
    by_cases h0 : groups = 0
    · subst h0
      exact reads_zero.2 rfl
    · rw [settle_pos h0, hgap.dropWhile_append, dropWhile_of_ne hc] at hs
      have : gap = [] := List.append_left_eq_self.1 hs.symm
      rw [this]
      rfl
  | cons t read ih =>
    obtain ⟨us, hus, h⟩ := h
    obtain ⟨gap, hgap, rfl, ht⟩ := exists_gap hus
    rw [settle_succ, ← dropWhile_settle groups us] at h
    obtain ⟨stretch, hst, hr⟩ := ih (settle_settle groups us) h
    refine ⟨gap ++ t :: stretch, ?_, ?_⟩
    · rw [unbroken_append, hgap.unbroken, unbroken_cons ht, hst, List.nil_append]
    · rw [List.append_assoc, List.cons_append, reads_append]
      refine ⟨t :: us, ?_, us, rfl, hr⟩
      by_cases h0 : groups = 0
      · subst h0
        exact reads_zero.2 rfl
      · rw [settle_pos h0, hgap.dropWhile_append, dropWhile_of_ne ht] at hs
        have : gap = [] := List.append_left_eq_self.1 hs.symm
        rw [this]
        rfl

/-! ## The cursor -/

theorem getLastD_append (ts us : List Token) (t : Token) :
    (ts ++ us).getLastD t = us.getLastD (ts.getLastD t) := by
  simp only [List.getLastD_eq_getLast?, List.getLast?_append]
  cases us.getLast? <;> simp

namespace Cursor

/-- The current token and those ahead. -/
def view (c : Cursor) : List Token :=
  c.current :: c.ahead

/-- **The cursor stands on a list of tokens as it should**: the list ends, the current token is no
newline, and inside a group neither is the nearest token ahead. -/
structure Ready (c : Cursor) : Prop where
  terminated : Terminated c.view
  current_ne : c.current.kind ≠ .endOfLine
  settled : settle c.groups c.ahead = c.ahead

/-- **The cursor gets from `c` to `d` by reading `read`.** -/
structure Moves (c : Cursor) (read : List Token) (d : Cursor) : Prop where
  groups_eq : d.groups = c.groups
  reads : Reads c.groups c.ahead read d.ahead
  current_eq : d.current = read.getLastD c.current

variable {c d e : Cursor}

theorem Moves.refl (c : Cursor) : Moves c [] c :=
  ⟨rfl, rfl, rfl⟩

theorem Moves.trans {read more : List Token} (h : Moves c read d) (h' : Moves d more e) :
    Moves c (read ++ more) e := by
  refine ⟨h'.groups_eq.trans h.groups_eq, reads_append.2 ⟨d.ahead, h.reads, ?_⟩, ?_⟩
  · rw [← h.groups_eq]
    exact h'.reads
  · rw [h'.current_eq, h.current_eq, getLastD_append]

theorem Moves.split {read more : List Token} (h : Moves c (read ++ more) e) :
    ∃ d, Moves c read d ∧ Moves d more e := by
  obtain ⟨mid, hr, hm⟩ := reads_append.1 h.reads
  refine ⟨⟨read.getLastD c.current, mid, c.groups⟩, ⟨rfl, hr, rfl⟩, h.groups_eq, hm, ?_⟩
  rw [h.current_eq, getLastD_append]

theorem Moves.eq (h : Moves c [] d) : d = c := by
  obtain ⟨hg, hr, hc⟩ := h
  cases c
  cases d
  simp_all

/-- Reading loses no token but newlines and makes up none. -/
theorem Moves.sublist {read : List Token} (h : Moves c read d) : d.view.Sublist c.view := by
  unfold view
  rw [h.current_eq]
  rcases List.eq_nil_or_concat read with rfl | ⟨read, t, rfl⟩
  · rw [reads_nil.1 h.reads, List.getLastD_nil]
  · rw [List.concat_eq_append, List.getLastD_concat]
    have := h.reads.sublist
    rw [List.concat_eq_append, List.append_assoc] at this
    exact ((List.sublist_append_right _ _).trans this).trans (List.sublist_cons_self _ _)

theorem Moves.length_le {read : List Token} (h : Moves c read d) :
    read.length + d.ahead.length ≤ c.ahead.length :=
  h.reads.length_le

/-- The cursor stands as it should wherever reading ends but on a newline. -/
theorem Moves.ready {read : List Token} (h : Moves c read d) (hc : c.Ready)
    (hd : d.current.kind ≠ .endOfLine) : d.Ready := by
  refine ⟨?_, hd, ?_⟩
  · unfold view
    rw [h.current_eq]
    exact h.reads.terminated hc.terminated
  · rw [h.groups_eq]
    exact h.reads.settled hc.settled

/-! ### Moving on by one token -/

theorem Ready.current_eq_eof (h : c.Ready) (ha : c.ahead = []) : c.current.kind = .eof := by
  by_contra hne
  have := h.terminated.tail hne
  rw [ha] at this
  exact this

theorem Ready.ahead_eq_nil (h : c.Ready) (hc : c.current.kind = .eof) : c.ahead = [] :=
  h.terminated.tail_eq_nil hc

theorem Ready.terminated_ahead (h : c.Ready) (hc : c.current.kind ≠ .eof) : Terminated c.ahead :=
  h.terminated.tail hc

theorem advance_of_ahead {t : Token} {ts : List Token} (h : c.ahead.dropWhile isNewline = t :: ts) :
    c.advance = { current := t, ahead := settle c.groups ts, groups := c.groups } := by
  unfold advance
  rw [h]
  rfl

theorem advance_of_eof (h : c.Ready) (hc : c.current.kind = .eof) : c.advance = c := by
  unfold advance
  rw [h.ahead_eq_nil hc]
  rfl

/-- **One step of the cursor**: over newlines to the next token. -/
theorem Ready.exists_advance (h : c.Ready) (hc : c.current.kind ≠ .eof) :
    ∃ gap t rest, IsNewlines gap ∧ t.kind ≠ .endOfLine ∧ c.advance.current = t ∧
      Moves c (gap ++ [t]) c.advance ∧ c.ahead = gap ++ t :: rest := by
  obtain ⟨gap, t, ts, hgap, hts, ht, hd⟩ := (h.terminated_ahead hc).exists_ahead
  rw [advance_of_ahead hd]
  refine ⟨gap, t, ts, hgap, ht, rfl, ⟨rfl, ?_, by simp⟩, hts⟩
  refine reads_append.2 ⟨t :: ts, ?_, ts, rfl, rfl⟩
  by_cases h0 : c.groups = 0
  · rw [h0]
    exact reads_zero.2 hts
  · have hs := h.settled
    rw [settle_pos h0, hd, hts] at hs
    have : gap = [] := List.append_left_eq_self.1 hs.symm
    rw [hts, this]
    rfl

/-- Outside groups, what is ahead is in view after a step, but for newlines. -/
theorem Ready.view_advance (h : c.Ready) (hc : c.current.kind ≠ .eof) (hg : c.groups = 0) :
    c.advance.view = c.ahead.dropWhile isNewline := by
  obtain ⟨-, t, ts, -, -, -, hd⟩ := (h.terminated_ahead hc).exists_ahead
  rw [advance_of_ahead hd, hd, hg]
  rfl

theorem Ready.exists_view (h : c.Ready) (hc : c.current.kind ≠ .eof) (hg : c.groups = 0) :
    ∃ gap, IsNewlines gap ∧ c.ahead = gap ++ c.advance.view := by
  rw [h.view_advance hc hg]
  obtain ⟨gap, t, ts, hgap, hts, -, hd⟩ := (h.terminated_ahead hc).exists_ahead
  exact ⟨gap, hgap, by rw [hd, hts]⟩

/-- Inside a group nothing is skipped. -/
theorem Ready.moves_advance (h : c.Ready) (hc : c.current.kind ≠ .eof) (hg : c.groups ≠ 0) :
    Moves c [c.advance.current] c.advance := by
  obtain ⟨gap, t, rest, hgap, htn, ht, hm, ha⟩ := h.exists_advance hc
  have hs := h.settled
  rw [settle_pos hg, ha, hgap.dropWhile_append, dropWhile_of_ne htn] at hs
  have : gap = [] := List.append_left_eq_self.1 hs.symm
  rw [ht]
  rw [this] at hm
  exact hm

theorem Ready.advance (h : c.Ready) : c.advance.Ready := by
  by_cases hc : c.current.kind = .eof
  · rw [advance_of_eof h hc]
    exact h
  · obtain ⟨gap, t, ts, -, -, ht, hd⟩ := (h.terminated_ahead hc).exists_ahead
    rw [advance_of_ahead hd]
    have := (h.terminated_ahead hc).dropWhile
    rw [hd] at this
    refine ⟨?_, ht, settle_settle _ _⟩
    unfold view
    by_cases hte : t.kind = .eof
    · have hnil := this.tail_eq_nil hte
      subst hnil
      simpa [settle] using this
    · exact .cons hte ((this.tail hte).settle _)

/-- What the cursor reads up to a token that is no newline is one step. -/
theorem Moves.advance_eq {gap : List Token} {t : Token} (hgap : IsNewlines gap)
    (ht : t.kind ≠ .endOfLine) (hs : settle c.groups c.ahead = c.ahead)
    (h : Moves c (gap ++ [t]) d) : c.advance = d := by
  obtain ⟨mid, hr, us, rfl, hu⟩ := reads_append.1 h.reads
  have hahead := reads_gap hgap hr hs
  have hd : c.ahead.dropWhile isNewline = t :: us := by
    rw [hahead, hgap.dropWhile_append, dropWhile_of_ne ht]
  rw [advance_of_ahead hd]
  obtain ⟨hg, -, hc⟩ := h
  cases d
  simp_all

/-- What is read, from its first token on. -/
theorem Ready.advance_reads {gap read : List Token} {t : Token} (h : c.Ready)
    (hgap : IsNewlines gap) (ht : t.kind ≠ .endOfLine) (hm : Moves c (gap ++ t :: read) e) :
    c.advance.current = t ∧ Moves c.advance read e := by
  rw [List.append_cons] at hm
  obtain ⟨d, hd, hm⟩ := hm.split
  rw [Moves.advance_eq hgap ht h.settled hd]
  exact ⟨by simpa using hd.current_eq, hm⟩

theorem advance_sublist (c : Cursor) : c.advance.view.Sublist c.view := by
  unfold advance view
  split
  · exact .refl _
  · next t ts hd =>
    have tail : (t :: ts).Sublist c.ahead := hd ▸ List.dropWhile_sublist isNewline
    refine .trans ?_ (tail.trans (List.sublist_cons_self _ _))
    exact .cons_cons t (settle_sublist c.groups ts)

theorem Ready.length_advance_lt (h : c.Ready) (hc : c.current.kind ≠ .eof) :
    c.advance.ahead.length < c.ahead.length := by
  obtain ⟨gap, t, rest, -, -, -, hm, -⟩ := h.exists_advance hc
  have := hm.length_le
  simp only [List.length_append, List.length_cons] at this
  omega

/-- Where something can be read, a step is taken. -/
theorem Ready.length_advance_of_moves {read : List Token} (h : c.Ready) (hm : Moves c read d)
    (hne : read ≠ []) : c.advance.ahead.length < c.ahead.length := by
  refine h.length_advance_lt fun he => ?_
  have := hm.length_le
  have := List.length_pos_of_ne_nil hne
  rw [h.ahead_eq_nil he, List.length_nil] at *
  omega

/-! ### The token ahead -/

theorem peek_mem_view (c : Cursor) : c.peek ∈ c.view := by
  unfold peek view
  cases c.ahead <;> simp

/-- A token ahead of a kind other than `eof` is the nearest of those ahead. -/
theorem Ready.ahead_of_peek (h : c.Ready) (hk : c.peek.kind ≠ .eof) :
    ∃ ts, c.ahead = c.peek :: ts := by
  cases ha : c.ahead with
  | nil =>
    have : c.peek = c.current := by simp [peek, ha]
    exact absurd (this ▸ h.current_eq_eof ha) hk
  | cons t ts => exact ⟨ts, by simp [peek, ha]⟩

/-- Moving on to a token ahead that is no newline reads that token alone. -/
theorem Ready.moves_peek (h : c.Ready) (hb : c.peek.kind.isBoundary = false) :
    Moves c [c.peek] c.advance := by
  obtain ⟨ts, ha⟩ := h.ahead_of_peek (Kind.ne_of_isBoundary hb rfl)
  have hd : c.ahead.dropWhile isNewline = c.peek :: ts := by
    rw [ha, dropWhile_of_ne (Kind.ne_of_isBoundary hb rfl)]
  rw [advance_of_ahead hd]
  exact ⟨rfl, ⟨ts, ha, rfl⟩, rfl⟩

theorem Ready.current_advance (h : c.Ready) (hb : c.peek.kind.isBoundary = false) :
    c.advance.current = c.peek := by
  simpa using (h.moves_peek hb).current_eq

theorem Moves.peek_eq {t : Token} {read : List Token} (h : Moves c (t :: read) d) : c.peek = t := by
  obtain ⟨us, ha, -⟩ := h.reads
  simp [peek, ha]

/-! ### Groups -/

theorem ungroup_eq (h : c.groups = 0) : ({ c with groups := 0 } : Cursor) = c := by
  cases c
  simp_all

theorem Ready.openGroup (h : c.Ready) : c.openGroup.Ready := by
  refine ⟨?_, h.current_ne, ?_⟩
  · show Terminated (c.current :: c.ahead.dropWhile isNewline)
    by_cases hc : c.current.kind = .eof
    · have := h.terminated
      rw [view, h.ahead_eq_nil hc] at this
      rw [h.ahead_eq_nil hc]
      exact this
    · exact .cons hc (h.terminated_ahead hc).dropWhile
  · show settle (c.groups + 1) (c.ahead.dropWhile isNewline) = c.ahead.dropWhile isNewline
    rw [settle_succ, List.dropWhile_idempotent]

theorem openGroup_sublist (c : Cursor) : c.openGroup.view.Sublist c.view :=
  .cons_cons _ (List.dropWhile_sublist isNewline)

theorem Ready.closeGroup (h : c.Ready) : c.closeGroup.Ready := by
  refine ⟨h.terminated, h.current_ne, ?_⟩
  show settle (c.groups - 1) c.ahead = c.ahead
  by_cases h0 : c.groups - 1 = 0
  · rw [h0, settle_zero]
  · have := h.settled
    rw [settle_pos (by omega)] at this
    rw [settle_pos h0, this]

/-- **Reading a group from outside**: from its opening bracket, over what is read inside, to its
closing bracket. -/
theorem Moves.leave {read : List Token} (h : c.Ready) (hm : Moves c.openGroup read d)
    (hd : d.Ready) (hb : d.peek.kind.isBoundary = false) :
    ∃ stretch, unbroken stretch = read ∧
      Moves c (stretch ++ [d.peek]) d.closeGroup.advance := by
  have hn : d.peek.kind ≠ .endOfLine := Kind.ne_of_isBoundary hb rfl
  obtain ⟨after, ha⟩ := hd.ahead_of_peek (Kind.ne_of_isBoundary hb rfl)
  have hr := hm.reads
  rw [ha] at hr
  obtain ⟨stretch, hst, hr⟩ := hr.leave hn h.settled
  have hg : d.closeGroup.groups = c.groups := by
    show d.groups - 1 = c.groups
    rw [hm.groups_eq]
    rfl
  have hd : d.closeGroup.ahead.dropWhile isNewline = d.peek :: after := by
    show d.ahead.dropWhile isNewline = _
    rw [ha, dropWhile_of_ne hn]
  rw [advance_of_ahead hd, hg]
  exact ⟨stretch, hst, rfl, hr, by simp⟩

/-- **Reading a group from inside**, the converse. -/
theorem Moves.enter {stretch : List Token} {close : Token}
    (hn : close.kind ≠ .endOfLine) (hm : Moves c (stretch ++ [close]) e) :
    ∃ d, Moves c.openGroup (unbroken stretch) d ∧ d.peek = close ∧ d.closeGroup.advance = e := by
  obtain ⟨after, hr, rfl'⟩ := hm.reads.enter hn
  refine ⟨⟨(unbroken stretch).getLastD c.current, close :: after, c.groups + 1⟩,
    ⟨rfl, hr, rfl⟩, rfl, ?_⟩
  have hd : (closeGroup ⟨(unbroken stretch).getLastD c.current, close :: after,
      c.groups + 1⟩).ahead.dropWhile isNewline = close :: after := dropWhile_of_ne hn after
  rw [advance_of_ahead hd]
  obtain ⟨hg, -, hc⟩ := hm
  cases e
  simp_all [closeGroup]

end Cursor

end LimLang
