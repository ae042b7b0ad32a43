import LimLang.Proofs.Reading

/-! # Newlines inside groups

Parentheses and brackets make groups.  The brackets of a type, which stand right behind its keyword, do
not, unless they stand inside of a group themselves (`Kind.depthBehind`).

Two lists of tokens are the same but for newlines that are added to the second in front of tokens that
stand inside of a group (`Loosened`).  A cursor over the first and one over the second are in step
(`Cursor.InStep`) if they stand at the same token and the lists ahead are so related.  The cursor counts
groups by itself: it lags behind at an opening bracket, and is early at a closing one.  In between, what
is open to the cursor is open in the list, so it drops the newlines that were added, and does not
otherwise meet any.
-/
namespace LimLang

open Cursor (isNewline)

/-! ## Depths -/

namespace Kind

/-- How many brackets are open behind a token of this kind, if `depth` are open in front of it. -/
def shift (kind : Kind) (depth : Nat) : Nat :=
  match kind with
  | .lparen | .lbrack => depth + 1
  | .rparen | .rbrack => depth - 1
  | _ => depth

/-- **How many groups are open behind a token** that comes after one of kind `previous`, if `depth` are
open in front of it. -/
def depthBehind (kind previous : Kind) (depth : Nat) : Nat :=
  if kind = .lbrack ∧ previous.isType ∧ depth = 0 then 0 else kind.shift depth

theorem depthBehind_eq_shift {kind previous : Kind} {depth : Nat}
    (h : kind = .lbrack → depth = 0 → previous.isType = false) :
    kind.depthBehind previous depth = kind.shift depth := by
  refine if_neg ?_
  rintro ⟨hkind, htype, hdepth⟩
  rw [h hkind hdepth] at htype
  cases htype

theorem depthBehind_type {previous : Kind} (h : previous.isType) :
    Kind.lbrack.depthBehind previous 0 = 0 :=
  if_pos ⟨rfl, h, rfl⟩

/-- A type opens and closes nothing. -/
theorem shift_of_isType {kind : Kind} (h : kind.isType) (depth : Nat) : kind.shift depth = depth := by
  cases kind <;> first | rfl | cases h

theorem isBoundary_of_isType {kind : Kind} (h : kind.isType) : kind.isBoundary = false := by
  cases kind <;> first | rfl | cases h

theorem not_isType_of_shift {kind : Kind} {depth : Nat} (hdepth : depth ≠ 0)
    (h : kind.shift depth = 0) : kind.isType = false := by
  by_contra htype
  rw [shift_of_isType (by simpa using htype)] at h
  exact hdepth h

theorem depthBehind_congr {kind previous other : Kind} {depth : Nat}
    (h : depth = 0 → previous.isType = other.isType) :
    kind.depthBehind previous depth = kind.depthBehind other depth := by
  unfold depthBehind
  by_cases hdepth : depth = 0
  · rw [h hdepth]
  · simp only [hdepth, and_false]

end Kind

/-! ## Lists -/

/-- **The second list has more newlines than the first**, in front of tokens inside groups.  The token in
front of both is of kind `previous`, and `depth` groups are open there. -/
inductive Loosened : Kind → Nat → List Token → List Token → Prop
  | nil {previous : Kind} {depth : Nat} : Loosened previous depth [] []
  | cons {previous : Kind} {depth : Nat} {gap : List Token} {t : Token} {ts us : List Token}
      (hgap : IsNewlines gap) (hdepth : depth = 0 → gap = [])
      (h : Loosened t.kind (t.kind.depthBehind previous depth) ts us) :
      Loosened previous depth (t :: ts) (gap ++ t :: us)

namespace Loosened

variable {previous other : Kind} {depth groups : Nat} {t : Token} {ts us rest gap : List Token}

/-- Nothing is added in front of a token. -/
theorem tight (h : Loosened t.kind (t.kind.depthBehind previous depth) ts us) :
    Loosened previous depth (t :: ts) (t :: us) :=
  @cons previous depth [] t ts us (List.forall_mem_nil _) (fun _ => rfl) h

theorem length_le (h : Loosened previous depth ts us) : ts.length ≤ us.length := by
  induction h with
  | nil => exact Nat.le_refl 0
  | cons _ _ _ ih =>
    rw [List.length_append, List.length_cons, List.length_cons]
    omega

/-- Which token stands in front matters for brackets outside of groups only. -/
theorem congr (h : Loosened previous depth ts us)
    (hp : depth = 0 → previous.isType = other.isType) : Loosened other depth ts us := by
  cases h with
  | nil => exact .nil
  | cons hgap hdepth h => exact .cons hgap hdepth (Kind.depthBehind_congr hp ▸ h)

/-- Newlines may be added inside of a group. -/
theorem pad (h : Loosened previous depth ts us) (hgap : IsNewlines gap)
    (hdepth : depth = 0 → gap = []) (hts : ts ≠ []) : Loosened previous depth ts (gap ++ us) := by
  cases h with
  | nil => exact absurd rfl hts
  | @cons _ _ gap' t ts us hgap' hdepth' h =>
    rw [← List.append_assoc]
    refine .cons (fun u hu => ?_) (fun hzero => ?_) h
    · rcases List.mem_append.1 hu with hu | hu
      · exact hgap u hu
      · exact hgap' u hu
    · rw [hdepth hzero, hdepth' hzero, List.append_nil]

/-- **The first token that is no newline** is the same in both. -/
theorem exists_of_dropWhile (h : Loosened previous depth ts us)
    (ht : ts.dropWhile isNewline = t :: rest) :
    ∃ before us', us.dropWhile isNewline = t :: us' ∧
      Loosened t.kind (t.kind.depthBehind before depth) rest us' ∧
      (before = .endOfLine ∨ before = previous) := by
  induction h with
  | nil => cases ht
  | @cons previous depth gap u ts us hgap hdepth h ih =>
    rw [hgap.dropWhile_append]
    by_cases hline : isNewline u = true
    · have hkind := isNewline_iff.1 hline
      rw [List.dropWhile_cons_of_pos hline] at ht ⊢
      obtain ⟨before, us', hus, hrest, hbefore⟩ := ih ht
      rw [hkind] at hrest hbefore
      exact ⟨before, us', hus, hrest, .inl (or_self_iff.1 hbefore)⟩
    · rw [List.dropWhile_cons_of_neg hline] at ht ⊢
      obtain ⟨rfl, rfl⟩ := List.cons.inj ht
      exact ⟨previous, us, rfl, h, .inr rfl⟩

/-- The second list ends like the first. -/
theorem exists_append {last : Token} {words : List Token}
    (hwords : ∀ t ∈ words, t.kind ≠ .eof) (h : Loosened previous depth (words ++ [last]) us) :
    ∃ words', us = words' ++ [last] ∧ ∀ t ∈ words', t.kind ≠ .eof := by
  have hline : ∀ {gap : List Token}, IsNewlines gap → ∀ t ∈ gap, t.kind ≠ .eof := by
    intro gap hgap t ht
    rw [hgap t ht]
    decide
  induction words generalizing previous depth us with
  | nil =>
    cases h with
    | cons hgap _ h =>
      cases h
      exact ⟨_, rfl, hline hgap⟩
  | cons t words ih =>
    obtain ⟨ht, hwords⟩ := List.forall_mem_cons.1 hwords
    cases h with
    | @cons _ _ gap _ _ us hgap _ h =>
      obtain ⟨words', rfl, hwords'⟩ := ih hwords h
      refine ⟨gap ++ t :: words', by rw [List.append_assoc, List.cons_append], fun u hu => ?_⟩
      rcases List.mem_append.1 hu with hu | hu
      · exact hline hgap u hu
      · rcases List.mem_cons.1 hu with rfl | hu
        · exact ht
        · exact hwords' u hu

/-- Dropping newlines of both. -/
theorem settle (h : Loosened previous depth ts us) (hp : depth = 0 → previous.isType = false)
    (groups : Nat) : Loosened previous depth (settle groups ts) (LimLang.settle groups us) := by
  by_cases hg : groups = 0
  · rw [hg]
    exact h
  rw [settle_pos hg, settle_pos hg]
  induction h with
  | nil => exact .nil
  | @cons previous depth gap u ts us hgap hdepth h ih =>
    rw [hgap.dropWhile_append]
    by_cases hline : isNewline u = true
    · have hkind := isNewline_iff.1 hline
      rw [List.dropWhile_cons_of_pos hline, List.dropWhile_cons_of_pos hline]
      rw [hkind] at ih
      exact (ih fun _ => rfl).congr fun hzero => (hp hzero).symm
    · rw [List.dropWhile_cons_of_neg hline, List.dropWhile_cons_of_neg hline]
      exact h.tight

/-- Where newlines are dropped, or where none may be added, the next token is the same in both. -/
theorem exists_of_settled (h : Loosened previous depth (t :: rest) us)
    (hsettled : LimLang.settle groups us = us) (hgroups : groups = 0 → depth = 0) :
    ∃ us', us = t :: us' ∧ Loosened t.kind (t.kind.depthBehind previous depth) rest us' := by
  cases h with
  | @cons _ _ gap _ _ us hgap hdepth h =>
    suffices hnil : gap = [] by
      subst hnil
      exact ⟨us, rfl, h⟩
    by_cases hg : groups = 0
    · exact hdepth (hgroups hg)
    · cases gap with
      | nil => rfl
      | cons u gap =>
        have hshort := (List.dropWhile_sublist isNewline (l := gap ++ t :: us)).length_le
        rw [settle_pos hg, List.cons_append,
          List.dropWhile_cons_of_pos (isNewline_iff.2 (hgap u List.mem_cons_self))] at hsettled
        rw [hsettled, List.length_cons] at hshort
        omega

end Loosened

/-! ## Cursors -/

namespace Cursor

/-- **Two cursors in step**, inside `groups` groups, where `depth` are open in the lists. -/
structure InStep (groups depth : Nat) (c d : Cursor) : Prop where
  ready : c.Ready
  ready' : d.Ready
  legal : ∀ t ∈ c.view, t.kind ≠ .illegal
  current_eq : d.current = c.current
  groups_eq : c.groups = groups
  groups_eq' : d.groups = groups
  loosened : Loosened c.current.kind depth c.ahead d.ahead

/-- In step behind a token that is no type. -/
structure AtRest (groups : Nat) (c d : Cursor) : Prop extends InStep groups groups c d where
  not_type : c.current.kind.isType = false

/-- In step at a token that opens a group, before the cursors have counted it. -/
structure AtOpening (groups : Nat) (c d : Cursor) : Prop extends InStep groups (groups + 1) c d where
  opens : c.current.kind = .lparen ∨ c.current.kind = .lbrack

/-- In step at a token in front of which as many groups are open as the cursors have counted. -/
def AtStart (groups : Nat) (c d : Cursor) : Prop :=
  InStep groups (c.current.kind.shift groups) c d

/-- In step in front of the end of a group, which the cursors have counted already. -/
def AtClosing (groups : Nat) (c d : Cursor) : Prop :=
  ∃ c' d', InStep (groups + 1) (groups + 1) c' d' ∧ c = c'.closeGroup ∧ d = d'.closeGroup

variable {groups depth : Nat} {c d : Cursor} {kind : Kind}

namespace InStep

theorem length_le (h : InStep groups depth c d) : c.ahead.length ≤ d.ahead.length :=
  h.loosened.length_le

theorem legal_peek (h : InStep groups depth c d) : c.peek.kind ≠ .illegal :=
  h.legal _ c.peek_mem_view

/-- What is ahead is the same. -/
theorem peek_eq (h : InStep groups depth c d) (hgroups : groups = 0 → depth = 0) :
    d.peek = c.peek := by
  have hloosened := h.loosened
  have hsettled := h.ready'.settled
  rw [h.groups_eq'] at hsettled
  cases hc : c.ahead with
  | nil =>
    rw [hc] at hloosened
    generalize hd : d.ahead = us at hloosened
    cases hloosened
    rw [peek, peek, hc, hd]
    exact h.current_eq
  | cons t ts =>
    rw [hc] at hloosened
    obtain ⟨us, hus, -⟩ := hloosened.exists_of_settled hsettled hgroups
    rw [peek, peek, hc, hus]
    rfl

end InStep

/-- **Cursors are in step behind the next token** if it is the same and the lists are so related behind
it.  Newlines behind it are dropped inside of a group, so it must not be a type that ends one. -/
theorem inStep_advance {t : Token} {ts us : List Token} (hc : c.advance.Ready)
    (hd : d.advance.Ready) (hlegal : ∀ u ∈ c.view, u.kind ≠ .illegal) (hgroups : c.groups = groups)
    (hgroups' : d.groups = groups) (hts : c.ahead.dropWhile isNewline = t :: ts)
    (hus : d.ahead.dropWhile isNewline = t :: us) (hloosened : Loosened t.kind depth ts us)
    (htype : groups ≠ 0 → depth = 0 → t.kind.isType = false) :
    InStep groups depth c.advance d.advance := by
  have hadvance : ∀ u ∈ c.advance.view, u.kind ≠ .illegal := fun u hu =>
    hlegal u ((advance_sublist c).subset hu)
  rw [advance_of_ahead hts, hgroups] at hc hadvance ⊢
  rw [advance_of_ahead hus, hgroups'] at hd ⊢
  refine ⟨hc, hd, hadvance, rfl, rfl, rfl, ?_⟩
  by_cases hg : groups = 0
  · rw [hg]
    exact hloosened
  · exact hloosened.settle (htype hg) groups

/-- **A step to the start of something**, over newlines. -/
theorem AtRest.advance (h : AtRest groups c d) : AtStart groups c.advance d.advance := by
  by_cases heof : c.current.kind = .eof
  · have heof' : d.current.kind = .eof := h.current_eq ▸ heof
    rw [advance_of_eof h.ready heof, advance_of_eof h.ready' heof', AtStart, heof]
    exact h.toInStep
  obtain ⟨-, t, rest, -, -, -, hdrop⟩ := (h.ready.terminated_ahead heof).exists_ahead
  obtain ⟨before, us, hdrop', hrest, hbefore⟩ := h.loosened.exists_of_dropWhile hdrop
  have hnot : before.isType = false := by
    rcases hbefore with rfl | rfl
    · rfl
    · exact h.not_type
  rw [Kind.depthBehind_eq_shift fun _ _ => hnot] at hrest
  have hcurrent : c.advance.current = t := by rw [advance_of_ahead hdrop]
  rw [AtStart, hcurrent]
  refine inStep_advance h.ready.advance h.ready'.advance h.legal h.groups_eq h.groups_eq' hdrop hdrop'
    hrest ?_
  exact fun hgroups hzero => Kind.not_isType_of_shift hgroups hzero

theorem Ready.kind_advance (h : c.Ready) (hpeek : c.peek.kind = kind)
    (hb : kind.isBoundary = false) : c.advance.current.kind = kind := by
  have hb' : c.peek.kind.isBoundary = false := hpeek ▸ hb
  rw [h.current_advance hb', hpeek]

section Peek
variable (h : InStep groups depth c d) (hgroups : groups = 0 → depth = 0)
  (hpeek : c.peek.kind = kind) (hb : kind.isBoundary = false)
include h hgroups hpeek hb

/-- The next token is known and no newline, in the second list too. -/
theorem InStep.exists_ahead :
    ∃ ts us, c.ahead.dropWhile isNewline = c.peek :: ts ∧ d.ahead.dropWhile isNewline = c.peek :: us ∧
      Loosened c.peek.kind (kind.depthBehind c.current.kind depth) ts us := by
  have hb' : c.peek.kind.isBoundary = false := hpeek ▸ hb
  have hline : c.peek.kind ≠ .endOfLine := Kind.ne_of_isBoundary hb' rfl
  obtain ⟨ts, hts⟩ := h.ready.ahead_of_peek (Kind.ne_of_isBoundary hb' rfl)
  have hloosened := h.loosened
  have hsettled := h.ready'.settled
  rw [hts] at hloosened
  rw [h.groups_eq'] at hsettled
  obtain ⟨us, hus, hrest⟩ := hloosened.exists_of_settled hsettled hgroups
  refine ⟨ts, us, ?_, ?_, hpeek ▸ hrest⟩
  · rw [hts]
    exact dropWhile_of_ne hline ts
  · rw [hus]
    exact dropWhile_of_ne hline us

/-- **A step to a token that is known**, but for the opening bracket of a type. -/
theorem InStep.advance_to (hdepth : groups ≠ 0 → depth ≠ 0)
    (htype : kind = .lbrack → depth = 0 → c.current.kind.isType = false) :
    InStep groups (kind.shift depth) c.advance d.advance := by
  obtain ⟨ts, us, hts, hus, hrest⟩ := h.exists_ahead hgroups hpeek hb
  rw [Kind.depthBehind_eq_shift htype] at hrest
  refine inStep_advance h.ready.advance h.ready'.advance h.legal h.groups_eq h.groups_eq' hts hus hrest ?_
  rw [hpeek]
  exact fun hg hzero => Kind.not_isType_of_shift (hdepth hg) hzero

end Peek

/-- A step to the opening bracket of a type outside of groups. -/
theorem InStep.advance_type (h : InStep 0 0 c d) (htype : c.current.kind.isType)
    (hpeek : c.peek.kind = .lbrack) : AtRest 0 c.advance d.advance := by
  obtain ⟨ts, us, hts, hus, hrest⟩ := h.exists_ahead (fun _ => rfl) hpeek rfl
  rw [Kind.depthBehind_type htype] at hrest
  refine ⟨inStep_advance h.ready.advance h.ready'.advance h.legal h.groups_eq h.groups_eq' hts hus hrest
    fun hg => absurd rfl hg, ?_⟩
  rw [h.ready.kind_advance hpeek rfl]
  rfl

theorem AtRest.peek_eq (h : AtRest groups c d) : d.peek = c.peek :=
  h.toInStep.peek_eq id

/-- A step to a token that opens and closes nothing. -/
theorem InStep.advance_rest (h : InStep groups groups c d) (hpeek : c.peek.kind = kind)
    (hb : kind.isBoundary = false) (hshift : kind.shift groups = groups)
    (htype : kind.isType = false) : AtRest groups c.advance d.advance := by
  have hnext := h.advance_to id hpeek hb id (by
    rintro rfl
    exact absurd hshift (Nat.succ_ne_self groups))
  rw [hshift] at hnext
  exact ⟨hnext, by rw [h.ready.kind_advance hpeek hb, htype]⟩

theorem Ready.length_advance_of_peek (h : c.Ready) (hpeek : c.peek.kind = kind)
    (hb : kind.isBoundary = false) : c.advance.ahead.length < c.ahead.length :=
  h.length_advance_of_moves (h.moves_peek (hpeek ▸ hb)) (List.cons_ne_nil _ _)

/-- Where nothing is ahead, the end is. -/
theorem AtRest.peek_eof (h : AtRest groups c d) (hlength : c.ahead.length < 1) :
    d.peek.kind = .eof := by
  have hnil : c.ahead = [] := List.length_eq_zero_iff.1 (by omega)
  rw [h.peek_eq, peek, hnil]
  exact h.ready.current_eq_eof hnil

/-! ### Starts -/

theorem AtStart.inStep (h : AtStart groups c d) (hkind : c.current.kind = kind)
    (hshift : kind.shift groups = groups) : InStep groups groups c d := by
  unfold AtStart at h
  rw [hkind, hshift] at h
  exact h

theorem AtStart.atRest (h : AtStart groups c d) (hkind : c.current.kind = kind)
    (hshift : kind.shift groups = groups) (htype : kind.isType = false) : AtRest groups c d :=
  ⟨h.inStep hkind hshift, hkind ▸ htype⟩

theorem AtStart.atOpening (h : AtStart groups c d) (hkind : c.current.kind = kind)
    (hopens : kind = .lparen ∨ kind = .lbrack) : AtOpening groups c d := by
  unfold AtStart at h
  rw [hkind] at h
  refine ⟨?_, hkind ▸ hopens⟩
  rcases hopens with rfl | rfl <;> exact h

/-! ### Groups -/

/-- **A group is opened**: from now on newlines mean nothing. -/
theorem AtOpening.openGroup (h : AtOpening groups c d) : AtRest (groups + 1) c.openGroup d.openGroup where
  ready := h.ready.openGroup
  ready' := h.ready'.openGroup
  legal := fun t ht => h.legal t ((openGroup_sublist c).subset ht)
  current_eq := h.current_eq
  groups_eq := congrArg (· + 1) h.groups_eq
  groups_eq' := congrArg (· + 1) h.groups_eq'
  loosened := by
    have hsettled := h.loosened.settle (fun hzero => absurd hzero (Nat.succ_ne_zero _)) (groups + 1)
    rw [settle_succ, settle_succ] at hsettled
    exact hsettled
  not_type := by
    show c.current.kind.isType = false
    rcases h.opens with hopens | hopens <;> rw [hopens] <;> rfl

theorem InStep.closeGroup (h : InStep (groups + 1) (groups + 1) c d) :
    AtClosing groups c.closeGroup d.closeGroup :=
  ⟨c, d, h, rfl, rfl⟩

namespace AtClosing

theorem peek_eq (h : AtClosing groups c d) : d.peek = c.peek := by
  obtain ⟨c', d', h, rfl, rfl⟩ := h
  exact h.peek_eq fun hzero => absurd hzero (Nat.succ_ne_zero _)

theorem legal_peek (h : AtClosing groups c d) : c.peek.kind ≠ .illegal := by
  obtain ⟨c', d', h, rfl, rfl⟩ := h
  exact h.legal_peek

/-- **A group is left** with a step to its closing bracket. -/
theorem advance (h : AtClosing groups c d) (hkind : kind = .rparen ∨ kind = .rbrack)
    (hpeek : c.peek.kind = kind) : AtRest groups c.advance d.advance := by
  obtain ⟨c', d', h, rfl, rfl⟩ := h
  have hb : kind.isBoundary = false := by rcases hkind with rfl | rfl <;> rfl
  have hbehind : kind.depthBehind c'.current.kind (groups + 1) = groups := by
    rcases hkind with rfl | rfl <;> rfl
  have htype : kind.isType = false := by rcases hkind with rfl | rfl <;> rfl
  obtain ⟨ts, us, hts, hus, hrest⟩ :=
    h.exists_ahead (fun hzero => absurd hzero (Nat.succ_ne_zero _)) hpeek hb
  rw [hbehind] at hrest
  have hcurrent : c'.closeGroup.advance.current = c'.peek := by
    rw [advance_of_ahead (c := c'.closeGroup) hts]
  refine ⟨inStep_advance h.ready.closeGroup.advance h.ready'.closeGroup.advance h.legal ?_ ?_ hts hus
    hrest ?_, ?_⟩
  · show c'.groups - 1 = groups
    rw [h.groups_eq]
    rfl
  · show d'.groups - 1 = groups
    rw [h.groups_eq']
    rfl
  · intro _ _
    rw [show c'.peek.kind = kind from hpeek]
    exact htype
  · rw [hcurrent, show c'.peek.kind = kind from hpeek]
    exact htype

end AtClosing

end Cursor

end LimLang
