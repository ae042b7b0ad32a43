import LimLang.Proofs.Reading

/-! # Braces, and skipping over them

Braces are counted from left to right: `Token.openAfter?` says how many are open behind some tokens,
and has no answer if one of the tokens closes a brace that is not open.

A malformed statement is skipped together with the braces it opens.  The parser counts them as it
goes, and stops for one of four reasons (`Cursor.Stops`): at the end, at a semicolon, at a brace that
closes what is outside, or where a line or a block ends while none of its braces is open.  The second
reason disregards the count.  So what is skipped closes the braces it opens exactly if the parser does
not stop at a semicolon with one of them open (`Cursor.synchronize_clears_iff`).
-/
namespace LimLang

open Cursor (isNewline endsBefore depthAfter)

/-! ## Counting -/

/-- How many braces are open behind a token of this kind, if `depth` are open in front of it. -/
def Kind.openAfter? (depth : Nat) : Kind → Option Nat
  | .lbrace => some (depth + 1)
  | .rbrace => if depth = 0 then none else some (depth - 1)
  | _ => some depth

/-- A token that opens or closes a block. -/
def Kind.isBrace : Kind → Bool
  | .lbrace | .rbrace => true
  | _ => false

theorem Kind.openAfter?_eq {kind : Kind} (h : kind.isBrace = false) (depth : Nat) :
    kind.openAfter? depth = some depth := by
  cases kind <;> first | rfl | cases h

namespace Token

/-- **How many braces are open behind tokens**, if `depth` are open in front of them. -/
def openAfter? : Nat → List Token → Option Nat
  | depth, [] => some depth
  | depth, t :: ts => (t.kind.openAfter? depth).bind fun depth => openAfter? depth ts

/-- **Tokens that close the braces they open**, and no others. -/
def Balanced (ts : List Token) : Prop :=
  openAfter? 0 ts = some 0

variable {depth more : Nat} {ts us : List Token} {t : Token}

instance : Decidable (Balanced ts) :=
  inferInstanceAs (Decidable (_ = _))

theorem openAfter?_append (depth : Nat) (ts us : List Token) :
    openAfter? depth (ts ++ us) = (openAfter? depth ts).bind fun depth => openAfter? depth us := by
  induction ts generalizing depth with
  | nil => rfl
  | cons t ts ih =>
    simp only [List.cons_append, openAfter?, Option.bind_assoc]
    exact congrArg _ (funext ih)

theorem openAfter?_singleton (depth : Nat) (t : Token) :
    openAfter? depth [t] = t.kind.openAfter? depth := by
  simp [openAfter?]

/-- Braces that are open outside stay open. -/
theorem openAfter?_add (h : openAfter? depth ts = some more) (outside : Nat) :
    openAfter? (outside + depth) ts = some (outside + more) := by
  induction ts generalizing depth with
  | nil =>
    obtain rfl := Option.some.inj h
    rfl
  | cons t ts ih =>
    obtain ⟨next, hnext, h⟩ := Option.bind_eq_some_iff.1 h
    refine Option.bind_eq_some_iff.2 ⟨outside + next, ?_, ih h⟩
    revert hnext
    cases t.kind with
    | lbrace =>
      rintro ⟨⟩
      rfl
    | rbrace =>
      simp only [Kind.openAfter?]
      split
      · rintro ⟨⟩
      · rintro ⟨⟩
        rw [if_neg (by omega)]
        congr 1
        omega
    | _ =>
      rintro ⟨⟩
      rfl

/-- Newlines are no braces. -/
theorem openAfter?_unbroken (depth : Nat) (ts : List Token) :
    openAfter? depth (unbroken ts) = openAfter? depth ts := by
  induction ts generalizing depth with
  | nil => rfl
  | cons t ts ih =>
    by_cases ht : t.kind = .endOfLine
    · rw [openAfter?, ht]
      show _ = openAfter? depth ts
      rw [← ih]
      simp [unbroken, ht]
    · rw [unbroken_cons ht, openAfter?, openAfter?]
      exact congrArg _ (funext ih)

end Token

open Token (openAfter? openAfter?_append openAfter?_singleton openAfter?_add
  openAfter?_unbroken)

/-! ## Why skipping stops -/

theorem unbroken_dropWhile (ts : List Token) : unbroken (ts.dropWhile isNewline) = unbroken ts := by
  have hline : IsNewlines (ts.takeWhile isNewline) := fun t ht =>
    isNewline_iff.1 (List.mem_takeWhile_imp ht)
  conv_rhs => rw [← List.takeWhile_append_dropWhile (p := isNewline) (l := ts), unbroken_append,
    hline.unbroken, List.nil_append]

/-- What is in view after a step is what was, without the token that was current. -/
theorem Cursor.Ready.unbroken_view {c : Cursor} (h : c.Ready) (hc : c.current.kind ≠ .eof) :
    unbroken c.view = c.current :: unbroken c.advance.view := by
  obtain ⟨gap, t, ts, hgap, hts, ht, hd⟩ := (h.terminated_ahead hc).exists_ahead
  have hsettle : unbroken (settle c.groups ts) = unbroken ts := by
    unfold settle
    split
    · rfl
    · exact unbroken_dropWhile ts
  rw [advance_of_ahead hd, view, view, unbroken_cons h.current_ne, hts, unbroken_append,
    hgap.unbroken, List.nil_append, unbroken_cons ht, unbroken_cons ht, hsettle]

namespace Cursor

variable {c : Cursor} {bound depth : Nat}

/-- **Why a malformed statement ends at the current token**, in front of which `depth` of its braces
are open. -/
inductive Stops (depth : Nat) (c : Cursor) : Prop
  | eof (h : c.current.kind = .eof)
  | semicolon (h : c.current.kind = .semicolon)
  | outer (h : c.current.kind = .rbrace) (hd : depth = 0)
  | before (h : c.current.kind.openAfter? depth = some 0) (hp : endsBefore c.peek.kind)

/-- The parser counts braces, but ends the statement at any semicolon. -/
theorem depthAfter_cases (depth : Nat) (kind : Kind) :
    depthAfter depth kind = none ∧
        (kind = .eof ∨ kind = .semicolon ∨ kind = .rbrace ∧ depth = 0) ∨
      depthAfter depth kind = kind.openAfter? depth ∧ (kind.openAfter? depth).isSome ∧
        kind ≠ .eof := by
  cases kind with
  | rbrace =>
    by_cases h : depth = 0
    · exact .inl ⟨if_pos h, .inr (.inr ⟨rfl, h⟩)⟩
    · exact .inr ⟨rfl, by simp [Kind.openAfter?, h], by decide⟩
  | eof => exact .inl ⟨rfl, .inl rfl⟩
  | semicolon => exact .inl ⟨rfl, .inr (.inl rfl)⟩
  | _ => exact .inr ⟨rfl, rfl, by decide⟩

/-- **What is skipped**, newlines aside, and why it ends there. -/
theorem Ready.skipWithin_stops (h : c.Ready) (depth : Nat) (hb : c.ahead.length < bound) :
    ∃ passed more, unbroken c.view = passed ++ unbroken (c.skipWithin bound depth).view ∧
      openAfter? depth passed = some more ∧ (c.skipWithin bound depth).Stops more := by
  induction bound generalizing c depth with
  | zero => omega
  | succ bound ih =>
    have here : ∀ hstop : c.Stops depth, ∃ passed more, unbroken c.view = passed ++ unbroken c.view ∧
        openAfter? depth passed = some more ∧ c.Stops more :=
      fun hstop => ⟨[], depth, rfl, rfl, hstop⟩
    unfold skipWithin
    rcases depthAfter_cases depth c.current.kind with ⟨hnone, hwhy⟩ | ⟨hsame, hsome, hne⟩
    · rw [hnone]
      rcases hwhy with heof | hsemicolon | ⟨hbrace, hzero⟩
      · exact here (.eof heof)
      · exact here (.semicolon hsemicolon)
      · exact here (.outer hbrace hzero)
    · obtain ⟨next, hnext⟩ := Option.isSome_iff_exists.1 hsome
      rw [hsame, hnext]
      dsimp only
      split
      · next hstop =>
        rw [Bool.and_eq_true, decide_eq_true_eq] at hstop
        exact here (.before (hnext.trans (congrArg some hstop.1)) hstop.2)
      · have hlt := h.length_advance_lt hne
        obtain ⟨passed, more, hview, hopen, hstops⟩ := ih h.advance next (by omega)
        refine ⟨c.current :: passed, more, ?_, ?_, hstops⟩
        · rw [h.unbroken_view hne, hview, List.cons_append]
        · rw [openAfter?, hnext, Option.bind_some, hopen]

theorem skipWithin_suffix (bound depth : Nat) (h : c.Ready) (hg : c.groups = 0) :
    (c.skipWithin bound depth).view <:+ c.view := by
  induction bound generalizing c depth with
  | zero => exact List.suffix_refl _
  | succ bound ih =>
    unfold skipWithin
    split
    · exact List.suffix_refl _
    · split
      · exact List.suffix_refl _
      · refine (ih _ h.advance ((advance_groups c).trans hg)).trans ?_
        by_cases hc : c.current.kind = .eof
        · exact ⟨[], congrArg view (advance_of_eof h hc)⟩
        · rw [h.view_advance hc hg]
          exact (List.dropWhile_suffix isNewline).trans (List.suffix_cons _ _)

/-- **What is skipped closes the braces it opens**, and none besides, but that the last token may
close one. -/
def Clears (passed : List Token) (last : Token) : Prop :=
  Token.Balanced (passed ++ [last]) ∨ Token.Balanced passed ∧ last.kind = .rbrace

/-- **Skipping a malformed statement clears its braces exactly if it does not stop at a semicolon
inside of one.** -/
theorem synchronize_clears_iff (c : Cursor) (hc : c.Ready) (hg : c.groups = 0)
    (hend : c.synchronize.current.kind ≠ .eof) :
    ∃ passed depth, c.view = passed ++ c.synchronize.view ∧ openAfter? 0 passed = some depth ∧
      (Clears passed c.synchronize.current ↔
        (c.synchronize.current.kind = .semicolon → depth = 0)) := by
  obtain ⟨passed, hview⟩ := skipWithin_suffix (c.ahead.length + 1) 0 hc hg
  obtain ⟨read, depth, hread, hopen, hstops⟩ :=
    hc.skipWithin_stops 0 (Nat.lt_succ_self _)
  -- The tokens passed are those read, with the newlines.
  rw [← hview, unbroken_append] at hread
  rw [← List.append_cancel_right hread, openAfter?_unbroken] at hopen
  refine ⟨passed, depth, hview.symm, hopen, ?_⟩
  have hlast : ∀ last : Token, openAfter? 0 (passed ++ [last]) = last.kind.openAfter? depth := by
    intro last
    rw [openAfter?_append, hopen, Option.bind_some, openAfter?_singleton]
  have hbalanced : Token.Balanced passed ↔ depth = 0 := by
    rw [Token.Balanced, hopen, Option.some.injEq]
  rw [Clears, Token.Balanced, hlast, hbalanced]
  cases hstops with
  | eof h => exact absurd h hend
  | semicolon h =>
    show (c.synchronize.current.kind.openAfter? depth = some 0 ∨ _) ↔ _
    replace h : c.synchronize.current.kind = .semicolon := h
    simp [h, Kind.openAfter?]
  | outer h hd =>
    replace h : c.synchronize.current.kind = .rbrace := h
    simp [h, hd]
  | before h _ =>
    replace h : c.synchronize.current.kind.openAfter? depth = some 0 := h
    refine ⟨fun _ hk => ?_, fun _ => .inl h⟩
    rw [hk] at h
    exact Option.some.inj h

/-- `{ a }` at the end of a line. -/
theorem synchronize_clears_iff_braces :
    let c : Cursor :=
      { current := { kind := .lbrace, text := "\x7b" }
        ahead := [{ kind := .ident, text := "a" }, { kind := .rbrace, text := "\x7d" },
          { kind := .endOfLine, text := "\n" }, { kind := .eof, text := "" }]
        groups := 0 }
    c.Ready ∧ c.groups = 0 ∧ c.synchronize.current.kind ≠ .eof ∧
      ∃ passed depth, c.view = passed ++ c.synchronize.view ∧ openAfter? 0 passed = some depth ∧
        (Clears passed c.synchronize.current ↔
          (c.synchronize.current.kind = .semicolon → depth = 0)) := by
  intro c
  have hready : c.Ready := ⟨by simp [c, view, Terminated], by decide, rfl⟩
  exact ⟨hready, rfl, by decide, synchronize_clears_iff c hready rfl (by decide)⟩

/-- `{ a; }`: the semicolon stands inside the braces. -/
theorem not_clears_semicolon :
    let c : Cursor :=
      { current := { kind := .lbrace, text := "\x7b" }
        ahead := [{ kind := .ident, text := "a" }, { kind := .semicolon, text := ";" },
          { kind := .rbrace, text := "\x7d" }, { kind := .eof, text := "" }]
        groups := 0 }
    c.Ready ∧ c.groups = 0 ∧ c.synchronize.current.kind ≠ .eof ∧
      ¬ ∃ passed, c.view = passed ++ c.synchronize.view ∧ Clears passed c.synchronize.current := by
  intro c
  refine ⟨⟨by simp [c, view, Terminated], by decide, rfl⟩, rfl, by decide, ?_⟩
  rintro ⟨passed, hpassed, hclears⟩
  have hview : c.view = [c.current, { kind := .ident, text := "a" }] ++ c.synchronize.view := by
    decide
  obtain rfl := List.append_cancel_right (hpassed.symm.trans hview)
  unfold Clears at hclears
  revert hclears
  decide

end Cursor

end LimLang
