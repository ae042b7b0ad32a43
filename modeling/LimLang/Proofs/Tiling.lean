import LimLang.Proofs.JoinedText
import LimLang.Proofs.LexemeShapes

/-! # The tokens tile the text

The tokens of a text stand one behind the other, each where it says it stands, and what is written for
it stands there.  Between two of them there is a *gap*: blanks and comments, and nothing else.  Only the
very end of the text may be a comment that is never closed, and then there is a warning.

`Source.Tiles` says so of the tokens from an offset on.  A token or a gap is put in front of what has
been tiled already, so the whole is by induction on what is left of the text, with one lemma for each of
the two (`Tiles.skip`, and the constructor for a token).

A `Scanner` hands out the tokens one by one and records what is wrong on the way.  It hands out the same
tokens, and the last of them for ever after.
-/
namespace LimLang

/-! ## Offsets and places -/

theorem drop_eq_extract {start stop : Nat} (h : start ≤ stop) (cs : List Char) :
    cs.drop start = cs.extract start stop ++ cs.drop stop := by
  have hstop : cs.drop stop = (cs.drop start).drop (stop - start) := by
    rw [List.drop_drop, Nat.add_sub_cancel' h]
  rw [List.extract_eq_take_drop, hstop, List.take_append_drop]

/-- A stretch of a text is put together from two. -/
theorem extract_append_extract {start middle stop : Nat} {cs : List Char} (hstart : start ≤ middle)
    (hstop : middle ≤ stop) (hlength : middle ≤ cs.length) :
    cs.extract start middle ++ cs.extract middle stop = cs.extract start stop := by
  have hmiddle : (cs.extract start middle).length = middle - start := by
    rw [List.extract_eq_take_drop, List.length_take, List.length_drop]
    omega
  show _ = (cs.drop start).take (stop - start)
  rw [drop_eq_extract hstart, List.take_append, hmiddle, List.take_of_length_le (by omega),
    show stop - start - (middle - start) = stop - middle by omega]

theorem extract_length {before piece after : List Char} :
    (before ++ (piece ++ after)).extract before.length (before.length + piece.length) = piece := by
  rw [List.extract_eq_take_drop, List.drop_left, Nat.add_sub_cancel_left, List.take_left]

/-- The offset at which the line of an offset starts: just after the last newline before it. -/
def lineStart (text : List Char) : Nat → Nat
  | 0 => 0
  | offset + 1 => if text[offset]? = some '\n' then offset + 1 else lineStart text offset

theorem lineStart_le (text : List Char) (offset : Nat) : lineStart text offset ≤ offset := by
  induction offset with
  | zero => exact Nat.le_refl 0
  | succ offset ih =>
    rw [lineStart]
    split
    · exact Nat.le_refl _
    · omega

namespace Source

variable {s : Source}

/-- The column after a part of the text. -/
theorem col_afterAll {before after : List Char} (h : s.text = before ++ after) :
    (s.start.afterAll before).col = before.length - lineStart s.text before.length := by
  induction before using List.reverseRecOn generalizing after with
  | nil => rfl
  | append_singleton before c ih =>
    rw [List.append_assoc] at h
    have hc : s.text[before.length]? = some c := by
      rw [h, List.getElem?_append_right (Nat.le_refl _), Nat.sub_self]
      rfl
    rw [Pos.afterAll_append, List.length_append, List.length_singleton, lineStart, hc]
    show ((s.start.afterAll before).after c).col = _
    by_cases hline : c = '\n'
    · rw [Pos.after, if_pos hline, if_pos (by rw [hline]), Nat.sub_self]
    · have hle := lineStart_le s.text before.length
      rw [Pos.after, if_neg hline, if_neg (by simpa using hline), ih h]
      show before.length - lineStart s.text before.length + 1 = _
      omega

/-- **A token stands at an offset of the text**: its line is told by the newlines before it, and its
column by how far the last of them is. -/
structure StandsAt (s : Source) (t : Token) (offset : Nat) : Prop where
  line : t.line = s.firstLine + (s.text.take offset).count '\n'
  col : t.col = offset - lineStart s.text offset

theorem standsAt_afterAll {before after : List Char} (h : s.text = before ++ after) {t : Token}
    (hline : t.line = (s.start.afterAll before).line) (hcol : t.col = (s.start.afterAll before).col) :
    s.StandsAt t before.length := by
  refine ⟨?_, hcol.trans (col_afterAll h)⟩
  rw [hline, Pos.line_afterAll, h, List.take_left]
  rfl

end Source

/-! ## Gaps -/

/-- **What may stand between tokens** in front of the text `after`: blanks, comments up to a newline or
the end, and comments that are closed. -/
inductive Gap (after : List Char) : List Char → Prop
  | nil : Gap after []
  | blank {c : Char} {cs : List Char} (hc : c ∈ [' ', '\t', '\r']) (h : Gap after cs) :
      Gap after (c :: cs)
  | lineComment {body cs : List Char} (hbody : '\n' ∉ body)
      (hend : ∀ c ∈ (cs ++ after).head?, c = '\n') (h : Gap after cs) :
      Gap after ('/' :: '/' :: body ++ cs)
  | blockComment {body cs : List Char} (hbody : ¬ ['*', '/'] <:+: body) (h : Gap after cs) :
      Gap after ('/' :: '*' :: body ++ ['*', '/'] ++ cs)

/-- A comment that is never closed. -/
def IsOpenComment (cs : List Char) : Prop :=
  ∃ body, cs = '/' :: '*' :: body ∧ ¬ ['*', '/'] <:+: body

namespace Source

/-- **The tokens tile the text from an offset on**, up to the end of the text or a last piece `tail`.
In front of each token is a gap, then comes what is written for it, and the token stands where it says.
The last token is the only `eof`, and stands at the end. -/
inductive Tiles (s : Source) (tail : List Char) : Nat → List Token → Prop
  | last {start : Nat} {gap : List Char} {t : Token} (htext : s.text.drop start = gap ++ tail)
      (hgap : Gap tail gap) (ht : t.kind = .eof) (hstands : s.StandsAt t s.text.length) :
      Tiles s tail start [t]
  | token {start first stop : Nat} {t : Token} {ts : List Token} (hstart : start ≤ first)
      (hfirst : first < stop) (hstop : stop ≤ s.text.length)
      (hgap : Gap (s.text.drop first) (s.text.extract start first)) (ht : t.kind ≠ .eof)
      (hwritten : s.text.extract first stop = t.written) (hstands : s.StandsAt t first)
      (h : Tiles s tail stop ts) : Tiles s tail start (t :: ts)

variable {s : Source} {tail : List Char}

/-- A piece of a gap in front of what is tiled. -/
theorem Tiles.skip {start stop : Nat} {ts : List Token} (hle : start ≤ stop)
    (hlength : stop ≤ s.text.length)
    (hpiece : ∀ after gap, s.text.drop stop = gap ++ after → Gap after gap →
      Gap after (s.text.extract start stop ++ gap))
    (h : s.Tiles tail stop ts) : s.Tiles tail start ts := by
  cases h with
  | last htext hgap ht hstands =>
    refine .last ?_ (hpiece _ _ htext hgap) ht hstands
    rw [drop_eq_extract hle, htext, List.append_assoc]
  | @token _ first _ _ _ hstart hfirst hstop hgap ht hwritten hstands h =>
    refine .token (hle.trans hstart) hfirst hstop ?_ ht hwritten hstands h
    rw [← extract_append_extract hle hstart hlength]
    exact hpiece _ _ (drop_eq_extract hstart s.text) hgap

/-! ### Lexeme by lexeme -/

/-- **What is left of the text behind `before` is tiled** by the tokens of the lexemes that are left,
and warned about if it ends with an open comment. -/
def LeftTiled (s : Source) (before : List Char) (ls : List Lexeme) : Prop :=
  ∃ tail,
    s.Tiles tail before.length
      ((Lexeme.place (s.start.afterAll before) ls).filterMap Lexeme.tokenAt? ++ [s.endToken]) ∧
    (tail = [] ∧ (Lexeme.place (s.start.afterAll before) ls).filterMap s.lexicalWarning? = [] ∨
      IsOpenComment tail ∧
        ((Lexeme.place (s.start.afterAll before) ls).filterMap s.lexicalWarning?).length = 1)

theorem standsAt_endToken (s : Source) : s.StandsAt s.endToken s.text.length :=
  standsAt_afterAll (List.append_nil s.text).symm rfl rfl

theorem leftTiled_nil (s : Source) : s.LeftTiled s.text [] := by
  refine ⟨[], .last ?_ .nil rfl s.standsAt_endToken, .inl ⟨rfl, rfl⟩⟩
  rw [List.drop_length, List.append_nil]

section Lexeme
variable {before after : List Char} {l : Lexeme} {ls : List Lexeme} (hshaped : l.Shaped after)
  (htext : s.text = before ++ (l.text ++ after))
include hshaped htext

/-- An open comment at the end of the text. -/
theorem leftTiled_openComment {body : List Char} (hl : l = .openComment body) :
    s.LeftTiled before [l] := by
  subst hl
  obtain ⟨hbody, rfl⟩ := hshaped
  refine ⟨Lexeme.text (.openComment body), .last ?_ .nil rfl s.standsAt_endToken,
    .inr ⟨⟨body, rfl, hbody⟩, rfl⟩⟩
  rw [htext, List.drop_left, List.append_nil, List.nil_append]

/-- Blanks and closed comments in front of what is tiled. -/
theorem LeftTiled.gap (hnone : l.token? = none) (hopen : ∀ body, l ≠ .openComment body)
    (h : s.LeftTiled (before ++ l.text) ls) : s.LeftTiled before (l :: ls) := by
  obtain ⟨tail, htiles, hwarnings⟩ := h
  rw [List.length_append, Pos.afterAll_append] at htiles
  rw [Pos.afterAll_append] at hwarnings
  have htoken : Lexeme.tokenAt? (s.start.afterAll before, l) = none := by
    rw [Lexeme.tokenAt?, hnone]
    rfl
  have hwarning : s.lexicalWarning? (s.start.afterAll before, l) = none := by
    cases l <;> first | rfl | exact absurd rfl (hopen _)
  refine ⟨tail, ?_, ?_⟩
  · rw [Lexeme.place, List.filterMap_cons_none htoken]
    refine htiles.skip (Nat.le_add_right _ _) ?_ fun rest gap hrest hgap => ?_
    · rw [htext, List.length_append, List.length_append]
      omega
    · have hpiece : s.text.extract before.length (before.length + l.text.length) = l.text := by
        rw [htext, extract_length]
      rw [hpiece]
      have hafter : after = gap ++ rest := by
        rw [← hrest, htext, ← List.append_assoc, ← List.length_append, List.drop_left]
      cases l with
      | blank c =>
        refine .blank ?_ hgap
        simpa [Lexeme.Shaped, Lexeme.isGap, or_assoc] using hshaped
      | lineComment body => exact .lineComment hshaped.1 (hafter ▸ hshaped.2) hgap
      | blockComment body => exact .blockComment hshaped hgap
      | openComment body => exact absurd rfl (hopen body)
      | _ => cases hnone
  · rw [Lexeme.place, List.filterMap_cons_none hwarning]
    exact hwarnings

/-- A token in front of what is tiled. -/
theorem LeftTiled.token {t : Token} (hproper : l.IsProper) (hne : l.text ≠ [])
    (ht : Lexeme.tokenAt? (s.start.afterAll before, l) = some t)
    (h : s.LeftTiled (before ++ l.text) ls) : s.LeftTiled before (l :: ls) := by
  obtain ⟨tail, htiles, hwarnings⟩ := h
  rw [List.length_append, Pos.afterAll_append] at htiles
  rw [Pos.afterAll_append] at hwarnings
  have hwarning : s.lexicalWarning? (s.start.afterAll before, l) = none := by
    cases l <;> first | rfl | cases ht
  have hpos := List.length_pos_of_ne_nil hne
  refine ⟨tail, ?_, ?_⟩
  · rw [Lexeme.place, List.filterMap_cons_some ht, List.cons_append]
    refine .token (Nat.le_refl _) (by omega) ?_ ?_ ?_ ?_ ?_ htiles
    · rw [htext, List.length_append, List.length_append]
      omega
    · rw [List.extract_eq_take_drop, Nat.sub_self]
      exact .nil
    · obtain ⟨kind, text, htoken, rfl⟩ := Lexeme.tokenAt?_eq_some ht
      exact (hproper kind text htoken).1
    · rw [hshaped.written_eq ht, htext, extract_length]
    · obtain ⟨kind, text, htoken, rfl⟩ := Lexeme.tokenAt?_eq_some ht
      exact standsAt_afterAll htext rfl rfl
  · rw [Lexeme.place, List.filterMap_cons_none hwarning]
    exact hwarnings

end Lexeme

/-- **What is left of a text is tiled.** -/
theorem leftTiled_cut {before rest : List Char} (h : s.text = before ++ rest) :
    s.LeftTiled before (Lexeme.cut rest) := by
  induction hn : rest.length using Nat.strong_induction_on generalizing before rest with
  | _ n ih =>
    cases rest with
    | nil =>
      rw [List.append_nil] at h
      rw [← h]
      exact leftTiled_nil s
    | cons c rest =>
      have hshaped := Lexeme.shaped_next c rest
      have hshort := Lexeme.length_next_le c rest
      rw [List.length_cons] at hn
      rw [← Lexeme.text_next c rest] at h
      have hleft := ih _ (by omega) (h.trans (List.append_assoc _ _ _).symm) rfl
      rw [Lexeme.cut_cons]
      cases htoken : Lexeme.tokenAt? (s.start.afterAll before, (Lexeme.next c rest).1) with
      | some t =>
        refine hleft.token hshaped h (Lexeme.next_isProper c rest) ?_ htoken
        obtain ⟨body, hbody, -⟩ := Lexeme.text_next_eq_cons c rest
        rw [hbody]
        exact List.cons_ne_nil _ _
      | none =>
        by_cases hopen : ∃ body, (Lexeme.next c rest).1 = .openComment body
        · obtain ⟨body, hbody⟩ := hopen
          have hend : (Lexeme.next c rest).2 = [] := by
            rw [hbody] at hshaped
            exact hshaped.2
          rw [hend, Lexeme.cut_nil]
          exact leftTiled_openComment hshaped h hbody
        · refine hleft.gap hshaped h ?_ fun body hbody => hopen ⟨body, hbody⟩
          exact Option.map_eq_none_iff.1 htoken

end Source

/-! ## Token by token -/

namespace Scanner

/-- The tokens that are left, but for the end. -/
def words (z : Scanner) : List Token :=
  (Lexeme.place z.place (Lexeme.cut z.rest)).filterMap Lexeme.tokenAt?

/-- The scanner when everything is read. -/
def final (z : Scanner) : Scanner :=
  { z with
    place := z.place.afterAll z.rest
    rest := []
    errors := z.errors ++
      (Lexeme.place z.place (Lexeme.cut z.rest)).filterMap z.source.lexicalError?
    warnings := z.warnings ++
      (Lexeme.place z.place (Lexeme.cut z.rest)).filterMap z.source.lexicalWarning? }

theorem next_of_nil {z : Scanner} (h : z.rest = []) : z.next = (z.endToken, z) := by
  rw [next]
  split
  · rfl
  · next hrest => rw [h] at hrest; cases hrest

theorem take_of_nil {z : Scanner} (h : z.rest = []) (n : Nat) :
    z.take n = (List.replicate n z.endToken, z) := by
  induction n with
  | zero => rfl
  | succ n ih => rw [take, next_of_nil h, ih, List.replicate_succ]

theorem final_of_nil {z : Scanner} (h : z.rest = []) : z.final = z := by
  obtain ⟨source, place, rest, errors, warnings⟩ := z
  obtain rfl : rest = [] := h
  simp [final, Lexeme.place, Pos.afterAll]

section Step
variable {z : Scanner} {c : Char} {rest : List Char} (h : z.rest = c :: rest)
include h

theorem next_of_cons :
    z.next = match Lexeme.tokenAt? (z.place, (Lexeme.next c rest).1) with
      | some token => (token, z.past (Lexeme.next c rest).1 (Lexeme.next c rest).2)
      | none => (z.past (Lexeme.next c rest).1 (Lexeme.next c rest).2).next := by
  rw [next]
  split
  · next hrest => rw [h] at hrest; cases hrest
  · next hrest =>
    rw [h] at hrest
    obtain ⟨rfl, rfl⟩ := List.cons.inj hrest
    rfl

theorem words_of_cons :
    z.words = (Lexeme.tokenAt? (z.place, (Lexeme.next c rest).1)).toList ++
      (z.past (Lexeme.next c rest).1 (Lexeme.next c rest).2).words := by
  rw [words, h, Lexeme.cut_cons, Lexeme.place, List.filterMap_cons]
  cases Lexeme.tokenAt? (z.place, (Lexeme.next c rest).1) <;> rfl

theorem final_past : (z.past (Lexeme.next c rest).1 (Lexeme.next c rest).2).final = z.final := by
  have hrecord : ∀ f : Pos × Lexeme → Option Diagnostic,
      (f (z.place, (Lexeme.next c rest).1)).toList ++
        (Lexeme.place (z.place.afterAll (Lexeme.next c rest).1.text)
          (Lexeme.cut (Lexeme.next c rest).2)).filterMap f =
      (Lexeme.place z.place (Lexeme.cut z.rest)).filterMap f := by
    intro f
    rw [h, Lexeme.cut_cons, Lexeme.place, List.filterMap_cons]
    cases f (z.place, (Lexeme.next c rest).1) <;> rfl
  have hplace : (z.place.afterAll (Lexeme.next c rest).1.text).afterAll (Lexeme.next c rest).2 =
      z.place.afterAll z.rest := by
    rw [← Pos.afterAll_append, Lexeme.text_next, h]
  simp only [final, past, hplace, List.append_assoc, hrecord]

end Step

/-- **The scanner hands out the tokens that are left, and then the end.** -/
theorem take_words (z : Scanner) :
    z.take (z.words.length + 1) = (z.words ++ [z.final.endToken], z.final) := by
  induction hn : z.rest.length using Nat.strong_induction_on generalizing z with
  | _ n ih =>
    cases hrest : z.rest with
    | nil =>
      have hwords : z.words = [] := by rw [words, hrest]; rfl
      rw [hwords, final_of_nil hrest]
      exact take_of_nil hrest 1
    | cons c rest =>
      have hshort : (z.past (Lexeme.next c rest).1 (Lexeme.next c rest).2).rest.length < n := by
        rw [← hn, hrest]
        exact Nat.lt_succ_of_le (Lexeme.length_next_le c rest)
      have hpast := ih _ hshort _ rfl
      rw [final_past hrest] at hpast
      have hnext := next_of_cons hrest
      rw [words_of_cons hrest]
      cases htoken : Lexeme.tokenAt? (z.place, (Lexeme.next c rest).1) with
      | some t =>
        rw [htoken] at hnext
        rw [Option.toList_some, List.singleton_append, List.length_cons, take, hnext, hpast]
        rfl
      | none =>
        -- The lexeme is skipped, so the token is the one behind it.
        rw [htoken] at hnext
        rw [Option.toList_none, List.nil_append, take, hnext]
        exact hpast

end Scanner

/-- **The tokens tile the text.**  They stand in order where they say, with what is written for them, and
with gaps between them.  The text may end with an open comment, and exactly then there is a warning.  A
scanner hands out these tokens and records the diagnostics and the warning, and however often it is asked
again, it hands out the last token and records nothing. -/
theorem Source.tokens_tile (s : Source) :
    (∃ tail, s.Tiles tail 0 s.tokens ∧
      (tail = [] ∧ s.warnings = [] ∨ IsOpenComment tail ∧ s.warnings.length = 1)) ∧
    ∃ stop : Scanner, (Scanner.initial s).take s.tokens.length = (s.tokens, stop) ∧
      stop.errors = s.lexicalErrors ∧ stop.warnings = s.warnings ∧
      ∀ n, stop.take n = (List.replicate n s.endToken, stop) := by
  have htiled : s.LeftTiled [] (Lexeme.cut s.text) := leftTiled_cut rfl
  refine ⟨htiled, (Scanner.initial s).final, ?_, ?_, ?_, ?_⟩
  · have htake := (Scanner.initial s).take_words
    rw [show s.tokens.length = (Scanner.initial s).words.length + 1 from List.length_append]
    exact htake
  · exact List.nil_append _
  · exact List.nil_append _
  · exact Scanner.take_of_nil rfl

end LimLang
