import LimLang.Proofs.Tiling

/-! # Layout makes no difference to the tokens

Tokens are written down one after the other, with a separator between any two of them: a blank, and then
any gap of blanks and comments (`LaidOut`).  A blank ends whatever stands in front of it, so every token is
cut off where it was written to end.  In particular the `/` of a token never meets the `/` or the `*` that
would make a comment of it.  What a comment holds plays no part, as long as it does not hold its own end.

`Lexeme.CutInto` is the invariant of cutting such a text, carried from its end to its front: nothing is
wrong with the lexemes, and their tokens are the ones that were written.
-/
namespace LimLang

open Lexeme (isGap isLetter isDigit isWordChar)

/-! ## Texts in a layout -/

/-- **A text is one token written down**, of a kind and with a text: a symbol or a keyword, another word,
digits, a string between its quotes, or the end of a line. -/
inductive Writes : List Char → Kind × List Char → Prop
  | fixed {kind : Kind} {cs : List Char} (h : kind.isFixed) (hcs : kind.spelling.toList = cs) :
      Writes cs (kind, cs)
  | name {c : Char} {cs : List Char} (hc : isLetter c) (hcs : ∀ d ∈ cs, isWordChar d)
      (hfree : ∀ kind ∈ Kind.keywords, kind.spelling.toList ≠ c :: cs) :
      Writes (c :: cs) (.ident, c :: cs)
  | number {c : Char} {cs : List Char} (hc : isDigit c) (hcs : ∀ d ∈ cs, isDigit d) :
      Writes (c :: cs) (.int, c :: cs)
  | string {body : List Char} (h : '\x22' ∉ body) :
      Writes ('\x22' :: (body ++ ['\x22'])) (.string, body)
  | newline : Writes ['\n'] (.endOfLine, ['\n'])

/-- **A text that has some tokens written down**, one after the other.  What separates two of them starts
with a blank, and goes on with blanks and comments in any order. -/
inductive LaidOut : List (Kind × List Char) → List Char → Prop
  | nil : LaidOut [] []
  | one {item : Kind × List Char} {cs : List Char} (h : Writes cs item) : LaidOut [item] cs
  | cons {item next : Kind × List Char} {items : List (Kind × List Char)} {c : Char}
      {cs gap rest : List Char} (h : Writes cs item) (hc : c ∈ [' ', '\t', '\r']) (hgap : Gap rest gap)
      (hrest : LaidOut (next :: items) rest) :
      LaidOut (item :: next :: items) (cs ++ c :: (gap ++ rest))

/-! ## Words and symbols -/

namespace Kind

/-- The keywords are words, and what is written like one is that keyword. -/
theorem keyword_word {kind : Kind} (h : kind ∈ keywords) :
    ∃ c cs, kind.spelling.toList = c :: cs ∧ isLetter c ∧ cs.all isWordChar ∧
      ofWord (String.ofList (c :: cs)) = kind := by
  revert h
  cases kind <;> intro h <;> first
    | exact absurd h (by decide)
    | exact ⟨_, _, rfl, rfl, rfl, rfl⟩

theorem ofWord_eq_ident {word : List Char}
    (h : ∀ kind ∈ keywords, kind.spelling.toList ≠ word) : ofWord (String.ofList word) = .ident := by
  unfold ofWord
  have hnone : (keywords.find? fun kind => kind.spelling == String.ofList word) = none := by
    refine List.find?_eq_none.2 fun kind hkind heq => h kind hkind ?_
    rw [eq_of_beq heq, String.toList_ofList]
  rw [hnone, Option.getD_none]

/-- What has one spelling is a symbol of one or two characters, or a keyword. -/
theorem isFixed_cases {kind : Kind} (h : kind.isFixed) :
    (∃ c, kind.spelling.toList = [c] ∧ Lexeme.single? c = some kind) ∨
      (∃ c d, kind.spelling.toList = [c, d] ∧ Lexeme.double? c d = some kind) ∨
        kind ∈ keywords := by
  revert h
  cases kind <;> intro h <;> first
    | exact .inl ⟨_, rfl, rfl⟩
    | exact .inr (.inl ⟨_, _, rfl, rfl⟩)
    | exact .inr (.inr (by decide))
    | cases h

end Kind

/-! ## Cutting -/

namespace Lexeme

theorem isGap_iff {c : Char} : isGap c ↔ c ∈ [' ', '\t', '\r'] := by
  simp [isGap, or_assoc]

/-- Nothing but a longer symbol or a word could swallow a blank, and neither does. -/
theorem isPlain_of_isGap {c : Char} (h : isGap c) : isPlain c ∧ endsWord c := by
  have hc := isGap_iff.1 h
  simp only [List.mem_cons, List.not_mem_nil, or_false] at hc
  rcases hc with rfl | rfl | rfl <;> decide

theorem next_lineComment {body rest : List Char} (h : '\n' ∉ body)
    (hrest : ∀ c ∈ rest.head?, c = '\n') :
    next '/' ('/' :: (body ++ rest)) = (.lineComment body, rest) := by
  have hbody : body.all (· != '\n') := by
    rw [List.all_bne']
    simpa using h
  have hhead : rest.head?.all fun c => !(c != '\n') := by
    cases rest with
    | nil => rfl
    | cons c rest =>
      obtain rfl := hrest c rfl
      rfl
  obtain ⟨htake, hdrop⟩ := span_append hbody hhead
  unfold next
  simp [isGap, comment?, htake, hdrop]

theorem next_blockComment {body : List Char} (h : ¬ closing <:+: body) (rest : List Char) :
    next '/' ('*' :: (body ++ '*' :: '/' :: rest)) = (.blockComment body, rest) := by
  unfold next
  simp [isGap, comment?, closeComment?_of_not_closing h]

theorem next_gap {c : Char} (h : isGap c) (rest : List Char) : next c rest = (.blank c, rest) := by
  rw [next, if_pos h]

/-- A lexeme that nothing is reported of. -/
def isFaultless (l : Lexeme) : Bool :=
  l.isLegal && l.isClosed

/-- **A text that is cut into some tokens**, with nothing to report. -/
structure CutInto (cs : List Char) (items : List (Kind × List Char)) : Prop where
  faultless : ∀ l ∈ cut cs, l.isFaultless
  tokens : (cut cs).filterMap token? = items

namespace CutInto

variable {c : Char} {cs rest : List Char} {l : Lexeme} {items : List (Kind × List Char)}

theorem nil : CutInto [] [] where
  faultless := by simp
  tokens := rfl

/-- One more lexeme, in front of a text that has been cut. -/
theorem lead (h : CutInto rest items) (hnext : next c cs = (l, rest)) (hl : l.isFaultless) :
    CutInto (c :: cs) (l.token?.toList ++ items) where
  faultless := by
    rw [cut_cons, hnext]
    exact List.forall_mem_cons.2 ⟨hl, h.faultless⟩
  tokens := by
    rw [cut_cons, hnext, List.filterMap_cons, h.tokens]
    cases l.token? <;> rfl

end CutInto

end Lexeme

open Lexeme

variable {cs rest : List Char} {item : Kind × List Char} {items : List (Kind × List Char)}

/-- A token is cut off where it was written to end, if that is the end of the text or a blank
follows. -/
theorem Writes.exists_next (h : Writes cs item) :
    ∃ c ds l, cs = c :: ds ∧ l.isFaultless ∧ l.token? = some item ∧
      ∀ rest : List Char, rest.head?.all isGap → next c (ds ++ rest) = (l, rest) := by
  have hplain : ∀ {rest : List Char}, rest.head?.all isGap →
      rest.head?.all isPlain ∧ rest.head?.all endsWord := by
    intro rest hrest
    cases rest with
    | nil => exact ⟨rfl, rfl⟩
    | cons d rest => exact isPlain_of_isGap hrest
  cases h with
  | @fixed kind cs hfixed hspelling =>
    subst hspelling
    rcases Kind.isFixed_cases hfixed with ⟨c, hc, hs⟩ | ⟨c, d, hcd, hd⟩ | hword
    · exact ⟨c, [], .symbol kind [c], hc, rfl, by rw [hc]; rfl,
        fun rest hrest => next_symbol hs (hplain hrest).1⟩
    · exact ⟨c, [d], .symbol kind [c, d], hcd, rfl, by rw [hcd]; rfl,
        fun rest _ => next_symbols rest hd⟩
    · obtain ⟨c, ds, hcs, hc, hds, hof⟩ := Kind.keyword_word hword
      exact ⟨c, ds, .word (c :: ds), hcs, rfl, by rw [hcs, token?, hof],
        fun rest hrest => next_word hc hds (hplain hrest).2⟩
  | @name c ds hc hds hfree =>
    exact ⟨c, ds, .word (c :: ds), rfl, rfl, by rw [token?, Kind.ofWord_eq_ident hfree],
      fun rest hrest => next_word hc (List.all_eq_true.2 hds) (hplain hrest).2⟩
  | @number c ds hc hds =>
    exact ⟨c, ds, .number (c :: ds), rfl, rfl, rfl,
      fun rest hrest => next_number hc (List.all_eq_true.2 hds) (hplain hrest).2⟩
  | @string body hbody =>
    refine ⟨_, _, .string body, rfl, rfl, rfl, fun rest _ => ?_⟩
    rw [List.append_assoc]
    exact next_string hbody rest
  | newline => exact ⟨_, _, .newline, rfl, rfl, rfl, fun rest _ => rfl⟩

theorem Writes.cutInto (h : Writes cs item) (hrest : rest.head?.all isGap)
    (hcut : CutInto rest items) : CutInto (cs ++ rest) (item :: items) := by
  obtain ⟨c, ds, l, rfl, hl, htoken, hnext⟩ := h.exists_next
  have hlead := hcut.lead (hnext rest hrest) hl
  rwa [htoken] at hlead

/-- Blanks and comments leave no trace. -/
theorem Gap.cutInto {gap : List Char} (h : Gap rest gap) (hcut : CutInto rest items) :
    CutInto (gap ++ rest) items := by
  induction h with
  | nil => exact hcut
  | blank hc _ ih => exact ih.lead (next_gap (isGap_iff.2 hc) _) rfl
  | lineComment hbody hend _ ih =>
    have hlead := ih.lead (next_lineComment hbody hend) rfl
    simpa [token?] using hlead
  | blockComment hbody _ ih =>
    have hlead := ih.lead (next_blockComment hbody _) rfl
    simpa [token?] using hlead

/-- By induction on the layout, from the end of the text to its front. -/
theorem LaidOut.cutInto (h : LaidOut items cs) : CutInto cs items := by
  induction h with
  | nil => exact .nil
  | one h =>
    have hcut := h.cutInto rfl .nil
    rwa [List.append_nil] at hcut
  | cons h hc hgap _ ih => exact h.cutInto (isGap_iff.2 hc) ((hgap.blank hc).cutInto ih)

/-! ## Tokens -/

theorem Source.warnings_eq_nil {s : Source} (h : ∀ l ∈ Lexeme.cut s.text, l.isClosed) :
    s.warnings = [] := by
  refine List.filterMap_eq_nil_iff.2 fun placed hplaced => ?_
  have hl := h _ (Lexeme.mem_of_mem_place hplaced)
  obtain ⟨p, l⟩ := placed
  cases l <;> first | rfl | cases hl

/-- **Layout makes no difference to the tokens.**  A text in which some tokens are written down, with any
separators, has exactly these tokens, by kind and text, and then the one that ends them; and there are no
errors and no warnings. -/
theorem Source.tokens_laidOut {s : Source} (h : LaidOut items s.text) :
    s.tokens.map Token.contents = items ++ [(.eof, [])] ∧ s.lexicalErrors = [] ∧ s.warnings = [] := by
  obtain ⟨hfaultless, htokens⟩ := h.cutInto
  have hlegal := fun l hl => Bool.and_eq_true_iff.1 (hfaultless l hl)
  refine ⟨?_, lexicalErrors_eq_nil_iff_isLegal.2 fun l hl => (hlegal l hl).1,
    warnings_eq_nil fun l hl => (hlegal l hl).2⟩
  rw [Source.tokens, List.map_append, Source.lexemes, map_contents, htokens]
  rfl

/-- A slash, a comment that holds a quote, a slash, a newline and stars, and then a star; and a string
that starts like a comment. -/
theorem Source.tokens_laidOut_comment :
    let s : Source := { text := "x / /* \x22/ *\n **/*\t/**/\x22/*\x22 fn".toList, firstLine := 5 }
    let items : List (Kind × List Char) :=
      [(.ident, ['x']), (.slash, ['/']), (.asterisk, ['*']), (.string, ['/', '*']), (.kwFn, ['f', 'n'])]
    LaidOut items s.text ∧ s.tokens.map Token.contents = items ++ [(.eof, [])] ∧
      s.lexicalErrors = [] ∧ s.warnings = [] := by
  intro s items
  have hname : Writes ['x'] (.ident, ['x']) := .name rfl (List.forall_mem_nil _) (by decide)
  have hslash : Writes ['/'] (.slash, ['/']) := .fixed rfl (by decide)
  have hstar : Writes ['*'] (.asterisk, ['*']) := .fixed rfl (by decide)
  have hstring : Writes ['\x22', '/', '*', '\x22'] (.string, ['/', '*']) :=
    .string (show '\x22' ∉ ['/', '*'] by decide)
  have hword : Writes ['f', 'n'] (.kwFn, ['f', 'n']) := .fixed rfl (by decide)
  have hcomment (body : List Char) (hbody : ¬ ['*', '/'] <:+: body) (after : List Char) :
      Gap after ('/' :: '*' :: body ++ ['*', '/'] ++ []) := .blockComment hbody .nil
  have h : LaidOut items s.text := LaidOut.cons (c := ' ') hname (by decide) .nil <|
    .cons (c := ' ') hslash (by decide)
      (hcomment [' ', '\x22', '/', ' ', '*', '\n', ' ', '*'] (by decide) _) <|
    .cons (c := '\t') hstar (by decide) (hcomment [] (by decide) _) <|
    .cons (c := ' ') hstring (by decide) .nil <| .one hword
  exact ⟨h, tokens_laidOut h⟩

end LimLang
