import LimLang.Proofs.Excerpts
import LimLang.Proofs.WholeStream

/-! # What the parser's diagnostics underline

A diagnostic of the parser is about a token of the text, never about text that is no token, for that has
been reported by the scanner.  It points at as many columns as the token's text has characters.  If the
token is not a string, these are the columns it occupies; the text of a string is without its quotes,
and then the last two columns are missing (`Source.syntactic_underlines_iff`).
-/
namespace LimLang

namespace Lexeme

variable {l : Lexeme} {after : List Char} {p : Pos} {t : Token}

theorem whole_spelling {kind : Kind} (h : kind.isFixed) : Text.Whole kind.spelling.toList := by
  have hplain : kind.spelling.toList ≠ [] ∧ '\n' ∉ kind.spelling.toList ∧
      '\r' ∉ kind.spelling.toList := by
    revert h
    cases kind <;> decide
  exact .of_not_mem hplain.1 hplain.2.1 hplain.2.2

/-- **The lexeme of a token on one line is shown whole**, unless it is no proper token. -/
theorem whole_text (hshaped : l.Shaped after) (hspelled : l.Spelled after)
    (ht : tokenAt? (p, l) = some t) (hk : t.kind ≠ .illegal) (hline : '\n' ∉ l.text) :
    Text.Whole l.text := by
  obtain ⟨kind, text, htoken, rfl⟩ := tokenAt?_eq_some ht
  cases l with
  | symbol kind text =>
    obtain ⟨hfixed, rfl⟩ := hshaped
    exact whole_spelling hfixed
  | newline => exact absurd List.mem_cons_self hline
  | string body => exact ⟨hline, '\x22' :: body, '\x22', rfl, by decide⟩
  | word text =>
    obtain ⟨c, cs, rfl, hc, hcs⟩ := hshaped
    refine whole_of_all (List.cons_ne_nil _ _) ?_
    show ((c :: cs).all isWordChar) = true
    rw [List.all_cons, hcs, Bool.and_true, isWordChar, hc, Bool.true_or]
  | number text => exact whole_of_all hspelled.1 hspelled.2
  | openString | numberedWord | stray =>
    obtain ⟨rfl, -⟩ := Prod.mk.inj (Option.some.inj htoken)
    exact absurd rfl hk
  | _ => cases htoken

end Lexeme

/-! ## Tokens in the text -/

/-- **A token occupies a stretch of the text**: it stands where the stretch starts, and the stretch is
what is written for it. -/
structure Source.Occupies (s : Source) (t : Token) (first stop : Nat) : Prop where
  stands : s.StandsAt t first
  first_lt : first < stop
  stop_le : stop ≤ s.text.length
  extract_eq : s.text.extract first stop = t.written

/-- **A diagnostic underlines a token**: it shows the line in which the token stands, and points at the
columns that the token occupies. -/
structure Diagnostic.Underlines (d : Diagnostic) (s : Source) (t : Token) : Prop where
  line_eq : d.line = t.line
  excerpt_eq : d.excerpt = String.ofList (s.line t.line)
  columns : ∃ first stop : Nat, s.Occupies t first stop ∧
    d.start = (first : Int) - lineStart s.text first ∧ d.stop = (stop : Int) - lineStart s.text first
  slice_eq : Text.slice d.excerpt.toList d.start d.stop = t.written

namespace Source

variable {s : Source} {t : Token} {limits : Limits} {parsed : Parsed} {d : Diagnostic}

theorem Occupies.length_eq {first stop : Nat} (h : s.Occupies t first stop) :
    stop = first + t.written.length := by
  have hlt := h.first_lt
  have hle := h.stop_le
  rw [← h.extract_eq, List.extract_eq_take_drop, List.length_take, List.length_drop]
  omega

/-- A token stands between what is before it and what is after it. -/
theorem exists_of_mem_tokens (ht : t ∈ s.tokens) (hk : t.kind ≠ .eof) :
    ∃ before after, s.text = before ++ (t.written ++ after) ∧ t.pos = s.start.afterAll before ∧
      (t.kind ≠ .illegal → '\n' ∉ t.written → Text.Whole t.written) := by
  rcases List.mem_append.1 ht with hword | hend
  · obtain ⟨placed, hplaced, htoken, hpos⟩ := exists_of_mem_words hword
    obtain ⟨before, c, rest, htext, rfl⟩ := Lexeme.exists_of_mem_place_cut hplaced
    have hshaped := Lexeme.shaped_next c rest
    rw [hshaped.written_eq htoken]
    refine ⟨before, (Lexeme.next c rest).2, ?_, hpos, fun hlegal hline => ?_⟩
    · rw [Lexeme.text_next, htext]
    · exact Lexeme.whole_text hshaped (Lexeme.spelled_next c rest) htoken hlegal hline
  · rw [List.mem_singleton.1 hend] at hk
    exact absurd rfl hk

theorem occupies_append {before after : List Char} (h : s.text = before ++ (t.written ++ after))
    (hpos : t.pos = s.start.afterAll before) (hne : t.written ≠ []) :
    s.Occupies t before.length (before.length + t.written.length) where
  stands := standsAt_afterAll h (congrArg Pos.line hpos) (congrArg Pos.col hpos)
  first_lt := Nat.lt_add_of_pos_right (List.length_pos_of_ne_nil hne)
  stop_le := by
    rw [h, List.length_append, List.length_append]
    omega
  extract_eq := by rw [h, extract_length]

end Source

/-! ## What is underlined -/

namespace Finding

variable {s : Source} {f : Finding} {before after : List Char}

/-- As many columns are pointed at as the text of the token has characters, but one at least. -/
theorem stop_diagnostic (f : Finding) (s : Source) :
    (f.diagnostic s).stop = (f.diagnostic s).start + max f.token.text.length 1 :=
  rfl

/-- **All tokens but strings are underlined.** -/
theorem underlines_of_ne_string (h : s.text = before ++ (f.token.written ++ after))
    (hpos : f.token.pos = s.start.afterAll before) (hwhole : Text.Whole f.token.written)
    (hk : f.token.kind ≠ .string) : (f.diagnostic s).Underlines s f.token := by
  have hwritten : f.token.written = f.token.text.toList := if_neg hk
  have hoccupies := Source.occupies_append h hpos hwhole.ne_nil
  have hlength : f.token.written.length = f.token.text.length := by
    rw [hwritten, String.length_toList]
  have hpoints := Source.located_pointsAt .syntactic f.violation.message h hwhole
  rw [← hpos, hlength] at hpoints
  refine ⟨rfl, rfl, ⟨_, _, hoccupies, ?_, ?_⟩, hpoints.slice_eq⟩
  · show (f.token.col : Int) = _
    have hle := lineStart_le s.text before.length
    rw [hoccupies.stands.col]
    omega
  · show (f.token.col : Int) + max f.token.text.length 1 = _
    have hle := lineStart_le s.text before.length
    have hpositive := List.length_pos_of_ne_nil hwhole.ne_nil
    rw [hoccupies.stands.col]
    omega

/-- **A string is not underlined**: its quotes are not counted. -/
theorem not_underlines_of_string (hk : f.token.kind = .string) :
    ¬ (f.diagnostic s).Underlines s f.token := by
  intro h
  obtain ⟨first, stop, hoccupies, hstart, hstop⟩ := h.columns
  have hlength := hoccupies.length_eq
  have hwritten : f.token.written.length = f.token.text.length + 2 := by
    rw [Token.written, if_pos hk, List.length_append, List.length_cons, String.length_toList]
    rfl
  rw [stop_diagnostic, hstart] at hstop
  omega

/-- What is underlined of a string: so many characters as it has, counted from its first quote. -/
theorem slice_of_string (h : s.text = before ++ (f.token.written ++ after))
    (hpos : f.token.pos = s.start.afterAll before) (hwhole : Text.Whole f.token.written)
    (hk : f.token.kind = .string) :
    Text.slice (f.diagnostic s).excerpt.toList (f.diagnostic s).start (f.diagnostic s).stop =
      f.token.written.take (max f.token.text.length 1) := by
  have hlength : (f.token.written.take (max f.token.text.length 1)).length =
      max f.token.text.length 1 := by
    rw [List.length_take, Token.written, if_pos hk, List.length_append, List.length_cons,
      String.length_toList]
    omega
  obtain ⟨opening, hcol, hline⟩ := Source.exists_line_of_whole h hwhole
  rw [← hpos] at hcol hline
  rw [← List.take_append_drop (max f.token.text.length 1) f.token.written, List.append_assoc] at hline
  have hne : f.token.written.take (max f.token.text.length 1) ≠ [] := by
    refine List.ne_nil_of_length_pos ?_
    omega
  have hpoints := Diagnostic.located_pointsAt .syntactic f.violation.message hcol hline hne
  have hslice := hpoints.slice_eq
  rw [hlength] at hslice
  -- One column is pointed at, at least, whatever the length is said to be.
  have hmax : max (max f.token.text.length 1) 1 = max f.token.text.length 1 := by omega
  unfold Diagnostic.located at hslice
  rw [hmax] at hslice
  exact hslice

end Finding

namespace Source

variable {s : Source} {limits : Limits} {parsed : Parsed} {d : Diagnostic}

/-- What the scanner reports is no matter of the grammar. -/
theorem category_of_mem_lexicalErrors (h : d ∈ s.lexicalErrors) : d.category = .lexical := by
  obtain ⟨placed, hplaced, hd⟩ := List.mem_filterMap.1 h
  have hreports := reports_of_mem_lexemes hplaced
  rw [hd] at hreports
  generalize (Lexeme.tokenAt? placed).filter _ = token at hreports
  cases hreports with
  | some h => exact h.category_eq

/-- A diagnostic of the parser is about a token. -/
theorem exists_finding (h : s.parse limits = .ok parsed) (hd : d ∈ parsed.errors)
    (hcategory : d.category = .syntactic) :
    ∃ f : Finding, f.token ∈ s.tokens ∧ f.token.kind ≠ .illegal ∧ d = f.diagnostic s := by
  obtain ⟨t, hrun, hreport, -⟩ := exists_run_of_parse h
  obtain ⟨drops, hcourse, hfindings, -⟩ := exists_course hrun
  rw [hreport, (Diagnostic.perm_inOrder _).mem_iff] at hd
  rcases List.mem_append.1 hd with hlexical | hsyntactic
  · rw [category_of_mem_lexicalErrors hlexical] at hcategory
    cases hcategory
  · obtain ⟨f, hf, rfl⟩ := List.mem_map.1 hsyntactic
    refine ⟨f, mem_tokens_of_program hrun f hf, ?_, rfl⟩
    rw [hfindings] at hf
    obtain ⟨drop, hdrop, hfinding⟩ := List.mem_filterMap.1 hf
    have hblames :=
      (hcourse.grounded (ready_initial s) (Parse.groups_initial _ _) drop hdrop).blames
    rw [hfinding] at hblames
    exact hblames.1

/-- **The parser's diagnostics underline the tokens they are about, but for strings.**  Each stands at the
place of one token.  If that is not the end and no line ends in it, exactly the columns it occupies are
underlined, unless it is a string; of a string, so many characters as it has, counted from its first
quote. -/
theorem syntactic_underlines_iff (h : s.parse limits = .ok parsed) (hd : d ∈ parsed.errors)
    (hcategory : d.category = .syntactic) :
    ∃ t ∈ s.tokens, d.line = t.line ∧ d.start = t.col ∧
      (∀ u ∈ s.tokens, d.line = u.line → d.start = u.col → u = t) ∧
      (t.kind ≠ .eof → '\n' ∉ t.written →
        (d.Underlines s t ↔ t.kind ≠ .string) ∧
        (t.kind = .string → Text.slice d.excerpt.toList d.start d.stop =
          t.written.take (max t.text.length 1))) := by
  obtain ⟨f, hmem, hlegal, rfl⟩ := exists_finding h hd hcategory
  refine ⟨f.token, hmem, rfl, rfl, fun u hu hline hcol => ?_, fun hk hline => ?_⟩
  · refine eq_of_pos_eq hu hmem ?_
    have hcol' : f.token.col = u.col := Int.ofNat.inj hcol
    have hline' : f.token.line = u.line := hline
    rw [Token.pos, Token.pos, hline', hcol']
  · obtain ⟨before, after, htext, hpos, hwhole⟩ := exists_of_mem_tokens hmem hk
    have hwhole := hwhole hlegal hline
    refine ⟨⟨fun hunder hstring => Finding.not_underlines_of_string hstring hunder, fun hne => ?_⟩,
      Finding.slice_of_string htext hpos hwhole⟩
    exact Finding.underlines_of_ne_string htext hpos hwhole hne

/-- A number stands where a name was expected, and is underlined. -/
theorem syntactic_underlines_iff_number :
    ∃ parsed d t, parse { text := "int 57".toList } Limits.standard = .ok parsed ∧
      d ∈ parsed.errors ∧ d.category = .syntactic ∧
      t ∈ tokens { text := "int 57".toList } ∧ t.text = "57" ∧
      d.Underlines { text := "int 57".toList } t := by
  obtain ⟨tree, d, hparse, hcategory, hline, hstart⟩ : ∃ tree d,
      parse { text := "int 57".toList } Limits.standard =
        .ok { program := tree, errors := Diagnostic.inOrder [d], warnings := [] } ∧
      d.category = .syntactic ∧ d.line = 1 ∧ d.start = 4 := ⟨_, _, rfl, rfl, rfl, rfl⟩
  have hd : d ∈ Diagnostic.inOrder [d] :=
    (Diagnostic.perm_inOrder _).mem_iff.2 List.mem_cons_self
  have hmem : { kind := .int, text := "57", line := 1, col := 4 } ∈
      tokens { text := "int 57".toList } := by decide
  obtain ⟨t, -, -, -, hunique, hunder⟩ := syntactic_underlines_iff hparse hd hcategory
  obtain rfl := hunique _ hmem hline hstart
  exact ⟨_, d, _, hparse, hd, hcategory, hmem, rfl, (hunder (by decide) (by decide)).1.2 (by decide)⟩

/-- **A string that stands where a name was expected is not underlined**: of its four characters, two
are. -/
theorem not_underlines_string :
    ∃ parsed d t, parse { text := "int \x22ab\x22".toList } Limits.standard = .ok parsed ∧
      d ∈ parsed.errors ∧ d.category = .syntactic ∧
      t ∈ tokens { text := "int \x22ab\x22".toList } ∧ d.line = t.line ∧ d.start = t.col ∧
      t.kind ≠ .eof ∧ '\n' ∉ t.written ∧ t.written.length = 4 ∧ d.stop - d.start = 2 ∧
      ¬ d.Underlines { text := "int \x22ab\x22".toList } t := by
  let f : Finding :=
    { violation := .expected "a variable name" { kind := .string, text := "ab", line := 1, col := 4 }
      token := { kind := .string, text := "ab", line := 1, col := 4 } }
  obtain ⟨tree, hparse⟩ : ∃ tree,
      parse { text := "int \x22ab\x22".toList } Limits.standard =
        .ok { program := tree
              errors := Diagnostic.inOrder [f.diagnostic { text := "int \x22ab\x22".toList }]
              warnings := [] } := ⟨_, rfl⟩
  refine ⟨_, f.diagnostic _, f.token, hparse, ?_, rfl, by decide, rfl, rfl, by decide, by decide,
    by decide, by decide, Finding.not_underlines_of_string rfl⟩
  exact (Diagnostic.perm_inOrder _).mem_iff.2 List.mem_cons_self

end Source

end LimLang
