import LimLang.Proofs.LexemeShapes
import LimLang.Proofs.ParsedTrees
import LimLang.Proofs.StatementCuts

/-! # Parsed programs can be parsed again

Every tree the parser builds is well-formed over the vocabulary of the language, whatever the text is and
however much of it is malformed.  That is a matter of the tokens alone (`Source.fits_of_parse`): a name
among them is a word that is not reserved, a string has no quote in it, and symbols and keywords are
spelled in one way only (`Token.Spelled`).

Rendering a well-formed program and parsing the text leads back to it, so this holds of everything that
was ever parsed.
-/
namespace LimLang

/-! ## How tokens are spelled -/

/-- **A token's text is what its kind asks for.** -/
structure Token.Spelled (t : Token) : Prop where
  name : t.kind = .ident → Vocabulary.IsName t.text
  string : t.kind = .string → '\x22' ∉ t.text.toList
  fixed : t.kind.isFixed → t.text = t.kind.spelling

namespace Lexeme

/-- What a lexeme stands for is spelled as its kind asks. -/
theorem Shaped.spelled {l : Lexeme} {after : List Char} (h : l.Shaped after) {p : Pos} {t : Token}
    (ht : tokenAt? (p, l) = some t) : t.Spelled := by
  obtain ⟨kind, text, htoken, rfl⟩ := tokenAt?_eq_some ht
  cases l with
  | blank c => cases htoken
  | lineComment body => cases htoken
  | blockComment body => cases htoken
  | openComment body => cases htoken
  | symbol kind' text' =>
    obtain ⟨rfl, rfl⟩ := Prod.mk.inj (Option.some.inj htoken)
    obtain ⟨hfixed, rfl⟩ := h
    refine ⟨?_, ?_, fun _ => String.ofList_toList⟩
    · rintro rfl
      cases hfixed
    · rintro rfl
      cases hfixed
  | string body =>
    obtain ⟨rfl, rfl⟩ := Prod.mk.inj (Option.some.inj htoken)
    refine ⟨by rintro ⟨⟩, fun _ => ?_, by rintro ⟨⟩⟩
    rw [String.toList_ofList]
    exact h
  | word word =>
    obtain ⟨rfl, rfl⟩ := Prod.mk.inj (Option.some.inj htoken)
    obtain ⟨c, cs, rfl, hc, hcs⟩ := h
    exact ⟨fun hk => ⟨c, cs, rfl, hc, hcs, hk⟩, fun hk => absurd hk (Kind.ofWord_ne_string _),
      fun hk => (Kind.spelling_ofWord hk).symm⟩
  | _ =>
    obtain ⟨rfl, rfl⟩ := Prod.mk.inj (Option.some.inj htoken)
    exact ⟨by rintro ⟨⟩, by rintro ⟨⟩, by rintro ⟨⟩⟩

end Lexeme

theorem Source.spelled_of_mem_tokens {source : Source} {t : Token} (h : t ∈ source.tokens) :
    t.Spelled := by
  rcases List.mem_append.1 h with h | h
  · obtain ⟨⟨p, l⟩, hl, ht⟩ := List.mem_filterMap.1 h
    obtain ⟨after, hshaped⟩ := Lexeme.exists_shaped_of_mem_cut (Lexeme.mem_of_mem_place hl)
    exact hshaped.spelled ht
  · rw [List.mem_singleton.1 h]
    exact ⟨by rintro ⟨⟩, by rintro ⟨⟩, by rintro ⟨⟩⟩

/-! ## The vocabulary of the language -/

namespace Token.Spelled

variable {t : Token} (h : t.Spelled)
include h

theorem type (hk : t.kind.isType) : ∃ basic : BasicType, t.text = basic.spelling := by
  have htext := h.fixed (by revert hk; cases t.kind <;> decide)
  rw [htext]
  revert hk
  cases t.kind <;> intro hk <;> try cases hk
  · exact ⟨.int, rfl⟩
  · exact ⟨.bool, rfl⟩
  · exact ⟨.string, rfl⟩

theorem leading (hk : t.kind.isPrefix) : Vocabulary.standard.leading t.text := by
  rw [h.fixed (by revert hk; cases t.kind <;> decide)]
  show t.kind.spelling ∈ _
  revert hk
  cases t.kind <;> decide

theorem between (hlow : Precedence.lowest < t.kind.precedence)
    (hhigh : t.kind.precedence ≤ Precedence.product) : Vocabulary.standard.between t.text := by
  rw [h.fixed (by revert hlow; cases t.kind <;> decide)]
  show t.kind.spelling ∈ _
  revert hlow hhigh
  cases t.kind <;> decide

end Token.Spelled

theorem isTypeName_of_isTypeText {type : String} (h : IsTypeText Token.Spelled type) :
    Vocabulary.IsTypeName type := by
  obtain ⟨t, ht, hk, htype⟩ := h
  obtain ⟨basic, hbasic⟩ := ht.type hk
  rw [hbasic] at htype
  exact ⟨basic, htype⟩

/-- **The vocabulary of the language has everything that tokens say.** -/
theorem Vocabulary.standard_has : standard.Has Token.Spelled where
  varName t ht hk := ⟨ht.name hk, rfl⟩
  parameter t type ht hk htype := ⟨ht.name hk, type, rfl, isTypeName_of_isTypeText htype⟩
  functionName t ht hk := ht.name hk
  result result h type htype := isTypeName_of_isTypeText (h type htype)
  int t _ _ hbound := ⟨Int.natCast_nonneg _, Int.ofNat_lt.2 hbound⟩
  zero := ⟨Int.le_refl 0, by decide⟩
  string t ht hk := ht.string hk
  empty := by rintro ⟨⟩
  leading t ht hk := ht.leading hk
  between t ht hlow hhigh := ht.between hlow hhigh
  element t ht hk := ht.type hk
  inferred type := ⟨type, rfl⟩

namespace Source

variable {source : Source} {limits : Limits}

/-! ## Parsing, rendering and parsing -/

theorem length_text_le_of_mem_words {t : Token} (h : t ∈ source.words) :
    t.text.length ≤ source.text.length := by
  obtain ⟨⟨p, l⟩, hl, ht⟩ := List.mem_filterMap.1 h
  have hcut := Lexeme.mem_of_mem_place hl
  obtain ⟨after, hshaped⟩ := Lexeme.exists_shaped_of_mem_cut hcut
  have hpart : l.text.Sublist source.text := by
    rw [← Lexeme.flatMap_text_cut source.text, List.flatMap_def]
    exact List.sublist_flatten_of_mem (List.mem_map_of_mem hcut)
  calc t.text.length ≤ t.written.length := t.length_text_le_written
    _ = l.text.length := by rw [hshaped.written_eq ht]
    _ ≤ source.text.length := hpart.length_le

/-- Within limits that its tokens do not exceed, a text is parsed. -/
theorem exists_parse_of_readable (hreadable : Readable limits.digits source.words)
    (hshort : source.words.length + 2 < limits.nesting) :
    ∃ parsed, source.parse limits = .ok parsed := by
  have hwords : ∀ t ∈ source.words, t.kind ≠ .eof := fun t ht => (kind_of_mem_words ht).1
  have houtcome := Parse.program_reads limits (ready_initial source) (Parse.groups_initial _ _)
  obtain ⟨tree, t, hrun, -⟩ := (houtcome.mono (fun _ _ h => h) fun crash _ =>
    Parse.not_crashes rfl hwords hreadable hshort crash).exists_ok
  unfold parse
  rw [hrun]
  exact ⟨_, rfl⟩

/-- Within limits that its length does not exceed, a text is parsed. -/
theorem exists_parse (hnesting : source.text.length + 2 < limits.nesting)
    (hdigits : source.text.length ≤ limits.digits) : ∃ parsed, source.parse limits = .ok parsed := by
  have hshort := length_words_le source
  refine exists_parse_of_readable (fun t ht _ => ?_) (by omega)
  exact (length_text_le_of_mem_words ht).trans hdigits

/-- **Every tree the parser builds is well-formed.**  Any text at all is parsed, within limits on nesting
and numerals that are wide enough for it; and whatever was found wrong with the text, the program that
is left of it fits the vocabulary of the language.  So its rendering is parsed without anything wrong or
suspicious, to the same program. -/
theorem parse_builds_wellFormed (source : Source) :
    (∀ limits : Limits, source.text.length + 2 < limits.nesting →
      source.text.length ≤ limits.digits → ∃ parsed, source.parse limits = .ok parsed) ∧
    ∀ (limits : Limits) (parsed : Parsed), source.parse limits = .ok parsed →
      parsed.program.Fits Vocabulary.standard .program ∧
      ∀ (again : Source) (limits : Limits), again.text = parsed.program.render.toList →
        again.text.length < limits.nesting → 19 ≤ limits.digits →
        ∃ program, again.parse limits = .ok { program, errors := [], warnings := [] } ∧
          program.same parsed.program ∧ program.render = parsed.program.render := by
  refine ⟨fun limits => exists_parse, fun limits parsed hparse => ?_⟩
  have hfits : parsed.program.Fits Vocabulary.standard .program :=
    fits_of_parse Vocabulary.standard_has (fun t ht => spelled_of_mem_tokens ht) hparse
  refine ⟨hfits, fun again limits htext hnesting hdigits => ?_⟩
  have hshort : again.words.length < limits.nesting := (length_words_le again).trans_lt hnesting
  obtain ⟨nodes, ⟨hsame, hrender⟩, hrun⟩ := program_of_render hfits htext hdigits hshort
  obtain ⟨herrors, hwarnings⟩ := faultless_of_render hfits htext
  exact ⟨.program nodes, parse_faultless herrors hwarnings hrun rfl, hsame, hrender⟩

/-- Of two lines the first is malformed.  What is left is rendered and parsed again. -/
theorem parse_builds_wellFormed_malformed : ∃ parsed program,
    Source.parse { text := "int = 1\nx := [-1]".toList } Limits.standard = .ok parsed ∧
      parsed.errors.length = 1 ∧ parsed.program.Fits Vocabulary.standard .program ∧
      parsed.program.render = "int []x = [(-1)]" ∧
      Source.parse { text := "int []x = [(-1)]".toList } Limits.standard =
        .ok { program, errors := [], warnings := [] } ∧
      program.same parsed.program := by
  let source : Source := { text := "int = 1\nx := [-1]".toList }
  obtain ⟨hexists, hwell⟩ := parse_builds_wellFormed source
  obtain ⟨parsed, hparse⟩ := hexists Limits.standard (by decide) (by decide)
  have heval : (source.parse Limits.standard).toOption.map
      (fun parsed => (parsed.program.render, parsed.errors.length)) = some ("int []x = [(-1)]", 1) := by
    decide +kernel
  rw [hparse] at heval
  obtain ⟨hrender, herrors⟩ := Prod.mk.inj (Option.some.inj heval)
  obtain ⟨hfits, hagain⟩ := hwell Limits.standard parsed hparse
  obtain ⟨program, hreparse, hsame, -⟩ := hagain { text := "int []x = [(-1)]".toList }
    Limits.standard (by rw [hrender]) (by decide) (by decide)
  exact ⟨parsed, program, hparse, herrors, hfits, hrender, hreparse, hsame⟩

end Source

end LimLang
