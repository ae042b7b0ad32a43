import LimLang.Proofs.Relexing

/-! # The shapes of lexemes

What can be told of a lexeme from its constructor, given the text behind it (`Lexeme.Shaped`).  This is
said once of the first lexeme of a text (`Lexeme.shaped_next`), and everything else that depends on how
lexemes are cut is derived from it: what tokens are spelled like, and what stands between them.
-/
namespace LimLang

/-- A kind with one spelling: a symbol or a keyword. -/
def Kind.isFixed : Kind → Bool
  | .illegal | .eof | .endOfLine | .ident | .int | .float | .bool | .string => false
  | _ => true

/-- A word is spelled like its keyword, if it is one. -/
theorem Kind.ofWord_cases (word : String) :
    ofWord word = .ident ∨ (ofWord word).isFixed ∧ (ofWord word).spelling = word := by
  unfold ofWord
  cases hfind : keywords.find? fun kind => kind.spelling == word with
  | none => exact .inl rfl
  | some kind =>
    refine .inr ⟨?_, by simpa using List.find?_some hfind⟩
    have hmem := List.mem_of_find?_eq_some hfind
    revert hmem
    rw [Option.getD_some]
    cases kind <;> decide

theorem Kind.ofWord_ne_string (word : String) : ofWord word ≠ .string := by
  intro h
  rcases ofWord_cases word with hident | ⟨hfixed, -⟩
  · rw [hident] at h
    cases h
  · rw [h] at hfixed
    cases hfixed

theorem Kind.spelling_ofWord {word : String} (h : (ofWord word).isFixed) :
    (ofWord word).spelling = word := by
  rcases ofWord_cases word with hident | ⟨-, hspelling⟩
  · rw [hident] at h
    cases h
  · exact hspelling

namespace Lexeme

/-- The end of a block comment. -/
def closing : List Char := ['*', '/']

/-- **What a lexeme is like** in front of the text `after`. -/
def Shaped : Lexeme → List Char → Prop
  | blank c, _ => isGap c
  | lineComment body, after => '\n' ∉ body ∧ ∀ c ∈ after.head?, c = '\n'
  | blockComment body, _ => ¬ closing <:+: body
  | openComment body, after => ¬ closing <:+: body ∧ after = []
  | symbol kind text, _ => kind.isFixed ∧ kind.spelling.toList = text
  | string body, _ => '\x22' ∉ body
  | word text, _ => ∃ c cs, text = c :: cs ∧ isLetter c ∧ cs.all isWordChar
  | _, _ => True

/-! ## The first lexeme -/

/-- A comment is closed where it can be for the first time. -/
theorem not_closing_of_closeComment? {cs : List Char} :
    (∀ found ∈ closeComment? cs, ¬ closing <:+: found.1) ∧
      (closeComment? cs = none → ¬ closing <:+: cs) := by
  have hnil : ¬ closing <:+: [] := by decide
  -- In front of what holds no end of a comment, only the first two characters could be one.
  have hcons : ∀ {c : Char} {body : List Char}, ¬ closing <:+: body →
      (c = '*' → body.head? ≠ some '/') → ¬ closing <:+: c :: body := by
    intro c body hbody hstart h
    rcases List.infix_cons_iff.1 h with ⟨rest, hrest⟩ | h
    · obtain ⟨rfl, rfl⟩ := List.cons.inj hrest
      exact hstart rfl rfl
    · exact hbody h
  fun_induction closeComment? cs with
  | case1 => exact ⟨by simp, fun _ => hnil⟩
  | case2 rest => exact ⟨by simpa using hnil, by simp⟩
  | case3 c rest hne ih =>
    have hstart : ∀ body, body <+: rest → c = '*' → body.head? ≠ some '/' := by
      rintro body ⟨after, rfl⟩ rfl hhead
      cases body with
      | nil => cases hhead
      | cons d body =>
        obtain rfl := Option.some.inj hhead
        exact hne (body ++ after) rfl rfl
    refine ⟨?_, fun hnone => ?_⟩
    · intro found hfound
      obtain ⟨⟨body, after⟩, hrest, rfl⟩ := Option.map_eq_some_iff.1 hfound
      refine hcons (ih.1 _ hrest) (hstart body ⟨'*' :: '/' :: after, ?_⟩)
      exact closeComment?_eq_some hrest
    · rw [Option.map_eq_none_iff] at hnone
      exact hcons (ih.2 hnone) (hstart rest (List.prefix_refl rest))

/-- A comment ends at the first end of a comment behind its start. -/
theorem closeComment?_of_not_closing {body : List Char} (h : ¬ closing <:+: body) (rest : List Char) :
    closeComment? (body ++ '*' :: '/' :: rest) = some (body, rest) := by
  induction body with
  | nil => rfl
  | cons c body ih =>
    have hbody := ih fun hin => h (hin.trans (List.infix_cons List.infix_rfl))
    -- The comment does not end with its first character, not even if the body is a single star.
    have hopen : ∀ after, c = '*' → body ++ '*' :: '/' :: rest = '/' :: after → False := by
      rintro after rfl hafter
      cases body with
      | nil => cases hafter
      | cons d body =>
        obtain ⟨rfl, -⟩ := List.cons.inj hafter
        exact h ⟨[], body, rfl⟩
    rw [List.cons_append, closeComment?.eq_3 _ _ hopen, hbody]
    rfl

theorem comment?_shaped {rest : List Char} {found : Lexeme × List Char}
    (h : comment? rest = some found) : found.1.Shaped found.2 := by
  unfold comment? at h
  split at h
  · next rest =>
    obtain rfl := Option.some.inj h
    refine ⟨fun hmem => by simpa using List.mem_takeWhile_imp hmem, fun c hc => ?_⟩
    have hnot := List.head?_dropWhile_not (· != '\n') rest
    rw [Option.mem_def.1 hc] at hnot
    simpa using hnot
  · split at h
    · next hclose =>
      obtain rfl := Option.some.inj h
      exact not_closing_of_closeComment?.1 _ hclose
    · next hclose =>
      obtain rfl := Option.some.inj h
      exact ⟨not_closing_of_closeComment?.2 hclose, rfl⟩
  · cases h

theorem symbol?_shaped {c : Char} {rest : List Char} {found : Lexeme × List Char}
    (h : symbol? c rest = some found) : found.1.Shaped found.2 := by
  have hdouble : ∀ d kind, double? c d = some kind →
      kind.isFixed ∧ kind.spelling.toList = [c, d] := by
    intro d kind hd
    unfold double? at hd
    split at hd <;> cases hd <;> decide
  have hsingle : ∀ kind, single? c = some kind → kind.isFixed ∧ kind.spelling.toList = [c] := by
    intro kind hs
    unfold single? at hs
    split at hs <;> cases hs <;> decide
  unfold symbol? at h
  split at h
  · split at h
    · next kind hd =>
      obtain rfl := Option.some.inj h
      exact hdouble _ _ hd
    · obtain ⟨kind, hs, rfl⟩ := Option.map_eq_some_iff.1 h
      exact hsingle _ hs
  · obtain ⟨kind, hs, rfl⟩ := Option.map_eq_some_iff.1 h
    exact hsingle _ hs

theorem stringFrom_shaped (rest : List Char) : (stringFrom rest).1.Shaped (stringFrom rest).2 := by
  unfold stringFrom
  split
  · trivial
  · intro hmem
    simpa using List.mem_takeWhile_imp hmem

/-- **The shape of the first lexeme of a text.** -/
theorem shaped_next (c : Char) (rest : List Char) : (next c rest).1.Shaped (next c rest).2 := by
  unfold next
  split
  · assumption
  split
  · trivial
  split
  · next found h =>
    split at h
    · exact comment?_shaped h
    · cases h
  split
  · next found h => exact symbol?_shaped h
  split
  · exact stringFrom_shaped rest
  split
  · next hc => exact ⟨c, _, rfl, hc, List.all_takeWhile⟩
  split
  · unfold numberFrom
    dsimp only
    split <;> trivial
  · trivial

theorem exists_shaped_of_mem_cut {cs : List Char} {l : Lexeme} (h : l ∈ cut cs) :
    ∃ after, l.Shaped after := by
  obtain ⟨c, rest, rfl⟩ := exists_next_of_mem_cut h
  exact ⟨_, shaped_next c rest⟩

theorem tokenAt?_eq_some {p : Pos} {l : Lexeme} {t : Token} (h : tokenAt? (p, l) = some t) :
    ∃ kind text, l.token? = some (kind, text) ∧
      t = { kind, text := String.ofList text, line := p.line, col := p.col } := by
  obtain ⟨⟨kind, text⟩, htoken, rfl⟩ := Option.map_eq_some_iff.1 h
  exact ⟨kind, text, htoken, rfl⟩

end Lexeme

/-! ## How tokens are written -/

/-- What stands in the text for a token: strings have quotes around them. -/
def Token.written (t : Token) : List Char :=
  if t.kind = .string then '\x22' :: t.text.toList ++ ['\x22'] else t.text.toList

theorem Token.length_text_le_written (t : Token) : t.text.length ≤ t.written.length := by
  rw [← String.length_toList]
  unfold written
  split
  · rw [List.length_append, List.length_cons]
    omega
  · exact Nat.le_refl _

/-- **A lexeme covers what is written for its token.** -/
theorem Lexeme.Shaped.written_eq {l : Lexeme} {after : List Char} (h : l.Shaped after) {p : Pos}
    {t : Token} (ht : tokenAt? (p, l) = some t) : t.written = l.text := by
  obtain ⟨kind, text, htoken, rfl⟩ := tokenAt?_eq_some ht
  have hplain : kind ≠ .string → Token.written
      { kind, text := String.ofList text, line := p.line, col := p.col } = text := by
    intro hk
    rw [Token.written, if_neg hk, String.toList_ofList]
  cases l with
  | blank c => cases htoken
  | lineComment body => cases htoken
  | blockComment body => cases htoken
  | openComment body => cases htoken
  | symbol kind' text' =>
    obtain ⟨rfl, rfl⟩ := Prod.mk.inj (Option.some.inj htoken)
    refine hplain ?_
    rintro rfl
    cases h.1
  | string body =>
    obtain ⟨rfl, rfl⟩ := Prod.mk.inj (Option.some.inj htoken)
    rw [Token.written, if_pos rfl, String.toList_ofList]
    rfl
  | word word =>
    obtain ⟨rfl, rfl⟩ := Prod.mk.inj (Option.some.inj htoken)
    exact hplain (Kind.ofWord_ne_string _)
  | _ =>
    obtain ⟨rfl, rfl⟩ := Prod.mk.inj (Option.some.inj htoken)
    exact hplain (by decide)

end LimLang
