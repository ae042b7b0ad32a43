import LimLang.Token

/-! # Lexemes

A text is cut, from left to right and without remainder, into *lexemes*: the tokens together with
everything that stands between them.  A lexeme knows the exact text it covers (`Lexeme.text`), so
that the lexemes of a text, written one after another, are the text again; where each of them stands
follows from what stands before it.

`Lexeme.next` cuts off the first lexeme of a text.  Blanks are cut off one by one; comments, words,
numbers and strings extend as far as they can; of the symbols, those of two characters are tried
before those of one.  Nothing is refused: text that fits nowhere becomes a lexeme of its own, to be
reported later.
-/
namespace LimLang

/-- **One piece of a text.** -/
inductive Lexeme where
  /-- A space, a tab or a carriage return. -/
  | blank (c : Char)
  /-- A comment up to the end of its line, without the two slashes. -/
  | lineComment (body : List Char)
  /-- A comment between its delimiters. -/
  | blockComment (body : List Char)
  /-- A comment that is never closed; it reaches to the end of the text. -/
  | openComment (body : List Char)
  | newline
  /-- An operator or delimiter, covering its spelling. -/
  | symbol (kind : Kind) (text : List Char)
  /-- A string, without its quotes. -/
  | string (body : List Char)
  /-- A string that is never closed; it reaches to the end of the text. -/
  | openString (body : List Char)
  /-- An identifier or keyword. -/
  | word (text : List Char)
  /-- A run of digits. -/
  | number (text : List Char)
  /-- A run of digits that runs into a letter, with the rest of the word. -/
  | numberedWord (text : List Char)
  /-- A character that starts nothing. -/
  | stray (c : Char)
  deriving DecidableEq, Repr

namespace Lexeme

/-- The characters that may stand between tokens of one line. -/
def isGap (c : Char) : Bool :=
  c == ' ' || c == '\t' || c == '\r'

/-- A letter or an underscore. -/
def isLetter (c : Char) : Bool :=
  ('a' ≤ c && c ≤ 'z') || ('A' ≤ c && c ≤ 'Z') || c == '_'

/-- A decimal digit. -/
def isDigit (c : Char) : Bool :=
  '0' ≤ c && c ≤ '9'

/-- A character that continues a word. -/
def isWordChar (c : Char) : Bool :=
  isLetter c || isDigit c

/-- Symbols of one character. -/
def single? : Char → Option Kind
  | '=' => some .assign
  | '+' => some .plus
  | '-' => some .minus
  | '!' => some .bang
  | '*' => some .asterisk
  | '/' => some .slash
  | '%' => some .modulus
  | '&' => some .bitAnd
  | '|' => some .bitOr
  | '<' => some .lt
  | '>' => some .gt
  | ',' => some .comma
  | ';' => some .semicolon
  | ':' => some .colon
  | '.' => some .period
  | '(' => some .lparen
  | ')' => some .rparen
  | '\x7b' => some .lbrace
  | '\x7d' => some .rbrace
  | '[' => some .lbrack
  | ']' => some .rbrack
  | _ => none

/-- Symbols of two characters. -/
def double? : Char → Char → Option Kind
  | '=', '=' => some .eq
  | '!', '=' => some .notEq
  | '<', '=' => some .ltEq
  | '>', '=' => some .gtEq
  | '+', '=' => some .addAssign
  | '-', '=' => some .subAssign
  | '*', '=' => some .mulAssign
  | '/', '=' => some .quoAssign
  | '%', '=' => some .remAssign
  | '&', '&' => some .and
  | '|', '|' => some .or
  | '-', '>' => some .arrow
  | ':', '=' => some .define
  | _, _ => none

/-- Splits the text after the start of a block comment at the first end of a comment: what stands
before it and what stands after. -/
def closeComment? : List Char → Option (List Char × List Char)
  | [] => none
  | '*' :: '/' :: rest => some ([], rest)
  | c :: rest => (closeComment? rest).map fun (body, after) => (c :: body, after)

/-- The comment that starts with a slash and the characters `rest`, if one does. -/
def comment? : List Char → Option (Lexeme × List Char)
  | '/' :: rest =>
      some (.lineComment (rest.takeWhile (· != '\n')), rest.dropWhile (· != '\n'))
  | '*' :: rest =>
      match closeComment? rest with
      | some (body, after) => some (.blockComment body, after)
      | none => some (.openComment rest, [])
  | _ => none

/-- The symbol that starts with `c` and goes on with `rest`, if one does. -/
def symbol? (c : Char) (rest : List Char) : Option (Lexeme × List Char) :=
  match rest with
  | d :: after =>
      match double? c d with
      | some kind => some (.symbol kind [c, d], after)
      | none => (single? c).map fun kind => (.symbol kind [c], rest)
  | [] => (single? c).map fun kind => (.symbol kind [c], rest)

/-- The string whose opening quote stands before `rest`. -/
def stringFrom (rest : List Char) : Lexeme × List Char :=
  match rest.dropWhile (· != '\x22') with
  | [] => (.openString rest, [])
  | _ :: after => (.string (rest.takeWhile (· != '\x22')), after)

/-- The word that starts with `c`. -/
def wordFrom (c : Char) (rest : List Char) : Lexeme × List Char :=
  (.word (c :: rest.takeWhile isWordChar), rest.dropWhile isWordChar)

/-- The number, or the word led by a number, that starts with the digit `c`. -/
def numberFrom (c : Char) (rest : List Char) : Lexeme × List Char :=
  let after := rest.dropWhile isDigit
  if after.head?.any isLetter then
    (.numberedWord (c :: rest.takeWhile isWordChar), rest.dropWhile isWordChar)
  else (.number (c :: rest.takeWhile isDigit), after)

/-- **The first lexeme** of the text that starts with `c` and goes on with `rest`, and the text after
it. -/
def next (c : Char) (rest : List Char) : Lexeme × List Char :=
  if isGap c then (.blank c, rest)
  else if c = '\n' then (.newline, rest)
  else
    match if c = '/' then comment? rest else none with
    | some found => found
    | none =>
        match symbol? c rest with
        | some found => found
        | none =>
            if c = '\x22' then stringFrom rest
            else if isLetter c then wordFrom c rest
            else if isDigit c then numberFrom c rest
            else (.stray c, rest)

/-- The first `bound` lexemes of a text. -/
def cutWithin : Nat → List Char → List Lexeme
  | 0, _ => []
  | _, [] => []
  | bound + 1, c :: rest => (next c rest).1 :: cutWithin bound (next c rest).2

/-- **The lexemes of a text.**  There are at most as many as it has characters. -/
def cut (cs : List Char) : List Lexeme :=
  cutWithin cs.length cs

/-- The text that a lexeme covers. -/
def text : Lexeme → List Char
  | blank c => [c]
  | lineComment body => '/' :: '/' :: body
  | blockComment body => '/' :: '*' :: body ++ ['*', '/']
  | openComment body => '/' :: '*' :: body
  | newline => ['\n']
  | symbol _ text => text
  | string body => '\x22' :: body ++ ['\x22']
  | openString body => '\x22' :: body
  | word text => text
  | number text => text
  | numberedWord text => text
  | stray c => [c]

/-- The kind and text of the token a lexeme stands for; blanks and comments stand for none. -/
def token? : Lexeme → Option (Kind × List Char)
  | blank _ => none
  | lineComment _ => none
  | blockComment _ => none
  | openComment _ => none
  | newline => some (.endOfLine, ['\n'])
  | symbol kind text => some (kind, text)
  | string body => some (.string, body)
  | openString body => some (.illegal, '\x22' :: body)
  | word text => some (Kind.ofWord (String.ofList text), text)
  | number text => some (.int, text)
  | numberedWord text => some (.illegal, text)
  | stray c => some (.illegal, [c])

/-! ## The lexemes of a text make up the text -/

theorem closeComment?_eq_some {cs body after : List Char}
    (h : closeComment? cs = some (body, after)) : body ++ '*' :: '/' :: after = cs := by
  fun_induction closeComment? cs generalizing body with
  | case1 => simp at h
  | case2 rest => simp_all
  | case3 c rest _ ih =>
    obtain ⟨⟨b, a⟩, hb, he⟩ := Option.map_eq_some_iff.1 h
    simp only [Prod.mk.injEq] at he
    obtain ⟨rfl, rfl⟩ := he
    simp [ih hb]

theorem text_comment? {rest after : List Char} {l : Lexeme} (h : comment? rest = some (l, after)) :
    ∃ body, l.text = '/' :: body ∧ body ++ after = rest := by
  unfold comment? at h
  split at h
  · simp only [Option.some.injEq, Prod.mk.injEq] at h
    obtain ⟨rfl, rfl⟩ := h
    exact ⟨_, rfl, by simp⟩
  · split at h
    · next hc =>
      simp only [Option.some.injEq, Prod.mk.injEq] at h
      obtain ⟨rfl, rfl⟩ := h
      exact ⟨_, rfl, by simp [← closeComment?_eq_some hc]⟩
    · simp only [Option.some.injEq, Prod.mk.injEq] at h
      obtain ⟨rfl, rfl⟩ := h
      exact ⟨_, rfl, by simp⟩
  · simp at h

theorem text_symbol? {c : Char} {rest after : List Char} {l : Lexeme}
    (h : symbol? c rest = some (l, after)) : ∃ body, l.text = c :: body ∧ body ++ after = rest := by
  unfold symbol? at h
  split at h
  · split at h
    · simp only [Option.some.injEq, Prod.mk.injEq] at h
      obtain ⟨rfl, rfl⟩ := h
      exact ⟨_, rfl, by simp⟩
    · obtain ⟨kind, _, he⟩ := Option.map_eq_some_iff.1 h
      simp only [Prod.mk.injEq] at he
      obtain ⟨rfl, rfl⟩ := he
      exact ⟨_, rfl, by simp⟩
  · obtain ⟨kind, _, he⟩ := Option.map_eq_some_iff.1 h
    simp only [Prod.mk.injEq] at he
    obtain ⟨rfl, rfl⟩ := he
    exact ⟨_, rfl, by simp⟩

theorem text_stringFrom (rest : List Char) :
    ∃ body, (stringFrom rest).1.text = '\x22' :: body ∧ body ++ (stringFrom rest).2 = rest := by
  unfold stringFrom
  split
  · exact ⟨_, rfl, by simp⟩
  · next quote after hd =>
    have hq : quote = '\x22' := by
      have := List.head?_dropWhile_not (· != '\x22') rest
      rw [hd] at this
      simpa using this
    have := List.takeWhile_append_dropWhile (p := (· != '\x22')) (l := rest)
    rw [hd, hq] at this
    exact ⟨_, rfl, by simp [this]⟩

theorem text_wordFrom (c : Char) (rest : List Char) :
    ∃ body, (wordFrom c rest).1.text = c :: body ∧ body ++ (wordFrom c rest).2 = rest := by
  exact ⟨_, rfl, by simp [wordFrom]⟩

theorem text_numberFrom (c : Char) (rest : List Char) :
    ∃ body, (numberFrom c rest).1.text = c :: body ∧ body ++ (numberFrom c rest).2 = rest := by
  unfold numberFrom
  dsimp only
  split <;> exact ⟨_, rfl, by simp⟩

/-- The first lexeme covers the first character at least, and what it does not cover is the text after
it. -/
theorem text_next_eq_cons (c : Char) (rest : List Char) :
    ∃ body, (next c rest).1.text = c :: body ∧ body ++ (next c rest).2 = rest := by
  unfold next
  split
  · exact ⟨_, rfl, by simp⟩
  split
  · next h => exact ⟨[], by rw [h]; rfl, rfl⟩
  split
  · next found h =>
    split at h
    · next hc => rw [hc]; exact text_comment? h
    · simp at h
  split
  · next found h => exact text_symbol? h
  split
  · next h => rw [h]; exact text_stringFrom rest
  split
  · exact text_wordFrom c rest
  split
  · exact text_numberFrom c rest
  · exact ⟨_, rfl, by simp⟩

/-- The first lexeme and the text after it make up the text. -/
theorem text_next (c : Char) (rest : List Char) :
    (next c rest).1.text ++ (next c rest).2 = c :: rest := by
  obtain ⟨body, ht, hr⟩ := text_next_eq_cons c rest
  rw [ht, List.cons_append, hr]

/-- Cutting off a lexeme makes the text shorter. -/
theorem length_next_le (c : Char) (rest : List Char) :
    (next c rest).2.length ≤ rest.length := by
  obtain ⟨body, _, hr⟩ := text_next_eq_cons c rest
  have all := congrArg List.length hr
  rw [List.length_append] at all
  omega

theorem flatMap_text_cutWithin {bound : Nat} {cs : List Char} (h : cs.length ≤ bound) :
    (cutWithin bound cs).flatMap text = cs := by
  fun_induction cutWithin bound cs with
  | case1 cs => simp_all
  | case2 => rfl
  | case3 bound c rest ih =>
    have shorter := length_next_le c rest
    rw [List.flatMap_cons, ih (by simp at h; omega), text_next]

/-- **The lexemes of a text make up the text.** -/
theorem flatMap_text_cut (cs : List Char) : (cut cs).flatMap text = cs :=
  flatMap_text_cutWithin (Nat.le_refl _)

end Lexeme

end LimLang
