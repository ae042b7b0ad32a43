import Mathlib.Data.List.TakeWhile
import LimLang.Proofs.Grammar
import LimLang.Proofs.WellFormed
import LimLang.Scan

/-! # Text that is cut into the tokens it was written for

Text is written piece by piece: a word, a numeral, a symbol, a blank.  Where it is cut again depends on
what follows a piece.  A word or a numeral ends where no letter, digit or underscore follows; a symbol
stands for itself unless what follows makes a longer symbol or a comment of it.

`Rereads follows cs P` says that the text `cs`, before the end of the text or a character that `follows`
accepts, is cut for itself, into lexemes nothing is wrong with, and that their tokens satisfy `P`,
wherever they stand.  Pieces that fit together are joined by `Rereads.seq`.
-/
namespace LimLang

namespace Lexeme

theorem cutWithin_eq {bound other : Nat} {cs : List Char} (h : cs.length ≤ bound)
    (ho : cs.length ≤ other) : cutWithin bound cs = cutWithin other cs := by
  induction bound generalizing other cs with
  | zero =>
    obtain rfl := List.eq_nil_of_length_eq_zero (Nat.le_zero.1 h)
    cases other <;> rfl
  | succ bound ih =>
    cases cs with
    | nil => cases other <;> rfl
    | cons c rest =>
      have shorter := length_next_le c rest
      rw [List.length_cons] at h ho
      obtain ⟨other, rfl⟩ : ∃ n, other = n + 1 := ⟨other - 1, by omega⟩
      rw [cutWithin, cutWithin]
      exact congrArg _ (ih (by omega) (by omega))

@[simp] theorem cut_nil : cut [] = [] := rfl

/-- A text is cut from the front. -/
theorem cut_cons (c : Char) (rest : List Char) :
    cut (c :: rest) = (next c rest).1 :: cut (next c rest).2 := by
  rw [cut, List.length_cons, cutWithin, cut,
    cutWithin_eq (length_next_le c rest) (Nat.le_refl _)]

/-- Every lexeme of a text was the first of what was left of it. -/
theorem exists_next_of_mem_cut {cs : List Char} {l : Lexeme} (h : l ∈ cut cs) :
    ∃ c rest, l = (next c rest).1 := by
  induction hn : cs.length using Nat.strong_induction_on generalizing cs with
  | _ n ih =>
    cases cs with
    | nil => cases h
    | cons c rest =>
      have hshort := length_next_le c rest
      rw [List.length_cons] at hn
      rw [cut_cons] at h
      rcases List.mem_cons.1 h with rfl | h
      · exact ⟨c, rest, rfl⟩
      · exact ih _ (by omega) h rfl

theorem length_cutWithin_le (bound : Nat) (cs : List Char) :
    (cutWithin bound cs).length ≤ bound := by
  fun_induction cutWithin bound cs with
  | case1 => exact Nat.le_refl _
  | case2 => exact Nat.zero_le _
  | case3 bound c rest ih => exact Nat.succ_le_succ ih

/-! ## The first lexeme -/

/-- A character that makes a longer symbol, or a comment, of a symbol in front of it. -/
def isJoiner (c : Char) : Bool :=
  c ∈ ['=', '>', '&', '|', '/', '*']

/-- A character that stands for itself after a symbol. -/
def isPlain (c : Char) : Bool :=
  !isJoiner c

/-- A character that ends a word or a numeral in front of it. -/
def endsWord (c : Char) : Bool :=
  !isWordChar c

/-- A character that ends whatever stands in front of it. -/
def endsAny (c : Char) : Bool :=
  isPlain c && endsWord c

theorem isPlain_of_isWordChar {c : Char} (h : isWordChar c) : isPlain c := by
  simp only [isPlain, isJoiner, Bool.not_eq_true', decide_eq_false_iff_not, List.mem_cons,
    List.not_mem_nil, or_false]
  rintro (rfl | rfl | rfl | rfl | rfl | rfl) <;> cases h

theorem double?_eq_none {c d : Char} (h : isPlain d) : double? c d = none := by
  unfold double?
  split <;> first | rfl | exact absurd h (by decide)

theorem single?_of_isWordChar {c : Char} (h : isWordChar c) : single? c = none := by
  unfold single?
  split <;> first | rfl | exact absurd h (by decide)

theorem double?_of_isWordChar {c d : Char} (h : isWordChar c) : double? c d = none := by
  unfold double?
  split <;> first | rfl | exact absurd h (by decide)

theorem symbol?_of_isWordChar {c : Char} (h : isWordChar c) (rest : List Char) :
    symbol? c rest = none := by
  unfold symbol?
  cases rest with
  | nil => simp [single?_of_isWordChar h]
  | cons d rest => simp [double?_of_isWordChar h, single?_of_isWordChar h]

theorem single?_isSome_of_double? {c d : Char} (h : (double? c d).isSome) : (single? c).isSome := by
  unfold double? at h
  split at h <;> first | rfl | cases h

/-- What starts with a symbol is no blank and no newline. -/
theorem ne_gap_of_single? {c : Char} (h : (single? c).isSome) : isGap c = false ∧ c ≠ '\n' := by
  have hne : ∀ d, single? d = none → c ≠ d := by
    rintro d hd rfl
    rw [hd] at h
    cases h
  exact ⟨by simp [isGap, hne ' ' rfl, hne '\t' rfl, hne '\r' rfl], hne '\n' rfl⟩

theorem next_of_symbol? {c : Char} {rest : List Char} {found : Lexeme × List Char}
    (h : (single? c).isSome) (hcomment : comment? rest = none) (hsymbol : symbol? c rest = some found) :
    next c rest = found := by
  obtain ⟨hgap, hline⟩ := ne_gap_of_single? h
  unfold next
  rw [if_neg (by simp [hgap]), if_neg hline, hcomment, hsymbol]
  simp

theorem next_symbol {c : Char} {kind : Kind} {rest : List Char} (h : single? c = some kind)
    (hr : rest.head?.all isPlain) : next c rest = (.symbol kind [c], rest) := by
  refine next_of_symbol? (by rw [h]; rfl) ?_ ?_
  · unfold comment?
    split <;> first | rfl | exact absurd hr (by simp [isPlain, isJoiner])
  · cases rest with
    | nil => simp [symbol?, h]
    | cons d rest => simp [symbol?, double?_eq_none (c := c) (show isPlain d from hr), h]

/-- A symbol of two characters stands for itself, whatever follows it. -/
theorem next_symbols {c d : Char} {kind : Kind} (rest : List Char) (h : double? c d = some kind) :
    next c (d :: rest) = (.symbol kind [c, d], rest) := by
  refine next_of_symbol? (single?_isSome_of_double? (by rw [h]; rfl)) ?_ (by simp [symbol?, h])
  -- No symbol goes on with a slash or a star.
  unfold double? at h
  split at h <;> first | rfl | cases h

theorem takeWhile_of_head {p : Char → Bool} {rest : List Char} (h : rest.head?.all fun c => !p c) :
    rest.takeWhile p = [] ∧ rest.dropWhile p = rest := by
  cases rest with
  | nil => exact ⟨rfl, rfl⟩
  | cons c rest =>
    have hc : p c = false := by simpa using h
    simp [hc]

theorem span_append {p : Char → Bool} {cs rest : List Char} (hcs : cs.all p)
    (h : rest.head?.all fun c => !p c) :
    (cs ++ rest).takeWhile p = cs ∧ (cs ++ rest).dropWhile p = rest := by
  have hall : ∀ c ∈ cs, p c := List.all_eq_true.1 hcs
  rw [List.takeWhile_append_of_pos hall, List.dropWhile_append_of_pos hall,
    (takeWhile_of_head h).1, (takeWhile_of_head h).2, List.append_nil]
  exact ⟨rfl, rfl⟩

/-- What starts a word or a numeral starts nothing else. -/
theorem next_of_isWordChar {c : Char} (h : isWordChar c) (rest : List Char) :
    next c rest = if isLetter c then wordFrom c rest else numberFrom c rest := by
  have hne : ∀ d, isWordChar d = false → c ≠ d := by
    rintro d hd rfl
    rw [hd] at h
    cases h
  have hgap : isGap c = false := by
    simp [isGap, hne ' ' rfl, hne '\t' rfl, hne '\r' rfl]
  unfold next
  rw [if_neg (by simp [hgap]), if_neg (hne '\n' rfl), if_neg (hne '/' rfl),
    symbol?_of_isWordChar h]
  by_cases hl : isLetter c
  · simp [hl, hne '\x22' rfl]
  · have hd : isDigit c := by simpa [isWordChar, hl] using h
    simp [hl, hd, hne '\x22' rfl]

theorem next_word {c : Char} {cs rest : List Char} (hc : isLetter c) (hcs : cs.all isWordChar)
    (hr : rest.head?.all endsWord) : next c (cs ++ rest) = (.word (c :: cs), rest) := by
  obtain ⟨ht, hd⟩ := span_append hcs hr
  rw [next_of_isWordChar (by simp [isWordChar, hc]), if_pos hc, wordFrom, ht, hd]

theorem next_number {c : Char} {cs rest : List Char} (hc : isDigit c) (hcs : cs.all isDigit)
    (hr : rest.head?.all endsWord) : next c (cs ++ rest) = (.number (c :: cs), rest) := by
  have hletter : isLetter c = false := by
    simp only [isDigit, Bool.and_eq_true, decide_eq_true_eq, Char.le_def, UInt32.le_iff_toNat_le] at hc
    simp only [isLetter, Bool.or_eq_false_iff, Bool.and_eq_false_iff, decide_eq_false_iff_not,
      Char.le_def, UInt32.le_iff_toNat_le, beq_eq_false_iff_ne]
    refine ⟨⟨.inl fun h => ?_, .inl fun h => ?_⟩, ?_⟩
    · exact absurd (h.trans hc.2) (by decide)
    · exact absurd (h.trans hc.2) (by decide)
    · rintro rfl
      exact absurd hc.2 (by decide)
  have hnext : (rest.head?.all fun c => !isDigit c) = true ∧ rest.head?.any isLetter = false := by
    cases rest with
    | nil => exact ⟨rfl, rfl⟩
    | cons d rest =>
      have : isLetter d = false ∧ isDigit d = false := by
        simpa [endsWord, isWordChar] using hr
      simp [this]
  obtain ⟨ht, hd⟩ := span_append hcs hnext.1
  rw [next_of_isWordChar (by simp [isWordChar, hc]), if_neg (by simp [hletter]), numberFrom, ht, hd]
  simp [hnext.2]

theorem next_string {body : List Char} (h : '\x22' ∉ body) (rest : List Char) :
    next '\x22' (body ++ '\x22' :: rest) = (.string body, rest) := by
  have hall : body.all (· != '\x22') := by
    rw [List.all_eq_true]
    intro c hc
    rw [bne_iff_ne]
    rintro rfl
    exact h hc
  have hq : ('\x22' :: rest).head?.all fun c => !(c != '\x22') := rfl
  -- A quote starts no symbol, even if the string is empty and another quote follows.
  have hsymbol : symbol? '\x22' (body ++ '\x22' :: rest) = none := by
    cases body <;> rfl
  obtain ⟨ht, hd⟩ := span_append hall hq
  unfold next
  rw [if_neg (by decide), if_neg (by decide), if_neg (by decide), hsymbol]
  simp only [if_pos, stringFrom, ht, hd]

/-! ## Tokens without places -/

/-- A lexeme nothing is wrong with, whose numeral, if it is one, is short. -/
def isClean : Lexeme → Bool
  | blank _ | newline | string _ | word _ => true
  | symbol kind _ => kind != .eof && kind != .int
  | number text => text.length ≤ 19
  | _ => false

theorem ofWord_ne (word : String) : Kind.ofWord word ≠ .eof ∧ Kind.ofWord word ≠ .int := by
  unfold Kind.ofWord
  cases hfind : Kind.keywords.find? fun kind => kind.spelling == word with
  | none => decide
  | some kind =>
    have hmem := List.mem_of_find?_eq_some hfind
    revert hmem
    simp only [Option.getD_some]
    cases kind <;> decide

theorem token?_of_isClean {l : Lexeme} {kind : Kind} {text : List Char} (h : l.isClean)
    (ht : l.token? = some (kind, text)) : kind ≠ .eof ∧ (kind = .int → text.length ≤ 19) := by
  cases l with
  | word text =>
    obtain ⟨rfl, rfl⟩ := Prod.mk.inj (Option.some.inj ht)
    exact ⟨(ofWord_ne _).1, fun hint => absurd hint (ofWord_ne _).2⟩
  | symbol kind text =>
    obtain ⟨rfl, rfl⟩ := Prod.mk.inj (Option.some.inj ht)
    obtain ⟨heof, hint⟩ := Bool.and_eq_true_iff.1 h
    exact ⟨bne_iff_ne.1 heof, fun hk => absurd hk (bne_iff_ne.1 hint)⟩
  | number text =>
    obtain ⟨rfl, rfl⟩ := Prod.mk.inj (Option.some.inj ht)
    exact ⟨by decide, fun _ => of_decide_eq_true h⟩
  | newline =>
    obtain ⟨rfl, rfl⟩ := Prod.mk.inj (Option.some.inj ht)
    exact ⟨by decide, fun hint => by cases hint⟩
  | string body =>
    obtain ⟨rfl, rfl⟩ := Prod.mk.inj (Option.some.inj ht)
    exact ⟨by decide, fun hint => by cases hint⟩
  | blank c => cases ht
  | _ => cases h

theorem mem_of_mem_place {p : Pos} {ls : List Lexeme} {placed : Pos × Lexeme}
    (h : placed ∈ place p ls) : placed.2 ∈ ls := by
  induction ls generalizing p with
  | nil => cases h
  | cons l ls ih =>
    rcases List.mem_cons.1 h with rfl | h
    · exact List.mem_cons_self
    · exact List.mem_cons_of_mem _ (ih h)

end Lexeme

theorem Source.lexicalError?_of_isClean (s : Source) {placed : Pos × Lexeme}
    (h : placed.2.isClean) : s.lexicalError? placed = none := by
  obtain ⟨p, l⟩ := placed
  cases l <;> first | rfl | cases h

theorem Source.lexicalWarning?_of_isClean (s : Source) {placed : Pos × Lexeme}
    (h : placed.2.isClean) : s.lexicalWarning? placed = none := by
  obtain ⟨p, l⟩ := placed
  cases l <;> first | rfl | cases h

/-- What a token says, wherever it stands. -/
def Token.contents (t : Token) : Kind × List Char :=
  (t.kind, t.text.toList)

theorem Lexeme.map_contents (p : Pos) (ls : List Lexeme) :
    ((Lexeme.place p ls).filterMap Lexeme.tokenAt?).map Token.contents =
      ls.filterMap Lexeme.token? := by
  induction ls generalizing p with
  | nil => rfl
  | cons l ls ih =>
    rw [Lexeme.place, List.filterMap_cons, List.filterMap_cons]
    cases h : l.token? with
    | none => simp [Lexeme.tokenAt?, h, ih]
    | some contents => simp [Lexeme.tokenAt?, h, ih, Token.contents]

/-- One token of a kind, spelled so. -/
def Single (kind : Kind) (text : String) (ts : List Token) : Prop :=
  ∃ t, ts = [t] ∧ t.kind = kind ∧ t.text = text

/-- Tokens that satisfy `P`, then tokens that satisfy `Q`. -/
def Followed (P Q : List Token → Prop) (ts : List Token) : Prop :=
  ∃ us vs, ts = us ++ vs ∧ P us ∧ Q vs

/-- **A text that is cut for itself** before a character that `follows` accepts, into lexemes nothing is
wrong with, whose tokens satisfy `P`. -/
def Rereads (follows : Char → Bool) (cs : List Char) (P : List Token → Prop) : Prop :=
  ∃ ls, (∀ rest : List Char, rest.head?.all follows → Lexeme.cut (cs ++ rest) = ls ++ Lexeme.cut rest) ∧
    (∀ l ∈ ls, l.isClean) ∧
    ∀ ts : List Token, ts.map Token.contents = ls.filterMap Lexeme.token? → P ts

namespace Rereads

open Lexeme

variable {follows after : Char → Bool} {cs ds : List Char} {P Q : List Token → Prop}

theorem mono (h : Rereads follows cs P) (hPQ : ∀ ts, P ts → Q ts) : Rereads follows cs Q := by
  obtain ⟨ls, hcut, hclean, hP⟩ := h
  exact ⟨ls, hcut, hclean, fun ts hts => hPQ ts (hP ts hts)⟩

/-- Less may follow than could. -/
theorem before (h : Rereads follows cs P) (ha : ∀ c, after c → follows c) : Rereads after cs P := by
  obtain ⟨ls, hcut, hclean, hP⟩ := h
  refine ⟨ls, fun rest hr => hcut rest ?_, hclean, hP⟩
  cases rest with
  | nil => rfl
  | cons c rest => exact ha c hr

/-- **Pieces that fit together are joined.** -/
theorem seq (h : Rereads follows cs P) (h' : Rereads after ds Q) (hd : ds.head?.any follows) :
    Rereads after (cs ++ ds) (Followed P Q) := by
  obtain ⟨ls, hcut, hclean, hP⟩ := h
  obtain ⟨ms, hcut', hclean', hQ⟩ := h'
  refine ⟨ls ++ ms, fun rest hr => ?_, ?_, fun ts hts => ?_⟩
  · -- What follows the first piece is the start of the second, whatever comes after both.
    have hhead : (ds ++ rest).head?.all follows := by
      cases ds with
      | nil => cases hd
      | cons d ds => exact hd
    rw [List.append_assoc, hcut _ hhead, hcut' rest hr, List.append_assoc]
  · exact List.forall_mem_append.2 ⟨hclean, hclean'⟩
  · rw [List.filterMap_append] at hts
    obtain ⟨us, vs, rfl, hus, hvs⟩ := List.map_eq_append_iff.1 hts
    exact ⟨us, vs, rfl, hP us hus, hQ vs hvs⟩

theorem nil : Rereads follows [] (· = []) :=
  ⟨[], fun _ _ => rfl, by simp, fun _ hts => List.map_eq_nil_iff.1 hts⟩

/-- A text that is one lexeme. -/
theorem one {c : Char} {l : Lexeme} {kind : Kind} {text : String}
    (hn : ∀ rest : List Char, rest.head?.all follows → next c (cs ++ rest) = (l, rest))
    (hl : l.isClean) (ht : l.token? = some (kind, text.toList)) :
    Rereads follows (c :: cs) (Single kind text) := by
  refine ⟨[l], fun rest hr => ?_, by simpa using hl, fun ts hts => ?_⟩
  · rw [List.cons_append, cut_cons, hn rest hr, List.singleton_append]
  · rw [List.filterMap_cons, ht, List.filterMap_nil] at hts
    obtain ⟨t, rfl, hc⟩ := List.map_eq_singleton_iff.1 hts
    obtain ⟨hk, htext⟩ := Prod.mk.inj hc
    exact ⟨t, rfl, hk, String.toList_injective htext⟩

/-- A blank leaves no trace. -/
theorem blank (h : Rereads after ds Q) : Rereads after (' ' :: ds) Q := by
  obtain ⟨ls, hcut, hclean, hQ⟩ := h
  refine ⟨.blank ' ' :: ls, fun rest hr => ?_, ?_, fun ts hts => hQ ts hts⟩
  · rw [List.cons_append, cut_cons, List.cons_append, ← hcut rest hr]
    rfl
  · exact List.forall_mem_cons.2 ⟨rfl, hclean⟩

/-- A newline ends whatever stands in front of it. -/
theorem newline (h : Rereads after ds Q) :
    Rereads after ('\n' :: ds) (Followed (Single .endOfLine "\n") Q) := by
  obtain ⟨ls, hcut, hclean, hQ⟩ := h
  refine ⟨.newline :: ls, fun rest hr => ?_, ?_, fun ts hts => ?_⟩
  · rw [List.cons_append, cut_cons, List.cons_append, ← hcut rest hr]
    rfl
  · exact List.forall_mem_cons.2 ⟨rfl, hclean⟩
  · obtain ⟨t, us, rfl, ht, hus⟩ := List.map_eq_cons_iff.1 hts
    obtain ⟨hk, htext⟩ := Prod.mk.inj ht
    exact ⟨[t], us, rfl, ⟨t, rfl, hk, String.toList_injective htext⟩, hQ us hus⟩

theorem symbol {c : Char} {kind : Kind} (h : single? c = some kind) :
    Rereads isPlain [c] (Single kind (String.singleton c)) := by
  have hclean : (Lexeme.symbol kind [c]).isClean := by
    revert h
    unfold single?
    split <;> rintro ⟨⟩ <;> rfl
  exact one (fun rest hr => next_symbol h hr) hclean (by simp [token?])

theorem symbols {c : Char} {kind : Kind} (h : double? c '=' = some kind) :
    Rereads follows [c, '='] (Single kind (String.ofList [c, '='])) := by
  have hclean : (Lexeme.symbol kind [c, '=']).isClean := by
    revert h
    unfold double?
    split <;> rintro ⟨⟩ <;> rfl
  exact one (fun rest _ => next_symbols rest h) hclean (by simp [token?])

theorem word {c : Char} (hc : isLetter c) (hcs : cs.all isWordChar) :
    Rereads endsWord (c :: cs)
      (Single (Kind.ofWord (String.ofList (c :: cs))) (String.ofList (c :: cs))) :=
  one (fun _ hr => next_word hc hcs hr) rfl (by simp [token?])

theorem number {c : Char} (hc : isDigit c) (hcs : cs.all isDigit) (hlen : cs.length < 19) :
    Rereads endsWord (c :: cs) (Single .int (String.ofList (c :: cs))) :=
  one (fun _ hr => next_number hc hcs hr) (decide_eq_true hlen) (by simp [token?])

theorem string {body : List Char} (h : '\x22' ∉ body) :
    Rereads follows ('\x22' :: (body ++ ['\x22'])) (Single .string (String.ofList body)) := by
  refine one (l := .string body) (fun rest _ => ?_) rfl (by simp [token?])
  rw [List.append_assoc]
  exact next_string h rest

end Rereads

end LimLang
