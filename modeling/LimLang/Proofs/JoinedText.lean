import LimLang.Proofs.Relexing

/-! # The tokens of joined texts

Two texts are joined by a newline (`Source.join`).  Unless the first one ends inside a string or a
comment, no lexeme reaches across the newline: it ends every word, number, symbol and comment of a
line, and makes nothing longer.  So the joined text is cut like the two texts, and everything in the
second one stands where it stands on its own if its lines are numbered on from those of the first
(`Source.behind`).  The same goes for the lines that diagnostics show.
-/
namespace LimLang

namespace Lexeme

/-- A lexeme that ends before the text does. -/
def isClosed : Lexeme → Bool
  | openComment _ | openString _ => false
  | _ => true

/-! ## Cutting -/

/-- What a run of characters ends before, it also ends before if something follows. -/
theorem span_before {p : Char → Bool} {d : Char} (hd : p d = false) (cs more : List Char) :
    (cs ++ d :: more).takeWhile p = cs.takeWhile p ∧
      (cs ++ d :: more).dropWhile p = cs.dropWhile p ++ d :: more := by
  induction cs with
  | nil => simp [hd]
  | cons c cs ih =>
    by_cases hc : p c = true
    · simp [hc, ih.1, ih.2]
    · simp [hc]

theorem closeComment?_append {cs body after : List Char}
    (h : closeComment? cs = some (body, after)) (more : List Char) :
    closeComment? (cs ++ more) = some (body, after ++ more) := by
  fun_induction closeComment? cs generalizing body with
  | case1 => cases h
  | case2 rest =>
    obtain ⟨rfl, rfl⟩ := Prod.mk.inj (Option.some.inj h)
    rfl
  | case3 c rest hne ih =>
    obtain ⟨⟨b, a⟩, hb, he⟩ := Option.map_eq_some_iff.1 h
    obtain ⟨rfl, rfl⟩ := Prod.mk.inj he
    cases rest with
    | nil => cases hb
    | cons r rest =>
      have hopen : ∀ rest', c = '*' → r :: rest ++ more = '/' :: rest' → False := by
        intro rest' hc hr
        exact hne rest hc (by rw [(List.cons.inj hr).1])
      rw [List.cons_append, closeComment?.eq_3 _ _ hopen, ih hb]
      rfl

theorem comment?_append {rest after : List Char} {l : Lexeme} (h : comment? rest = some (l, after))
    (hl : l.isClosed) (more : List Char) :
    comment? (rest ++ '\n' :: more) = some (l, after ++ '\n' :: more) := by
  unfold comment? at h
  split at h
  · next rest =>
    obtain ⟨rfl, rfl⟩ := Prod.mk.inj (Option.some.inj h)
    have hspan := span_before (p := (· != '\n')) (d := '\n') rfl rest more
    rw [List.cons_append, comment?, hspan.1, hspan.2]
  · next rest =>
    split at h
    · next body after' hc =>
      obtain ⟨rfl, rfl⟩ := Prod.mk.inj (Option.some.inj h)
      rw [List.cons_append, comment?, closeComment?_append hc]
    · obtain ⟨rfl, rfl⟩ := Prod.mk.inj (Option.some.inj h)
      cases hl
  · cases h

theorem comment?_append_none {rest : List Char} (h : comment? rest = none) (more : List Char) :
    comment? (rest ++ '\n' :: more) = none := by
  cases rest with
  | nil => rfl
  | cons c rest =>
    unfold comment? at h ⊢
    rw [List.cons_append]
    split at h
    · cases h
    · split at h <;> cases h
    · split <;> simp_all

theorem symbol?_append {c : Char} {rest : List Char} (more : List Char) :
    symbol? c (rest ++ '\n' :: more) =
      (symbol? c rest).map fun found => (found.1, found.2 ++ '\n' :: more) := by
  cases rest with
  | nil =>
    have hline : double? c '\n' = none := double?_eq_none rfl
    simp only [List.nil_append, symbol?, hline, Option.map_map]
    rfl
  | cons d rest =>
    simp only [List.cons_append, symbol?]
    split
    · rfl
    · rw [Option.map_map]
      rfl

theorem stringFrom_append {rest : List Char} (hl : (stringFrom rest).1.isClosed)
    (more : List Char) :
    stringFrom (rest ++ '\n' :: more) =
      ((stringFrom rest).1, (stringFrom rest).2 ++ '\n' :: more) := by
  cases hd : rest.dropWhile (· != '\x22') with
  | nil => simp [stringFrom, hd, isClosed] at hl
  | cons quote after =>
    have hdrop : (rest ++ '\n' :: more).dropWhile (· != '\x22') =
        quote :: after ++ '\n' :: more := by
      rw [List.dropWhile_append, hd]
      rfl
    have htake : (rest ++ '\n' :: more).takeWhile (· != '\x22') =
        rest.takeWhile (· != '\x22') := by
      have hall : (rest.takeWhile (· != '\x22')).all (· != '\x22') := List.all_takeWhile
      have hquote := List.head?_dropWhile_not (· != '\x22') rest
      rw [hd] at hquote
      conv_lhs => rw [← List.takeWhile_append_dropWhile (p := (· != '\x22')) (l := rest), hd,
        List.append_assoc]
      exact (span_append hall (by simpa using hquote)).1
    simp only [stringFrom, hd, hdrop, htake, List.cons_append]

theorem numberFrom_append (c : Char) (rest more : List Char) :
    numberFrom c (rest ++ '\n' :: more) =
      ((numberFrom c rest).1, (numberFrom c rest).2 ++ '\n' :: more) := by
  have hdigits := span_before (p := isDigit) (d := '\n') rfl rest more
  have hword := span_before (p := isWordChar) (d := '\n') rfl rest more
  have hletter : (rest.dropWhile isDigit ++ '\n' :: more).head?.any isLetter =
      (rest.dropWhile isDigit).head?.any isLetter := by
    cases rest.dropWhile isDigit <;> rfl
  unfold numberFrom
  simp only [hdigits.1, hdigits.2, hword.1, hword.2, hletter]
  split <;> rfl

/-- **A lexeme that ends before the text does is not changed by a newline behind the text.** -/
theorem next_append {c : Char} {rest : List Char} (hl : (next c rest).1.isClosed)
    (more : List Char) :
    next c (rest ++ '\n' :: more) = ((next c rest).1, (next c rest).2 ++ '\n' :: more) := by
  unfold next at hl ⊢
  by_cases hgap : isGap c = true
  · simp only [hgap, if_true]
  by_cases hline : c = '\n'
  · subst hline
    rfl
  simp only [hgap, Bool.false_eq_true, if_false, hline] at hl ⊢
  cases hcomment : if c = '/' then comment? rest else none with
  | some found =>
    rw [hcomment] at hl
    by_cases hslash : c = '/'
    · rw [if_pos hslash] at hcomment ⊢
      rw [comment?_append hcomment hl]
    · rw [if_neg hslash] at hcomment
      cases hcomment
  | none =>
    have hnone : (if c = '/' then comment? (rest ++ '\n' :: more) else none) = none := by
      by_cases hslash : c = '/'
      · rw [if_pos hslash] at hcomment ⊢
        exact comment?_append_none hcomment more
      · rw [if_neg hslash]
    simp only [hcomment, hnone, symbol?_append] at hl ⊢
    cases hsymbol : symbol? c rest with
    | some found => rfl
    | none =>
      simp only [hsymbol, Option.map_none] at hl ⊢
      have hword := span_before (p := isWordChar) (d := '\n') rfl rest more
      split at hl
      · next hquote => simp only [hquote, if_true, stringFrom_append hl]
      · next hquote =>
        simp only [hquote, if_false, wordFrom, hword.1, hword.2, numberFrom_append]
        split
        · rfl
        · split <;> rfl

/-- **Joined texts are cut like the texts.** -/
theorem cut_join {cs : List Char} (hcs : ∀ l ∈ cut cs, l.isClosed) (more : List Char) :
    cut (cs ++ '\n' :: more) = cut cs ++ .newline :: cut more := by
  induction hn : cs.length using Nat.strong_induction_on generalizing cs with
  | _ n ih =>
    cases cs with
    | nil => exact cut_cons '\n' more
    | cons c rest =>
      rw [cut_cons, List.forall_mem_cons] at hcs
      have hshort := length_next_le c rest
      rw [List.length_cons] at hn
      rw [List.cons_append, cut_cons, next_append hcs.1, cut_cons c rest, List.cons_append,
        ih (next c rest).2.length (by omega) hcs.2 rfl]

/-! ## Kinds of tokens -/

/-- A lexeme that is not text that is no token. -/
def isLegal : Lexeme → Bool
  | openString _ | numberedWord _ | stray _ => false
  | _ => true

/-- What a lexeme of a text stands for: never the end, and text that is no token only if it is. -/
def IsProper (l : Lexeme) : Prop :=
  ∀ kind text, l.token? = some (kind, text) → kind ≠ .eof ∧ (l.isLegal → kind ≠ .illegal)

theorem comment?_isProper {rest : List Char} {found : Lexeme × List Char}
    (h : comment? rest = some found) : found.1.IsProper := by
  have hnone : found.1.token? = none := by
    unfold comment? at h
    split at h
    · rw [← Option.some.inj h]
      rfl
    · split at h <;> rw [← Option.some.inj h] <;> rfl
    · cases h
  intro kind text ht
  rw [hnone] at ht
  cases ht

theorem symbol?_isProper {c : Char} {rest : List Char} {found : Lexeme × List Char}
    (h : symbol? c rest = some found) : found.1.IsProper := by
  have hdouble : ∀ d kind, double? c d = some kind → kind ≠ .eof ∧ kind ≠ .illegal := by
    intro d kind hd
    unfold double? at hd
    split at hd <;> cases hd <;> decide
  have hsingle : ∀ kind, single? c = some kind → kind ≠ .eof ∧ kind ≠ .illegal := by
    intro kind hs
    unfold single? at hs
    split at hs <;> cases hs <;> decide
  have hsymbol : ∃ kind text, found.1 = .symbol kind text ∧ kind ≠ .eof ∧ kind ≠ .illegal := by
    unfold symbol? at h
    split at h
    · split at h
      · next kind hd =>
        rw [← Option.some.inj h]
        exact ⟨_, _, rfl, hdouble _ _ hd⟩
      · obtain ⟨kind, hs, rfl⟩ := Option.map_eq_some_iff.1 h
        exact ⟨_, _, rfl, hsingle _ hs⟩
    · obtain ⟨kind, hs, rfl⟩ := Option.map_eq_some_iff.1 h
      exact ⟨_, _, rfl, hsingle _ hs⟩
  obtain ⟨kind, text, hl, heof, hillegal⟩ := hsymbol
  rw [hl]
  rintro _ _ ⟨⟩
  exact ⟨heof, fun _ => hillegal⟩

theorem word_isProper (text : List Char) : (word text).IsProper := by
  rintro _ _ ⟨⟩
  refine ⟨(ofWord_ne _).1, fun _ => ?_⟩
  unfold Kind.ofWord
  cases hfind : Kind.keywords.find? fun kind => kind.spelling == String.ofList text with
  | none => decide
  | some kind =>
    rintro rfl
    exact absurd (List.mem_of_find?_eq_some hfind) (by decide)

theorem next_isProper (c : Char) (rest : List Char) : (next c rest).1.IsProper := by
  unfold next
  split
  · rintro _ _ ⟨⟩
  split
  · rintro _ _ ⟨⟩
    simp
  split
  · next found h =>
    split at h
    · exact comment?_isProper h
    · cases h
  split
  · next found h => exact symbol?_isProper h
  split
  · unfold stringFrom
    split <;> rintro _ _ ⟨⟩ <;> simp [isLegal]
  split
  · exact word_isProper _
  split
  · unfold numberFrom
    dsimp only
    split <;> rintro _ _ ⟨⟩ <;> simp [isLegal]
  · rintro _ _ ⟨⟩
    simp [isLegal]

theorem isProper_of_mem_cut {cs : List Char} {l : Lexeme} (h : l ∈ cut cs) : l.IsProper := by
  obtain ⟨c, rest, rfl⟩ := exists_next_of_mem_cut h
  exact next_isProper c rest

end Lexeme

/-! ## Places -/

namespace Pos

theorem afterAll_append (p : Pos) (cs ds : List Char) :
    p.afterAll (cs ++ ds) = (p.afterAll cs).afterAll ds :=
  List.foldl_append

theorem line_afterAll (p : Pos) (cs : List Char) :
    (p.afterAll cs).line = p.line + cs.count '\n' := by
  induction cs generalizing p with
  | nil => simp [afterAll]
  | cons c cs ih =>
    rw [show p.afterAll (c :: cs) = (p.after c).afterAll cs from rfl, ih, List.count_cons]
    by_cases hc : c = '\n'
    · simp only [after, hc, if_true, beq_self_eq_true]
      omega
    · simp [after, hc]

end Pos

namespace Lexeme

theorem place_append (p : Pos) (ls ms : List Lexeme) :
    place p (ls ++ ms) = place p ls ++ place (p.afterAll (ls.flatMap text)) ms := by
  induction ls generalizing p with
  | nil => rfl
  | cons l ls ih =>
    rw [List.cons_append, place, place, ih, List.flatMap_cons, Pos.afterAll_append,
      List.cons_append]

theorem exists_mem_place (p : Pos) {ls : List Lexeme} {l : Lexeme} (h : l ∈ ls) :
    ∃ q, (q, l) ∈ place p ls := by
  induction ls generalizing p with
  | nil => cases h
  | cons m ls ih =>
    rcases List.mem_cons.1 h with rfl | h
    · exact ⟨p, List.mem_cons_self⟩
    · obtain ⟨q, hq⟩ := ih (p.afterAll m.text) h
      exact ⟨q, List.mem_cons_of_mem _ hq⟩

/-- Lexemes stand between the place of the first and the place after all. -/
theorem line_of_mem_place {p : Pos} {ls : List Lexeme} {placed : Pos × Lexeme}
    (h : placed ∈ place p ls) :
    p.line ≤ placed.1.line ∧ placed.1.line ≤ (p.afterAll (ls.flatMap text)).line := by
  induction ls generalizing p with
  | nil => cases h
  | cons l ls ih =>
    rw [List.flatMap_cons, Pos.afterAll_append]
    rcases List.mem_cons.1 h with rfl | h
    · simp only [Pos.line_afterAll]
      omega
    · obtain ⟨hlow, hhigh⟩ := ih h
      simp only [Pos.line_afterAll] at hlow hhigh ⊢
      omega

end Lexeme

namespace Source

/-- A source with a text put behind it, on a line of its own. -/
def join (s : Source) (text : List Char) : Source :=
  { s with text := s.text ++ '\n' :: text }

/-- A text whose lines are numbered on from those of a source. -/
def behind (s : Source) (text : List Char) : Source where
  text := text
  firstLine := s.firstLine + s.text.count '\n' + 1

variable (s : Source) (text : List Char)

theorem line_stop : s.stop.line = s.firstLine + s.text.count '\n' :=
  Pos.line_afterAll _ _

theorem after_stop : s.stop.after '\n' = (s.behind text).start := by
  unfold start behind
  rw [← line_stop]
  rfl

theorem stop_join : (s.join text).stop = (s.behind text).stop := by
  show s.start.afterAll (s.text ++ '\n' :: text) = (s.behind text).start.afterAll text
  rw [Pos.afterAll_append, ← after_stop]
  rfl

theorem endToken_join : (s.join text).endToken = (s.behind text).endToken := by
  simp only [endToken, stop_join]

/-! ### Lines -/

theorem length_splitLines (cs : List Char) : (splitLines cs).length = cs.count '\n' + 1 := by
  induction cs with
  | nil => rfl
  | cons c cs ih =>
    by_cases hc : c = '\n'
    · simp [splitLines, hc, ih]
    · simp only [splitLines, hc, if_false]
      cases hs : splitLines cs with
      | nil =>
        rw [hs] at ih
        cases ih
      | cons line lines =>
        rw [hs] at ih
        simpa [hc] using ih

theorem splitLines_append (cs ds : List Char) :
    splitLines (cs ++ '\n' :: ds) = splitLines cs ++ splitLines ds := by
  induction cs with
  | nil => simp [splitLines]
  | cons c cs ih =>
    by_cases hc : c = '\n'
    · simp [splitLines, hc, ih]
    · simp only [List.cons_append, splitLines, hc, if_false, ih]
      cases hs : splitLines cs with
      | nil =>
        have := length_splitLines cs
        rw [hs] at this
        cases this
      | cons line lines => rfl

theorem line_congr {s t : Source} {n : Int} (hs : s.firstLine ≤ n) (ht : t.firstLine ≤ n)
    (h : (splitLines s.text)[(n - s.firstLine).toNat]? =
      (splitLines t.text)[(n - t.firstLine).toNat]?) : s.line n = t.line n := by
  rw [line, line, if_neg (Int.not_lt.2 hs), if_neg (Int.not_lt.2 ht), h]

/-- The lines behind a source are those of the text put there. -/
theorem line_join {n : Int} (h : (s.behind text).firstLine ≤ n) :
    (s.join text).line n = (s.behind text).line n := by
  have hstart : (s.join text).firstLine ≤ n := by
    simp only [behind, join] at h ⊢
    omega
  have hindex : (n - (s.join text).firstLine).toNat =
      (splitLines s.text).length + (n - (s.behind text).firstLine).toNat := by
    rw [length_splitLines]
    simp only [behind, join] at h ⊢
    omega
  refine line_congr hstart h ?_
  rw [hindex, join, splitLines_append, List.getElem?_append_right (Nat.le_add_right _ _),
    Nat.add_sub_cancel_left]
  rfl

/-- A source keeps its lines. -/
theorem line_join_of_lt {n : Int} (h : n < (s.behind text).firstLine) :
    (s.join text).line n = s.line n := by
  by_cases hstart : n < s.firstLine
  · rw [line, line, if_pos hstart, if_pos (show n < (s.join text).firstLine from hstart)]
  have hindex : (n - s.firstLine).toNat < (splitLines s.text).length := by
    rw [length_splitLines]
    simp only [behind] at h
    omega
  have hle : s.firstLine ≤ n := Int.not_lt.1 hstart
  refine line_congr (s := s.join text) hle hle ?_
  rw [join, splitLines_append, List.getElem?_append_left hindex]

/-! ### Lexemes -/

/-- No string and no comment is open where the text ends. -/
def IsClosed : Prop :=
  ∀ l ∈ Lexeme.cut s.text, l.isClosed

/-- The tokens of a text, without the one that ends them. -/
def words : List Token :=
  s.lexemes.filterMap Lexeme.tokenAt?

/-- The newline between two texts. -/
def seam : Token where
  kind := .endOfLine
  text := "\n"
  line := s.stop.line
  col := s.stop.col

variable {s} (hs : s.IsClosed)
include hs

/-- **The lexemes of joined texts are those of the texts**, where they stand, with a newline in
between. -/
theorem lexemes_join :
    (s.join text).lexemes = s.lexemes ++ (s.stop, .newline) :: (s.behind text).lexemes := by
  show Lexeme.place s.start (Lexeme.cut (s.text ++ '\n' :: text)) = _
  rw [Lexeme.cut_join hs, Lexeme.place_append, Lexeme.flatMap_text_cut, Lexeme.place]
  show _ ++ (s.stop, _) :: Lexeme.place (s.stop.after '\n') _ = _
  rw [after_stop s text]
  rfl

theorem tokens_join :
    (s.join text).tokens = s.words ++ s.seam :: (s.behind text).tokens := by
  rw [tokens, lexemes_join text hs, List.filterMap_append, endToken_join, List.append_assoc]
  rfl

/-- What is said of lexemes with regard to their lines, is said of them in joined texts too. -/
theorem filterMap_lexemes_join {β : Type} (f : Source → Pos × Lexeme → Option β)
    (hline : ∀ r t placed, r.line placed.1.line = t.line placed.1.line → f r placed = f t placed)
    (hnewline : ∀ r p, f r (p, .newline) = none) :
    (s.join text).lexemes.filterMap (f (s.join text)) =
      s.lexemes.filterMap (f s) ++ (s.behind text).lexemes.filterMap (f (s.behind text)) := by
  rw [lexemes_join text hs, List.filterMap_append, List.filterMap_cons, hnewline]
  congr 1
  · refine List.filterMap_congr fun placed hplaced => hline _ _ _ (line_join_of_lt s text ?_)
    have hle := (Lexeme.line_of_mem_place hplaced).2
    rw [Lexeme.flatMap_text_cut, Pos.line_afterAll] at hle
    exact Int.lt_add_one_of_le hle
  · refine List.filterMap_congr fun placed hplaced => hline _ _ _ (line_join s text ?_)
    exact (Lexeme.line_of_mem_place hplaced).1

theorem lexicalErrors_join :
    (s.join text).lexicalErrors = s.lexicalErrors ++ (s.behind text).lexicalErrors := by
  refine filterMap_lexemes_join text hs lexicalError? ?_ fun _ _ => rfl
  rintro r t ⟨p, l⟩ h
  cases l <;> simp only [lexicalError?, lexicalAt, show r.line p.line = t.line p.line from h]

theorem warnings_join :
    (s.join text).warnings = s.warnings ++ (s.behind text).warnings := by
  refine filterMap_lexemes_join text hs lexicalWarning? ?_ fun _ _ => rfl
  rintro r t ⟨p, l⟩ h
  cases l <;> simp only [lexicalWarning?, lexicalAt, show r.line p.line = t.line p.line from h]

omit hs

theorem firstLine_le_of_mem_tokens {t : Token} (h : t ∈ s.tokens) : s.firstLine ≤ t.line := by
  rcases List.mem_append.1 h with h | h
  · obtain ⟨placed, hplaced, ht⟩ := List.mem_filterMap.1 h
    obtain ⟨contents, -, rfl⟩ := Option.map_eq_some_iff.1 ht
    exact (Lexeme.line_of_mem_place hplaced).1
  · rw [List.mem_singleton.1 h]
    show _ ≤ s.stop.line
    rw [line_stop]
    exact Int.le_add_of_nonneg_right (Int.natCast_nonneg _)

/-! ### Texts nothing is wrong with -/

theorem kind_of_mem_words {t : Token} (h : t ∈ s.words) :
    t.kind ≠ .eof ∧ (s.lexicalErrors = [] → t.kind ≠ .illegal) := by
  obtain ⟨⟨p, l⟩, hplaced, ht⟩ := List.mem_filterMap.1 h
  obtain ⟨⟨kind, text⟩, hk, rfl⟩ := Option.map_eq_some_iff.1 ht
  obtain ⟨heof, hillegal⟩ :=
    Lexeme.isProper_of_mem_cut (Lexeme.mem_of_mem_place hplaced) kind text hk
  refine ⟨heof, fun herrors => hillegal ?_⟩
  have hnone := List.filterMap_eq_nil_iff.1 herrors _ hplaced
  cases l <;> first | rfl | cases hnone

theorem lexicalErrors_eq_nil_iff_isLegal :
    s.lexicalErrors = [] ↔ ∀ l ∈ Lexeme.cut s.text, l.isLegal := by
  constructor
  · intro herrors l hl
    obtain ⟨p, hplaced⟩ := Lexeme.exists_mem_place s.start hl
    have hnone := List.filterMap_eq_nil_iff.1 herrors _ hplaced
    cases l <;> first | rfl | cases hnone
  · intro hlegal
    refine List.filterMap_eq_nil_iff.2 fun placed hplaced => ?_
    have hl := hlegal _ (Lexeme.mem_of_mem_place hplaced)
    obtain ⟨p, l⟩ := placed
    cases l <;> first | rfl | cases hl

/-- Where a string or a comment is left open, that is an error or a warning. -/
theorem isClosed_of_errors (he : s.lexicalErrors = []) (hw : s.warnings = []) : s.IsClosed := by
  intro l hl
  obtain ⟨p, hplaced⟩ := Lexeme.exists_mem_place s.start hl
  have herror := List.filterMap_eq_nil_iff.1 he _ hplaced
  have hwarning := List.filterMap_eq_nil_iff.1 hw _ hplaced
  cases l with
  | openString _ => cases herror
  | openComment _ => cases hwarning
  | _ => rfl

end Source

end LimLang
