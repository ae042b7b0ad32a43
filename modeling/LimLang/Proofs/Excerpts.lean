import LimLang.Proofs.Tiling
import Mathlib.Data.List.Forall2
import Mathlib.Data.List.Pairwise

/-! # What the scanner's diagnostics point at

A diagnostic shows a line of the text and points at some of its columns.  The columns count from the
start of the line; the line is shown without the carriage returns at its end.  So the line that holds a
place is what stands in front of the place, as many characters as its column says, and then what
stands behind it up to the end of the line (`Source.exists_line_eq`).  A piece in which no line ends, and
that no carriage return ends, is shown whole (`Source.exists_line_of_whole`).

No two lexemes stand at the same place, for each covers some text.  So the diagnostic that is found at
the place of a token is the one that was recorded there (`Source.lexicalErrors_report`).
-/
namespace LimLang

namespace Text

/-- Nothing is dropped in front of a character that is kept. -/
theorem dropTrailing_append_cons {p : Char → Bool} {c : Char} (hc : p c = false)
    (cs ds : List Char) : dropTrailing p (cs ++ c :: ds) = cs ++ c :: dropTrailing p ds := by
  unfold dropTrailing
  rw [List.reverse_append, List.reverse_cons, List.append_assoc, List.singleton_append,
    List.dropWhile_append]
  cases hd : ds.reverse.dropWhile p with
  | nil => simp [hc]
  | cons d rest => simp

/-- What stands of a text in its first line, without carriage returns at the end. -/
def firstLine (cs : List Char) : List Char :=
  dropTrailing (· == '\r') (cs.takeWhile (· != '\n'))

theorem firstLine_cons {c : Char} (hline : c ≠ '\n') (hreturn : c ≠ '\r') (cs : List Char) :
    firstLine (c :: cs) = c :: firstLine cs := by
  unfold firstLine
  rw [List.takeWhile_cons_of_pos (by simpa using hline),
    ← List.nil_append (c :: cs.takeWhile _), dropTrailing_append_cons (by simpa using hreturn)]
  rfl

/-- **A piece that is shown whole** by the line it stands in: it is not empty, no line ends in it, and no
carriage return ends it. -/
def Whole (piece : List Char) : Prop :=
  '\n' ∉ piece ∧ ∃ front c, piece = front ++ [c] ∧ c ≠ '\r'

theorem Whole.of_not_mem {piece : List Char} (hne : piece ≠ []) (hline : '\n' ∉ piece)
    (hreturn : '\r' ∉ piece) : Whole piece := by
  obtain ⟨front, c, rfl⟩ := (List.eq_nil_or_concat' piece).resolve_left hne
  refine ⟨hline, front, c, rfl, ?_⟩
  rintro rfl
  exact hreturn (List.mem_append_right _ List.mem_cons_self)

theorem Whole.ne_nil {piece : List Char} (h : Whole piece) : piece ≠ [] := by
  obtain ⟨-, front, c, rfl, -⟩ := h
  exact List.append_ne_nil_of_right_ne_nil _ (List.cons_ne_nil _ _)

/-- The slice that starts behind `before` and has the length of `piece`. -/
theorem slice_append (before piece after : List Char) :
    slice (before ++ (piece ++ after)) before.length (before.length + piece.length) = piece := by
  have hclip : ∀ n : Nat, n ≤ before.length + piece.length →
      clip (before ++ (piece ++ after)).length n = n := by
    intro n hn
    rw [clip, if_neg (by omega), List.length_append, List.length_append]
    omega
  rw [slice, ← Int.natCast_add, hclip _ (Nat.le_refl _), hclip _ (Nat.le_add_right _ _),
    List.take_length_add_append, List.take_left, List.drop_left]

end Text

/-! ## Places -/

namespace Pos

/-- One place stands before another. -/
def Before (p q : Pos) : Prop :=
  p.line < q.line ∨ p.line = q.line ∧ p.col < q.col

variable {p q r : Pos} {cs : List Char}

theorem Before.trans (h : p.Before q) (h' : q.Before r) : p.Before r := by
  unfold Before at *
  omega

theorem Before.ne (h : p.Before q) : p ≠ q := by
  rintro rfl
  unfold Before at h
  omega

theorem before_after (p : Pos) (c : Char) : p.Before (p.after c) := by
  unfold after
  split
  · exact .inl (Int.lt_add_one_of_le (Int.le_refl _))
  · exact .inr ⟨rfl, Nat.lt_succ_self _⟩

theorem before_afterAll (p : Pos) (h : cs ≠ []) : p.Before (p.afterAll cs) := by
  induction cs generalizing p with
  | nil => exact absurd rfl h
  | cons c cs ih =>
    by_cases hcs : cs = []
    · subst hcs
      exact p.before_after c
    · exact (p.before_after c).trans (ih _ hcs)

theorem afterAll_of_not_mem (p : Pos) (h : '\n' ∉ cs) :
    p.afterAll cs = ⟨p.line, p.col + cs.length⟩ := by
  induction cs generalizing p with
  | nil => rfl
  | cons c cs ih =>
    obtain ⟨hc, hcs⟩ := not_or.1 (List.mem_cons.not.1 h)
    show (p.after c).afterAll cs = _
    rw [ih _ hcs, after, if_neg (Ne.symm hc), List.length_cons]
    congr 1
    show p.col + 1 + cs.length = p.col + (cs.length + 1)
    omega

end Pos

namespace Lexeme

variable {p q : Pos} {ls : List Lexeme} {placed : Pos × Lexeme}

theorem text_ne_nil_of_mem_cut {cs : List Char} {l : Lexeme} (h : l ∈ cut cs) : l.text ≠ [] := by
  obtain ⟨c, rest, rfl⟩ := exists_next_of_mem_cut h
  obtain ⟨body, hbody, -⟩ := text_next_eq_cons c rest
  rw [hbody]
  exact List.cons_ne_nil _ _

theorem before_of_mem_place (hls : ∀ l ∈ ls, l.text ≠ []) (hpq : p.Before q)
    (h : placed ∈ place q ls) : p.Before placed.1 := by
  induction ls generalizing q with
  | nil => cases h
  | cons l ls ih =>
    obtain ⟨hl, hls⟩ := List.forall_mem_cons.1 hls
    rcases List.mem_cons.1 h with rfl | h
    · exact hpq
    · exact ih hls (hpq.trans (q.before_afterAll hl)) h

/-- Lexemes stand one behind the other. -/
theorem pairwise_place (hls : ∀ l ∈ ls, l.text ≠ []) :
    (place p ls).Pairwise fun a b => a.1.Before b.1 := by
  induction ls generalizing p with
  | nil => exact .nil
  | cons l ls ih =>
    obtain ⟨hl, hls⟩ := List.forall_mem_cons.1 hls
    exact .cons (fun placed h => before_of_mem_place hls (p.before_afterAll hl) h) (ih hls)

/-- Lexemes stand before the end. -/
theorem before_end_of_mem_place (hls : ∀ l ∈ ls, l.text ≠ []) (h : placed ∈ place p ls) :
    placed.1.Before (p.afterAll (ls.flatMap text)) := by
  induction ls generalizing p with
  | nil => cases h
  | cons l ls ih =>
    obtain ⟨hl, hls⟩ := List.forall_mem_cons.1 hls
    rw [List.flatMap_cons]
    rcases List.mem_cons.1 h with rfl | h
    · exact p.before_afterAll (List.append_ne_nil_of_left_ne_nil hl _)
    · rw [Pos.afterAll_append]
      exact ih hls h

/-- Every lexeme is the first of what is left of the text at its place. -/
theorem exists_of_mem_place_cut {cs : List Char} (h : placed ∈ place p (cut cs)) :
    ∃ before c rest, cs = before ++ c :: rest ∧
      placed = (p.afterAll before, (next c rest).1) := by
  induction hn : cs.length using Nat.strong_induction_on generalizing p cs with
  | _ n ih =>
    cases cs with
    | nil => cases h
    | cons c rest =>
      rw [cut_cons] at h
      rcases List.mem_cons.1 h with rfl | h
      · exact ⟨[], c, rest, rfl, rfl⟩
      · have hshort := length_next_le c rest
        rw [List.length_cons] at hn
        obtain ⟨before, d, more, hmore, rfl⟩ := ih _ (by omega) h rfl
        refine ⟨(next c rest).1.text ++ before, d, more, ?_, ?_⟩
        · rw [List.append_assoc, ← hmore, text_next]
        · rw [Pos.afterAll_append]

/-- **How a lexeme is spelled** in front of the text `after`, where its shape does not say so. -/
def Spelled : Lexeme → List Char → Prop
  | openString _, after => after = []
  | number text, _ | numberedWord text, _ => text ≠ [] ∧ text.all isWordChar
  | stray c, _ => isGap c = false ∧ c ≠ '\n' ∧ c ≠ '\x22'
  | _, _ => True

theorem comment?_spelled {rest : List Char} {found : Lexeme × List Char}
    (h : comment? rest = some found) : found.1.Spelled found.2 := by
  unfold comment? at h
  split at h
  · obtain rfl := Option.some.inj h
    trivial
  · split at h <;> obtain rfl := Option.some.inj h <;> trivial
  · cases h

theorem symbol?_spelled {c : Char} {rest : List Char} {found : Lexeme × List Char}
    (h : symbol? c rest = some found) : found.1.Spelled found.2 := by
  unfold symbol? at h
  split at h
  · split at h
    · obtain rfl := Option.some.inj h
      trivial
    · obtain ⟨kind, -, rfl⟩ := Option.map_eq_some_iff.1 h
      trivial
  · obtain ⟨kind, -, rfl⟩ := Option.map_eq_some_iff.1 h
    trivial

theorem numberFrom_spelled {c : Char} (hc : isDigit c) (rest : List Char) :
    (numberFrom c rest).1.Spelled (numberFrom c rest).2 := by
  have hword : ∀ d, isDigit d → isWordChar d := fun d hd => by rw [isWordChar, hd, Bool.or_true]
  unfold numberFrom
  dsimp only
  split
  · refine ⟨List.cons_ne_nil _ _, ?_⟩
    rw [List.all_cons, List.all_takeWhile, Bool.and_true]
    exact hword c hc
  · refine ⟨List.cons_ne_nil _ _, List.all_eq_true.2 fun d hd => hword d ?_⟩
    rcases List.mem_cons.1 hd with rfl | hd
    · exact hc
    · exact List.mem_takeWhile_imp hd

theorem spelled_next (c : Char) (rest : List Char) : (next c rest).1.Spelled (next c rest).2 := by
  unfold next
  split
  · trivial
  split
  · trivial
  split
  · next found h =>
    split at h
    · exact comment?_spelled h
    · cases h
  split
  · next found h => exact symbol?_spelled h
  split
  · unfold stringFrom
    split
    · rfl
    · trivial
  split
  · trivial
  split
  · next hdigit => exact numberFrom_spelled hdigit rest
  · next hgap hline _ _ _ _ hquote _ _ => exact ⟨by simpa using hgap, hline, hquote⟩

/-- What is spelled with letters and digits is shown whole. -/
theorem whole_of_all {text : List Char} (hne : text ≠ []) (hall : text.all isWordChar) :
    Text.Whole text := by
  have hplain : ∀ d, isWordChar d = false → d ∉ text := by
    intro d hd hmem
    rw [List.all_eq_true.1 hall d hmem] at hd
    cases hd
  exact .of_not_mem hne (hplain '\n' rfl) (hplain '\r' rfl)

end Lexeme

/-- Where a token stands. -/
def Token.pos (t : Token) : Pos :=
  ⟨t.line, t.col⟩

namespace Source

variable {s : Source}

theorem pairwise_lexemes (s : Source) : s.lexemes.Pairwise fun a b => a.1.Before b.1 :=
  Lexeme.pairwise_place fun _ hl => Lexeme.text_ne_nil_of_mem_cut hl

theorem before_stop {placed : Pos × Lexeme} (h : placed ∈ s.lexemes) : placed.1.Before s.stop := by
  have := Lexeme.before_end_of_mem_place (fun _ hl => Lexeme.text_ne_nil_of_mem_cut hl) h
  rwa [Lexeme.flatMap_text_cut] at this

theorem exists_of_mem_words {t : Token} (h : t ∈ s.words) :
    ∃ placed ∈ s.lexemes, Lexeme.tokenAt? placed = some t ∧ t.pos = placed.1 := by
  obtain ⟨placed, hplaced, ht⟩ := List.mem_filterMap.1 h
  obtain ⟨contents, -, rfl⟩ := Option.map_eq_some_iff.1 ht
  exact ⟨placed, hplaced, ht, rfl⟩

/-- **The tokens stand one behind the other.** -/
theorem pairwise_tokens (s : Source) : s.tokens.Pairwise fun t u => t.pos.Before u.pos := by
  refine List.pairwise_append.2 ⟨?_, List.pairwise_singleton _ _, ?_⟩
  · refine List.pairwise_filterMap.2 (s.pairwise_lexemes.imp fun {a b} hab t ht u hu => ?_)
    obtain ⟨contents, -, rfl⟩ := Option.map_eq_some_iff.1 ht
    obtain ⟨contents', -, rfl⟩ := Option.map_eq_some_iff.1 hu
    exact hab
  · intro t ht u hu
    obtain ⟨placed, hplaced, -, hpos⟩ := exists_of_mem_words ht
    rw [List.mem_singleton.1 hu, hpos]
    exact before_stop hplaced

/-- A token is told by its place. -/
theorem eq_of_pos_eq {t u : Token} (ht : t ∈ s.tokens) (hu : u ∈ s.tokens) (h : t.pos = u.pos) :
    t = u := by
  by_contra hne
  have hdistinct : s.tokens.Pairwise fun t u => t.pos ≠ u.pos :=
    s.pairwise_tokens.imp fun h => h.ne
  have : Std.Symm fun t u : Token => t.pos ≠ u.pos := ⟨fun _ _ h => h.symm⟩
  exact hdistinct.forall ht hu hne h

/-! ## Lines -/

theorem head?_splitLines (cs : List Char) :
    (splitLines cs).head? = some (cs.takeWhile (· != '\n')) := by
  induction cs with
  | nil => rfl
  | cons c cs ih =>
    by_cases hc : c = '\n'
    · simp [splitLines, hc]
    · rw [List.takeWhile_cons_of_pos (by simpa using hc), splitLines, if_neg hc]
      cases hs : splitLines cs with
      | nil =>
        rw [hs] at ih
        cases ih
      | cons line lines =>
        rw [hs] at ih
        rw [← Option.some.inj ih]
        rfl

/-- The part of a text that stands in the line of its end, and the lines before that. -/
theorem exists_opening (before rest : List Char) :
    ∃ done opening, splitLines (before ++ rest) = done ++ splitLines (opening ++ rest) ∧
      done.length = before.count '\n' ∧ '\n' ∉ opening ∧
      ∀ p : Pos, p.col = 0 → (p.afterAll before).col = opening.length := by
  by_cases hmem : '\n' ∈ before
  · -- The text is cut at its last newline.
    obtain ⟨as, bs, hsplit, hnot⟩ := List.eq_append_cons_of_mem (List.mem_reverse.2 hmem)
    obtain rfl : before = bs.reverse ++ '\n' :: as.reverse := by
      rw [← List.reverse_reverse before, hsplit, List.reverse_append, List.reverse_cons,
        List.append_assoc, List.singleton_append]
    have hopening : '\n' ∉ as.reverse := fun h => hnot (List.mem_reverse.1 h)
    refine ⟨splitLines bs.reverse, as.reverse, ?_, ?_, hopening, fun p _ => ?_⟩
    · rw [List.append_assoc, List.cons_append, splitLines_append]
    · rw [length_splitLines, List.count_append, List.count_cons_self,
        List.count_eq_zero_of_not_mem hopening, Nat.zero_add]
    · rw [Pos.afterAll_append]
      show (Pos.afterAll (Pos.after _ '\n') as.reverse).col = _
      rw [Pos.afterAll_of_not_mem _ hopening, Pos.after, if_pos rfl]
      exact Nat.zero_add _
  · refine ⟨[], before, rfl, (List.count_eq_zero_of_not_mem hmem).symm, hmem, fun p hp => ?_⟩
    rw [Pos.afterAll_of_not_mem _ hmem, hp]
    exact Nat.zero_add _

/-- **The line that holds a place**: so many characters as the column says, and what stands behind the
place, without the carriage returns at the end. -/
theorem exists_line_eq {before rest : List Char} (h : s.text = before ++ rest) :
    ∃ opening : List Char, opening.length = (s.start.afterAll before).col ∧
      s.line (s.start.afterAll before).line =
        Text.dropTrailing (· == '\r') (opening ++ rest.takeWhile (· != '\n')) := by
  obtain ⟨done, opening, hsplit, hdone, hopening, hcol⟩ := exists_opening before rest
  have hall : ∀ c ∈ opening, (c != '\n') = true := by
    intro c hc
    rw [bne_iff_ne]
    rintro rfl
    exact hopening hc
  have hindex : ((s.start.afterAll before).line - s.firstLine).toNat = done.length := by
    rw [Pos.line_afterAll, hdone]
    show ((s.firstLine + _ : Int) - s.firstLine).toNat = _
    omega
  have hline : (splitLines s.text)[done.length]? =
      some (opening ++ rest.takeWhile (· != '\n')) := by
    rw [h, hsplit, List.getElem?_append_right (Nat.le_refl _), Nat.sub_self, ← List.head?_eq_getElem?,
      head?_splitLines, List.takeWhile_append_of_pos hall]
  refine ⟨opening, (hcol s.start rfl).symm, ?_⟩
  have hstart : ¬ (s.start.afterAll before).line < s.firstLine := by
    rw [Pos.line_afterAll]
    show ¬ (s.firstLine + _ : Int) < s.firstLine
    omega
  rw [line, if_neg hstart, hindex, hline]

/-- A piece that its line shows whole. -/
theorem exists_line_of_whole {before piece rest : List Char} (h : s.text = before ++ (piece ++ rest))
    (hpiece : Text.Whole piece) :
    ∃ opening : List Char, opening.length = (s.start.afterAll before).col ∧
      s.line (s.start.afterAll before).line = opening ++ (piece ++ Text.firstLine rest) := by
  obtain ⟨hline, front, c, rfl, hreturn⟩ := hpiece
  have hall : ∀ d ∈ front ++ [c], (d != '\n') = true := by
    intro d hd
    rw [bne_iff_ne]
    rintro rfl
    exact hline hd
  obtain ⟨opening, hlength, heq⟩ := exists_line_eq h
  refine ⟨opening, hlength, ?_⟩
  rw [heq, List.takeWhile_append_of_pos hall, List.append_assoc front, List.singleton_append,
    ← List.append_assoc, Text.dropTrailing_append_cons (by simpa using hreturn),
    List.append_assoc, List.append_assoc]
  rfl

end Source

/-! ## Diagnostics -/

/-- **A diagnostic points at `piece`**: it shows the line it was found in, and `piece` is what stands in
the columns it points at. -/
structure Diagnostic.PointsAt (d : Diagnostic) (s : Source) (piece : List Char) : Prop where
  excerpt_eq : d.excerpt = String.ofList (s.line d.line)
  start_nonneg : 0 ≤ d.start
  start_lt : d.start < d.stop
  stop_le : d.stop ≤ d.excerpt.length
  slice_eq : Text.slice d.excerpt.toList d.start d.stop = piece

theorem Diagnostic.located_pointsAt {s : Source} {p : Pos} {opening piece after : List Char}
    (category : Category) (message : Message) (hcol : opening.length = p.col)
    (hline : s.line p.line = opening ++ (piece ++ after)) (hpiece : piece ≠ []) :
    (located category message (s.line p.line) p.line p.col piece.length).PointsAt s piece := by
  have hlength := List.length_pos_of_ne_nil hpiece
  have hstop : ((p.col : Int) + max piece.length 1 : Int) = opening.length + piece.length := by
    rw [hcol]
    omega
  refine ⟨rfl, Int.natCast_nonneg _, ?_, ?_, ?_⟩
  · show (p.col : Int) < p.col + max piece.length 1
    omega
  · show ((p.col : Int) + max piece.length 1 : Int) ≤ (String.ofList (s.line p.line)).length
    rw [hstop, String.length_ofList, hline, List.length_append, List.length_append]
    omega
  · show Text.slice (String.ofList (s.line p.line)).toList p.col (p.col + max piece.length 1 : Int) = _
    rw [hstop, ← hcol, String.toList_ofList, hline]
    exact Text.slice_append opening piece after

/-- What is wrong about text that is no token: all of it.  A string that is never closed may go on over
many lines; of it, what stands in its first line. -/
def Token.offence (t : Token) : List Char :=
  if t.text.toList.head? = some '\x22' then Text.firstLine t.text.toList else t.text.toList

/-- **A diagnostic reports a token**: it stands at its place and points at what is wrong about it.  Of a
string that is never closed this is the rest of the line. -/
structure Source.Reports (s : Source) (t : Token) (d : Diagnostic) : Prop where
  category_eq : d.category = .lexical
  line_eq : d.line = t.line
  start_eq : d.start = t.col
  points : d.PointsAt s t.offence
  rest_of_line : t.text.toList.head? = some '\x22' → d.stop = d.excerpt.length

namespace Source

variable {s : Source} {before rest after : List Char} {c : Char}

/-! ### Lexeme by lexeme -/

/-- A diagnostic at a piece that its line shows whole. -/
theorem located_pointsAt {piece : List Char} (category : Category) (message : Message)
    (h : s.text = before ++ (piece ++ rest)) (hpiece : Text.Whole piece) :
    (Diagnostic.located category message (s.line (s.start.afterAll before).line)
      (s.start.afterAll before).line (s.start.afterAll before).col piece.length).PointsAt s piece := by
  obtain ⟨opening, hcol, hline⟩ := exists_line_of_whole h hpiece
  exact Diagnostic.located_pointsAt category message hcol hline hpiece.ne_nil

/-- Text that is no token, but for a string that is never closed. -/
theorem reports_piece {piece : List Char} (message : Message) (h : s.text = before ++ (piece ++ rest))
    (hpiece : Text.Whole piece) (hquote : piece.head? ≠ some '\x22') :
    s.Reports
      { kind := .illegal, text := String.ofList piece, line := (s.start.afterAll before).line,
        col := (s.start.afterAll before).col }
      (s.lexicalAt (s.start.afterAll before) message piece.length) := by
  rw [← String.toList_ofList (l := piece)] at hquote
  refine ⟨rfl, rfl, rfl, ?_, fun hopen => absurd hopen hquote⟩
  rw [Token.offence, if_neg hquote, String.toList_ofList]
  exact located_pointsAt _ _ h hpiece

theorem reports_openString {body : List Char} (h : s.text = before ++ '\x22' :: body) :
    s.Reports
      { kind := .illegal, text := String.ofList ('\x22' :: body),
        line := (s.start.afterAll before).line, col := (s.start.afterAll before).col }
      (s.lexicalAt (s.start.afterAll before) [.plain "unterminated string literal"]
        ((s.line (s.start.afterAll before).line).length - (s.start.afterAll before).col)) := by
  have hfirst : Text.firstLine ('\x22' :: body) = '\x22' :: Text.firstLine body :=
    Text.firstLine_cons (by decide) (by decide) body
  have hopening : Text.Whole ['\x22'] := ⟨by decide, [], '\x22', rfl, by decide⟩
  have hquote : s.text = before ++ (['\x22'] ++ body) := h
  obtain ⟨opening, hcol, hline⟩ := exists_line_of_whole hquote hopening
  rw [List.singleton_append, ← hfirst] at hline
  have hlength : (s.line (s.start.afterAll before).line).length - (s.start.afterAll before).col =
      (Text.firstLine ('\x22' :: body)).length := by
    rw [hline, List.length_append, hcol, Nat.add_sub_cancel_left]
  have hne : Text.firstLine ('\x22' :: body) ≠ [] := by
    rw [hfirst]
    exact List.cons_ne_nil _ _
  have hpos := List.length_pos_of_ne_nil hne
  have hhead : (String.ofList ('\x22' :: body)).toList.head? = some '\x22' := by
    rw [String.toList_ofList]
    rfl
  rw [hlength]
  refine ⟨rfl, rfl, rfl, ?_, fun _ => ?_⟩
  · rw [Token.offence, if_pos hhead, String.toList_ofList]
    have hend : s.line (s.start.afterAll before).line =
        opening ++ (Text.firstLine ('\x22' :: body) ++ []) := by
      rw [List.append_nil]
      exact hline
    exact Diagnostic.located_pointsAt _ _ hcol hend hne
  · show ((s.start.afterAll before).col + max (Text.firstLine ('\x22' :: body)).length 1 : Int) =
      (String.ofList (s.line (s.start.afterAll before).line)).length
    rw [String.length_ofList, hline, List.length_append, hcol]
    omega

/-- **Text that is no token, and nothing else, is reported**, and as what it is. -/
theorem reports_of_mem_lexemes {placed : Pos × Lexeme} (h : placed ∈ s.lexemes) :
    Option.Rel s.Reports ((Lexeme.tokenAt? placed).filter fun t => t.is .illegal)
      (s.lexicalError? placed) := by
  have hmem := Lexeme.mem_of_mem_place h
  obtain ⟨before, c, rest, htext, rfl⟩ := Lexeme.exists_of_mem_place_cut h
  have hspelled := Lexeme.spelled_next c rest
  have hproper := Lexeme.isProper_of_mem_cut hmem
  rw [← Lexeme.text_next c rest] at htext
  -- What is no reported lexeme stands for no illegal token.
  have hlegal : ∀ l : Lexeme, l.IsProper → l.isLegal →
      (Lexeme.tokenAt? (s.start.afterAll before, l)).filter (fun t => t.is .illegal) = none := by
    intro l hl hlegal
    refine Option.filter_eq_none_iff.2 fun t ht hillegal => ?_
    obtain ⟨kind, text, htoken, rfl⟩ := Lexeme.tokenAt?_eq_some ht
    exact (hl kind text htoken).2 hlegal (by simpa [Token.is] using hillegal)
  generalize (Lexeme.next c rest).1 = l at *
  generalize (Lexeme.next c rest).2 = after at *
  cases l with
  | stray d =>
    obtain ⟨hgap, hline, hquote⟩ := hspelled
    have hpiece : s.text = before ++ ([d] ++ after) := htext
    refine .some (reports_piece _ hpiece ⟨?_, [], d, rfl, ?_⟩ ?_)
    · simpa using Ne.symm hline
    · rintro rfl
      cases hgap
    · simpa using hquote
  | numberedWord text =>
    obtain ⟨hne, hall⟩ := hspelled
    refine .some (reports_piece _ htext (Lexeme.whole_of_all hne hall) fun hquote => ?_)
    have hword := List.all_eq_true.1 hall _ (List.mem_of_mem_head? hquote)
    cases hword
  | openString body =>
    obtain rfl : after = [] := hspelled
    rw [List.append_nil] at htext
    exact .some (reports_openString htext)
  | _ =>
    rw [hlegal _ hproper rfl]
    exact .none

/-- A comment that is never closed is warned about where it starts. -/
theorem warns_of_mem_lexemes {placed : Pos × Lexeme} {d : Diagnostic} (h : placed ∈ s.lexemes)
    (hd : s.lexicalWarning? placed = some d) : d.category = .lexical ∧ d.PointsAt s ['/', '*'] := by
  obtain ⟨before, c, rest, htext, rfl⟩ := Lexeme.exists_of_mem_place_cut h
  rw [← Lexeme.text_next c rest] at htext
  generalize (Lexeme.next c rest).1 = l at *
  cases l with
  | openComment body =>
    obtain rfl := Option.some.inj hd
    refine ⟨rfl, ?_⟩
    have hopening : s.text = before ++ (['/', '*'] ++ (body ++ (Lexeme.next c rest).2)) := htext
    exact located_pointsAt _ _ hopening ⟨by decide, ['/'], '*', rfl, by decide⟩
  | _ => cases hd

/-! ### All of them -/

/-- No two diagnostics of the scanner stand at one place. -/
theorem pairwise_lexicalErrors (s : Source) :
    s.lexicalErrors.Pairwise fun d e => ¬ (d.line = e.line ∧ d.start = e.start) := by
  refine List.pairwise_filterMap.2 (s.pairwise_lexemes.imp fun {a b} hab d hd e he => ?_)
  have hplace : ∀ {placed : Pos × Lexeme} {d : Diagnostic}, s.lexicalError? placed = some d →
      d.line = placed.1.line ∧ d.start = placed.1.col := by
    rintro ⟨p, l⟩ d hd
    cases l with
    | openString | numberedWord | stray =>
      obtain rfl := Option.some.inj hd
      exact ⟨rfl, rfl⟩
    | _ => cases hd
  obtain ⟨hline, hstart⟩ := hplace hd
  obtain ⟨hline', hstart'⟩ := hplace he
  rintro ⟨hlines, hstarts⟩
  rw [hline, hline'] at hlines
  rw [hstart, hstart'] at hstarts
  unfold Pos.Before at hab
  omega

/-- What is looked up where a diagnostic was recorded is that diagnostic, whatever the text would be
that one is made up for. -/
theorem lexicalErrorAt_eq {d : Diagnostic} (h : d ∈ s.lexicalErrors) (text : String) :
    s.lexicalErrorAt d.line d.start text = d := by
  have : Std.Symm fun d e : Diagnostic => ¬ (d.line = e.line ∧ d.start = e.start) :=
    ⟨fun _ _ h h' => h ⟨h'.1.symm, h'.2.symm⟩⟩
  have hunique : ∀ e ∈ s.lexicalErrors, (e.line == d.line && e.start == d.start) = true → e = d := by
    intro e he hsame
    by_contra hne
    refine s.pairwise_lexicalErrors.forall he h hne ?_
    simpa using hsame
  have hfind : (s.lexicalErrors.find? fun e => e.line == d.line && e.start == d.start) = some d := by
    cases hfound : s.lexicalErrors.find? fun e => e.line == d.line && e.start == d.start with
    | none => exact absurd (List.find?_eq_none.1 hfound d h) (by simp)
    | some e =>
      have hsame := List.find?_some hfound
      rw [hunique e (List.mem_of_find?_eq_some hfound) hsame]
  rw [lexicalErrorAt, hfind]
  rfl

/-- **The scanner's diagnostics are those of the illegal tokens**, one for each, in order, and point at
what is wrong.  No two of these tokens stand at one place, so looking them up gives the same list, and
never a diagnostic that is made up.  A warning points at the start of a comment. -/
theorem lexicalErrors_report (s : Source) :
    List.Forall₂ s.Reports (s.tokens.filter fun t => t.is .illegal) s.lexicalErrors ∧
    ((s.tokens.filter fun t => t.is .illegal).Pairwise fun t u => (t.line, t.col) ≠ (u.line, u.col)) ∧
    (∀ text : Token → String, (s.tokens.filter fun t => t.is .illegal).map
      (fun t => s.lexicalErrorAt t.line t.col (text t)) = s.lexicalErrors) ∧
    ∀ d ∈ s.warnings, d.category = .lexical ∧ d.PointsAt s ['/', '*'] := by
  have hreports : List.Forall₂ s.Reports (s.tokens.filter fun t => t.is .illegal) s.lexicalErrors := by
    have hend : [s.endToken].filter (fun t => t.is .illegal) = [] := rfl
    rw [tokens, List.filter_append, hend, List.append_nil, List.filter_filterMap]
    have hsame : List.Forall₂ (fun a b => a = b ∧ a ∈ s.lexemes) s.lexemes s.lexemes :=
      List.forall₂_same.2 fun placed h => ⟨rfl, h⟩
    refine List.rel_filterMap (fun a b hab => ?_) hsame
    obtain ⟨rfl, hmem⟩ := hab
    exact reports_of_mem_lexemes hmem
  refine ⟨hreports, ?_, fun text => ?_, fun d hd => ?_⟩
  · refine (s.pairwise_tokens.filter _).imp fun {t u} h heq => ?_
    obtain ⟨hline, hcol⟩ := Prod.mk.inj heq
    exact h.ne (by rw [Token.pos, Token.pos, hline, hcol])
  · symm
    rw [← List.forall₂_eq_eq_eq, List.forall₂_map_right_iff]
    refine ((List.forall₂_and_left _ _).2 ⟨fun d hd => hd, hreports.flip⟩).imp ?_
    rintro d t ⟨hd, h : s.Reports t d⟩
    rw [← h.line_eq, ← h.start_eq]
    exact (lexicalErrorAt_eq hd _).symm
  · obtain ⟨placed, hplaced, hwarning⟩ := List.mem_filterMap.1 hd
    exact warns_of_mem_lexemes hplaced hwarning

end Source

end LimLang
