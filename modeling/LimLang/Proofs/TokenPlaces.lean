import LimLang.Proofs.Excerpts
import LimLang.Proofs.LooseGroups
import LimLang.Proofs.Reparsing

/-! # Where tokens stand makes no difference

Two texts may have the same tokens at different places.  The parser looks at kinds and texts only, so it
builds the same tree of both and finds the same wrong.  What it finds is listed by places, though, among
what the scanner has found, and so is the report of a text.

Places are compared through *ranks*: the rank of a place is how many tokens stand before it.  The tokens
of a text have their indices for ranks (`Source.map_rank_tokens`), so a report is in the order of ranks
(`Source.map_saying_inOrder`).  It remains that the parser finds something wrong at tokens of the same
ranks, not just at tokens that look the same.  For this the tokens of both texts are lined up by their
ranks, behind all lines of the two (`Source.lined`).  Then the two lists are one and the same, and by way
of it the tokens at which something is found correspond (`Source.map_rank_findings`).
-/
namespace LimLang

/-! ## Ranks -/

instance (p q : Pos) : Decidable (p.Before q) :=
  inferInstanceAs (Decidable (_ ∨ _))

namespace Source

variable {s t : Source} {u v : Token}

/-- **The rank of a place**: how many tokens stand before it. -/
def rank (s : Source) (p : Pos) : Nat :=
  s.tokens.countP fun u => u.pos.Before p

/-- Of tokens that stand one behind the other, each has its index for a rank. -/
theorem map_countP_before {ts : List Token} (h : ts.Pairwise fun t u => t.pos.Before u.pos) :
    ts.map (fun u => ts.countP fun v => v.pos.Before u.pos) = List.range ts.length := by
  induction ts using List.reverseRecOn with
  | nil => rfl
  | append_singleton ts u ih =>
    obtain ⟨hts, -, hlast⟩ := List.pairwise_append.1 h
    have hbefore : ∀ t ∈ ts, t.pos.Before u.pos := fun t ht => hlast t ht u List.mem_cons_self
    have hnot : ∀ {t : Token}, u.pos = t.pos ∨ t.pos.Before u.pos → ¬ u.pos.Before t.pos := by
      rintro t (heq | hlt) hgt
      · exact hgt.ne heq
      · exact (hlt.trans hgt).ne rfl
    rw [List.map_append, List.length_append, List.length_singleton, List.range_succ, ← ih hts]
    congr 1
    · refine List.map_congr_left fun t ht => ?_
      rw [List.countP_append, List.countP_singleton, if_neg, Nat.add_zero]
      simpa using hnot (.inr (hbefore t ht))
    · rw [List.map_singleton, List.countP_append, List.countP_singleton, if_neg, Nat.add_zero,
        List.countP_eq_length.2]
      · simpa using hbefore
      · simpa using hnot (.inl rfl)

theorem map_rank_tokens (s : Source) :
    s.tokens.map (fun u => s.rank u.pos) = List.range s.tokens.length :=
  map_countP_before s.pairwise_tokens

theorem rank_getElem {i : Nat} (h : i < s.tokens.length) : s.rank s.tokens[i].pos = i := by
  have hmap := s.map_rank_tokens
  have := congrArg (fun l => l[i]?) hmap
  simpa [h] using this

/-- **Tokens stand in the order of their ranks.** -/
theorem rank_le_iff (hu : u ∈ s.tokens) (hv : v ∈ s.tokens) :
    s.rank u.pos ≤ s.rank v.pos ↔ ¬ v.pos.Before u.pos := by
  obtain ⟨i, hi, rfl⟩ := List.getElem_of_mem hu
  obtain ⟨j, hj, rfl⟩ := List.getElem_of_mem hv
  have hpairs := List.pairwise_iff_getElem.1 s.pairwise_tokens
  rw [rank_getElem, rank_getElem]
  constructor
  · intro hle hbefore
    rcases Nat.lt_or_eq_of_le hle with hlt | rfl
    · exact ((hpairs i j hi hj hlt).trans hbefore).ne rfl
    · exact hbefore.ne rfl
  · intro hnot
    by_contra hlt
    exact hnot (hpairs j i hj hi (by omega))

/-- The tokens of a text by rank, and what they say. -/
def ranked (s : Source) : List (Nat × Kind × List Char) :=
  s.tokens.map fun u => (s.rank u.pos, u.contents)

/-- **Ranks are told by what the tokens say.** -/
theorem ranked_eq (h : s.tokens.map Token.contents = t.tokens.map Token.contents) :
    s.ranked = t.ranked := by
  have hranked : ∀ s : Source, s.ranked =
      (List.range (s.tokens.map Token.contents).length).zip (s.tokens.map Token.contents) := by
    intro s
    rw [List.length_map, ← s.map_rank_tokens, List.zip_map']
    rfl
  rw [hranked, hranked, h]

end Source

/-! ## Tokens by their ranks -/

/-- Tokens are seen at other places than where they stand. -/
def Sight.moved (f : Pos → Pos) : Sight where
  see u := { kind := u.kind, text := u.text, line := (f u.pos).line, col := (f u.pos).col }
  kind_see _ := rfl
  text_see _ := rfl
  see_at t u kind text h := by
    simp only [Token.mk.injEq] at h ⊢
    exact ⟨trivial, trivial, h.2.2⟩

namespace Source

variable {s t : Source} {limits : Limits}

/-- A token that stands at the start of a line, by the number of the line from `base` on. -/
def lineUp (base : Int) : Nat × Kind × List Char → Token
  | (n, kind, text) => { kind, text := String.ofList text, line := base + n, col := 0 }

/-- The tokens before line `base` are seen at the starts of lines from there on, in their order. -/
def lined (s : Source) (base : Int) : Sight :=
  .moved fun p => if p.line < base then ⟨base + s.rank p, 0⟩ else p

theorem see_lined {base : Int} {u : Token} (h : u.line < base) :
    (s.lined base).see u = lineUp base (s.rank u.pos, u.contents) := by
  simp [lined, Sight.moved, lineUp, Token.contents, Token.pos, h]

/-- What stands from line `base` on is left alone. -/
theorem see_lined_of_le {base : Int} {u : Token} (h : base ≤ u.line) :
    (s.lined base).see u = u := by
  have hnot : ¬ u.line < base := by omega
  simp [lined, Sight.moved, Token.pos, hnot]

theorem map_see_lined {base : Int} (h : ∀ u ∈ s.tokens, u.line < base) :
    s.tokens.map (s.lined base).see = s.ranked.map (lineUp base) := by
  rw [ranked, List.map_map]
  exact List.map_congr_left fun u hu => see_lined (h u hu)

theorem le_line_lineUp (base : Int) (x : Nat × Kind × List Char) : base ≤ (lineUp base x).line := by
  show base ≤ base + x.1
  omega

theorem line_le_stop {u : Token} (h : u ∈ s.tokens) : u.line ≤ s.stop.line := by
  rcases List.mem_append.1 h with hword | hend
  · obtain ⟨placed, hplaced, -, hpos⟩ := exists_of_mem_words hword
    have hbefore := before_stop hplaced
    rw [← hpos] at hbefore
    rcases hbefore with hlt | ⟨heq, -⟩
    · exact Int.le_of_lt hlt
    · exact Int.le_of_eq heq
  · rw [List.mem_singleton.1 hend]
    exact Int.le_refl _

theorem getLast?_ranked (s : Source) :
    s.ranked.getLast? = some (s.rank s.endToken.pos, s.endToken.contents) := by
  rw [ranked, tokens, List.map_append, List.map_singleton, List.getLast?_concat]

/-- The parser finds the same wrong with the tokens of a text if they are lined up. -/
theorem exists_program_lined {base : Int} (hbase : ∀ u ∈ s.tokens, u.line < base) {tree : Node}
    {u : ParseState} (hrun : Parse.program limits (Parse.initial s.tokens s.endToken) = .ok tree u) :
    ∃ tree' u', Parse.program limits (Parse.initial (s.ranked.map (lineUp base))
        (lineUp base (s.rank s.endToken.pos, s.endToken.contents))) = .ok tree' u' ∧
      u.findings.map (fun f => s.rank f.token.pos) =
        u'.findings.map fun f => (f.token.line - base).toNat := by
  have hend : s.endToken ∈ s.tokens := by simp [tokens]
  have hsee := map_see_lined hbase
  have hfixed : ∀ x, (s.lined base).see (lineUp base x) = lineUp base x := fun x =>
    see_lined_of_le (le_line_lineUp base x)
  have htokens : s.tokens.map (s.lined base).see =
      (s.ranked.map (lineUp base)).map (s.lined base).see := by
    rw [hsee, List.map_map]
    exact List.map_congr_left fun x _ => (hfixed x).symm
  have hlast : (s.lined base).see s.endToken = (s.lined base).see
      (lineUp base (s.rank s.endToken.pos, s.endToken.contents)) := by
    rw [hfixed, see_lined (hbase _ hend)]
  obtain ⟨tree', u', hrun', -, hfindings⟩ :=
    Parse.program_look htokens hlast rfl (Nat.le_refl _) hrun
  refine ⟨tree', u', hrun', ?_⟩
  have hlines := congrArg (List.map fun f => (f.token.line - base).toNat) hfindings
  rw [List.map_map, List.map_map] at hlines
  have hranks : ∀ f ∈ u.findings,
      s.rank f.token.pos = ((f.mapTokens (s.lined base).see).token.line - base).toNat := by
    intro f hf
    have hmem := mem_tokens_of_program hrun f hf
    show _ = (((s.lined base).see f.token).line - base).toNat
    rw [see_lined (hbase _ hmem)]
    show _ = (base + s.rank f.token.pos - base).toNat
    omega
  have hlined : ∀ f ∈ u'.findings, base ≤ f.token.line := by
    refine forall_findings (P := fun v => base ≤ v.line) hrun' (fun v hv => ?_)
      (le_line_lineUp base _)
    obtain ⟨x, -, rfl⟩ := List.mem_map.1 hv
    exact le_line_lineUp base x
  calc u.findings.map (fun f => s.rank f.token.pos)
      = u.findings.map ((fun f => (f.token.line - base).toNat) ∘
          Finding.mapTokens (s.lined base).see) := List.map_congr_left hranks
    _ = u'.findings.map ((fun f => (f.token.line - base).toNat) ∘
          Finding.mapTokens (s.lined base).see) := hlines
    _ = u'.findings.map fun f => (f.token.line - base).toNat := by
        refine List.map_congr_left fun f hf => ?_
        show (((s.lined base).see f.token).line - base).toNat = _
        rw [see_lined_of_le (hlined f hf)]

/-- **What is found wrong is found at tokens of the same ranks.** -/
theorem map_rank_findings (h : s.tokens.map Token.contents = t.tokens.map Token.contents)
    {tree tree' : Node} {u u' : ParseState}
    (hrun : Parse.program limits (Parse.initial s.tokens s.endToken) = .ok tree u)
    (hrun' : Parse.program limits (Parse.initial t.tokens t.endToken) = .ok tree' u') :
    u.findings.map (fun f => s.rank f.token.pos) = u'.findings.map fun f => t.rank f.token.pos := by
  have hranked := ranked_eq h
  have hlast : (s.rank s.endToken.pos, s.endToken.contents) =
      (t.rank t.endToken.pos, t.endToken.contents) := by
    have hlast := congrArg List.getLast? hranked
    rwa [getLast?_ranked, getLast?_ranked, Option.some.injEq] at hlast
  have hbase : ∀ v ∈ s.tokens, v.line < max s.stop.line t.stop.line + 1 := fun v hv => by
    have := line_le_stop hv
    omega
  have hbase' : ∀ v ∈ t.tokens, v.line < max s.stop.line t.stop.line + 1 := fun v hv => by
    have := line_le_stop hv
    omega
  obtain ⟨lined, v, hlined, hranks⟩ := exists_program_lined hbase hrun
  obtain ⟨lined', v', hlined', hranks'⟩ := exists_program_lined hbase' hrun'
  rw [hranked, hlast, hlined'] at hlined
  obtain ⟨rfl, rfl⟩ := EStateM.Result.ok.inj hlined
  rw [hranks, hranks']

end Source

/-! ## What is said about illegal tokens -/

namespace Lexeme

/-- What text that is no token starts with, where its spelling does not say so. -/
def Led : Lexeme → Prop
  | numberedWord text => ∃ c cs, text = c :: cs ∧ isDigit c
  | stray c => isDigit c = false
  | _ => True

theorem led_next (c : Char) (rest : List Char) : (next c rest).1.Led := by
  unfold next
  split
  · trivial
  split
  · trivial
  split
  · next found h =>
    split at h
    · unfold comment? at h
      split at h
      · obtain rfl := Option.some.inj h
        trivial
      · split at h <;> obtain rfl := Option.some.inj h <;> trivial
      · cases h
    · cases h
  split
  · next found h =>
    unfold symbol? at h
    split at h
    · split at h
      · obtain rfl := Option.some.inj h
        trivial
      · obtain ⟨kind, -, rfl⟩ := Option.map_eq_some_iff.1 h
        trivial
    · obtain ⟨kind, -, rfl⟩ := Option.map_eq_some_iff.1 h
      trivial
  split
  · unfold stringFrom
    split <;> trivial
  split
  · trivial
  split
  · next hdigit =>
    unfold numberFrom
    dsimp only
    split
    · exact ⟨_, _, rfl, hdigit⟩
    · trivial
  · next hdigit => exact Bool.eq_false_iff.2 hdigit

end Lexeme

/-- **What is wrong with an illegal token**, told by its text. -/
def Token.complaint (u : Token) : Message :=
  match u.text.toList with
  | [] => []
  | c :: _ =>
      if c = '\x22' then [.plain "unterminated string literal"]
      else if Lexeme.isDigit c then
        [.plain "identifiers cannot start with a number: '", .strong u.text, .plain "'"]
      else [.plain "illegal character '", .strong u.text, .plain "'"]

namespace Diagnostic

/-- Where a diagnostic points. -/
def pos (d : Diagnostic) : Pos :=
  ⟨d.line, d.start.toNat⟩

/-- **A diagnostic is about a token**: it points to where the token stands. -/
structure About (d : Diagnostic) (u : Token) : Prop where
  line_eq : d.line = u.line
  start_eq : d.start = u.col

theorem About.pos_eq {d : Diagnostic} {u : Token} (h : d.About u) : d.pos = u.pos := by
  rw [pos, Token.pos, h.line_eq, h.start_eq, Int.toNat_natCast]

end Diagnostic

theorem Source.Reports.about {s : Source} {u : Token} {d : Diagnostic} (h : s.Reports u d) :
    d.About u :=
  ⟨h.line_eq, h.start_eq⟩

theorem Finding.diagnostic_about (f : Finding) (s : Source) : (f.diagnostic s).About f.token :=
  ⟨rfl, rfl⟩

/-- What is said about which token: its rank, the category and the message. -/
def Source.saying (s : Source) (d : Diagnostic) : Nat × Category × Message :=
  (s.rank d.pos, d.category, d.message)

namespace Source

variable {s t : Source} {limits : Limits}

/-- What the scanner says about a token is told by the token's text. -/
theorem message_eq_complaint {placed : Pos × Lexeme} {d : Diagnostic} {u : Token}
    (h : placed ∈ s.lexemes) (hd : s.lexicalError? placed = some d)
    (hu : Lexeme.tokenAt? placed = some u) : d.message = u.complaint := by
  obtain ⟨before, c, rest, -, rfl⟩ := Lexeme.exists_of_mem_place_cut h
  have hspelled := Lexeme.spelled_next c rest
  have hled := Lexeme.led_next c rest
  generalize (Lexeme.next c rest).1 = l at *
  cases l with
  | stray c =>
    obtain rfl := Option.some.inj hd
    obtain rfl := Option.some.inj hu
    have hdigit : Lexeme.isDigit c = false := hled
    simp [Token.complaint, hspelled.2.2, hdigit, lexicalAt, Diagnostic.located]
  | numberedWord text =>
    obtain rfl := Option.some.inj hd
    obtain rfl := Option.some.inj hu
    obtain ⟨c, cs, rfl, hdigit⟩ := hled
    have hquote : c ≠ '\x22' := by
      rintro rfl
      cases hdigit
    simp [Token.complaint, hquote, hdigit, lexicalAt, Diagnostic.located]
  | openString body =>
    obtain rfl := Option.some.inj hd
    obtain rfl := Option.some.inj hu
    simp [Token.complaint, lexicalAt, Diagnostic.located]
  | _ => cases hd

/-- The scanner's diagnostics, told by the illegal tokens. -/
theorem map_saying_lexicalErrors (s : Source) :
    s.lexicalErrors.map s.saying = (s.tokens.filter fun u => u.is .illegal).map fun u =>
      (s.rank u.pos, Category.lexical, u.complaint) := by
  have hend : [s.endToken].filter (fun u => u.is .illegal) = [] := rfl
  rw [tokens, List.filter_append, hend, List.append_nil, lexicalErrors, List.map_filterMap,
    List.filter_filterMap, List.map_filterMap]
  refine List.filterMap_congr fun placed hplaced => ?_
  have hreports := reports_of_mem_lexemes hplaced
  generalize hu : (Lexeme.tokenAt? placed).filter (fun u => u.is .illegal) = token at hreports
  generalize hd : s.lexicalError? placed = error at hreports
  cases hreports with
  | none => rfl
  | @some u d hreport =>
    have hmessage := message_eq_complaint hplaced hd (Option.filter_eq_some_iff.1 hu).1
    rw [Option.map_some, Option.map_some, saying, hreport.about.pos_eq, hreport.category_eq,
      hmessage]

/-- The scanner says the same about tokens that say the same. -/
theorem map_saying_lexicalErrors_eq
    (h : s.tokens.map Token.contents = t.tokens.map Token.contents) :
    s.lexicalErrors.map s.saying = t.lexicalErrors.map t.saying := by
  have hillegal : ∀ s : Source, s.lexicalErrors.map s.saying =
      (s.ranked.filter fun x => x.2.1 == .illegal).map fun x =>
        (x.1, Category.lexical, (lineUp 0 x).complaint) := by
    intro s
    rw [map_saying_lexicalErrors, ranked, List.filter_map, List.map_map]
    refine List.map_congr_left fun u _ => ?_
    simp [Token.complaint, lineUp, Token.contents]
  rw [hillegal, hillegal, ranked_eq h]

end Source

/-! ## What is said about malformed statements -/

namespace Sight

variable (v : Sight)

theorem description_see (u : Token) : (v.see u).description = u.description := by
  unfold Token.description
  rw [v.kind_see, v.text_see]

theorem message_mapTokens (violation : Violation) :
    (violation.mapTokens v.see).message = violation.message := by
  cases violation <;> simp only [Violation.mapTokens, Violation.message, v.description_see]

end Sight

namespace Source

variable {s t : Source} {limits : Limits}

/-- The parser says the same about tokens that say the same. -/
theorem map_saying_findings (h : s.tokens.map Token.contents = t.tokens.map Token.contents)
    {tree tree' : Node} {u u' : ParseState}
    (hrun : Parse.program limits (Parse.initial s.tokens s.endToken) = .ok tree u)
    (hrun' : Parse.program limits (Parse.initial t.tokens t.endToken) = .ok tree' u')
    (hfindings : u.findings.map (Finding.mapTokens Sight.placeless.see) =
      u'.findings.map (Finding.mapTokens Sight.placeless.see)) :
    (u.findings.map fun f => f.diagnostic s).map s.saying =
      (u'.findings.map fun f => f.diagnostic t).map t.saying := by
  have hmessages : u.findings.map (fun f => f.violation.message) =
      u'.findings.map fun f => f.violation.message := by
    have hmessages := congrArg (List.map fun f => f.violation.message) hfindings
    rw [List.map_map, List.map_map] at hmessages
    simpa only [Function.comp_def, Finding.mapTokens, Sight.message_mapTokens] using hmessages
  have hzip : ∀ (s : Source) (fs : List Finding), (fs.map fun f => f.diagnostic s).map s.saying =
      ((fs.map fun f => s.rank f.token.pos).zip (fs.map fun f => f.violation.message)).map
        fun x => (x.1, Category.syntactic, x.2) := by
    intro s fs
    rw [List.zip_map', List.map_map, List.map_map]
    refine List.map_congr_left fun f _ => ?_
    show s.saying (f.diagnostic s) = (s.rank f.token.pos, Category.syntactic, f.violation.message)
    rw [saying, (f.diagnostic_about s).pos_eq]
    rfl
  rw [hzip, hzip, hmessages, map_rank_findings h hrun hrun']

/-! ## The order of a report -/

/-- Diagnostics stand in the order of the tokens they are about. -/
theorem notAfter_eq {d e : Diagnostic} {u v : Token} (hd : d.About u) (he : e.About v)
    (hu : u ∈ s.tokens) (hv : v ∈ s.tokens) :
    d.notAfter e = decide ((s.saying d).1 ≤ (s.saying e).1) := by
  rw [Bool.eq_iff_iff, decide_eq_true_iff, saying, saying, hd.pos_eq, he.pos_eq,
    rank_le_iff hu hv, Diagnostic.notAfter_iff, hd.line_eq, he.line_eq, hd.start_eq, he.start_eq]
  show _ ↔ ¬ (v.line < u.line ∨ v.line = u.line ∧ v.col < u.col)
  omega

/-- **A report is in the order of ranks**, and what has one rank stays in order. -/
theorem map_saying_inOrder {ds : List Diagnostic} (h : ∀ d ∈ ds, ∃ u ∈ s.tokens, d.About u) :
    (Diagnostic.inOrder ds).map s.saying =
      (ds.map s.saying).mergeSort fun a b => decide (a.1 ≤ b.1) := by
  refine List.map_mergeSort fun d hd e he => ?_
  obtain ⟨u, hu, hdu⟩ := h d hd
  obtain ⟨v, hv, hev⟩ := h e he
  exact notAfter_eq hdu hev hu hv

/-- Whatever is reported is about a token. -/
theorem exists_about {tree : Node} {u : ParseState}
    (hrun : Parse.program limits (Parse.initial s.tokens s.endToken) = .ok tree u) :
    ∀ d ∈ s.lexicalErrors ++ u.findings.map (fun f => f.diagnostic s),
      ∃ v ∈ s.tokens, d.About v := by
  refine List.forall_mem_append.2 ⟨fun d hd => ?_, fun d hd => ?_⟩
  · obtain ⟨placed, hplaced, hd⟩ := List.mem_filterMap.1 hd
    have hreports := reports_of_mem_lexemes hplaced
    rw [hd] at hreports
    generalize hv : (Lexeme.tokenAt? placed).filter (fun u => u.is .illegal) = token at hreports
    cases hreports with
    | @some v _ hreport =>
      have hword : v ∈ s.words :=
        List.mem_filterMap.2 ⟨placed, hplaced, (Option.filter_eq_some_iff.1 hv).1⟩
      exact ⟨v, List.mem_append_left _ hword, hreport.about⟩
  · obtain ⟨f, hf, rfl⟩ := List.mem_map.1 hd
    exact ⟨f.token, mem_tokens_of_program hrun f hf, f.diagnostic_about s⟩

/-- What is parsed of a text is parsed of every other text whose tokens say the same. -/
theorem exists_parse_of_contents (h : s.tokens.map Token.contents = t.tokens.map Token.contents)
    {parsed : Parsed} (hparse : s.parse limits = .ok parsed) :
    ∃ parsed', t.parse limits = .ok parsed' ∧ parsed.program.same parsed'.program ∧
      parsed.errors.map s.saying = parsed'.errors.map t.saying := by
  have hsee : s.tokens.map Sight.placeless.see = t.tokens.map Sight.placeless.see := by
    have hcontents := congrArg (List.map fun x : Kind × List Char =>
      ({ kind := x.1, text := String.ofList x.2 } : Token)) h
    simpa [Function.comp_def, Token.contents, Sight.placeless] using hcontents
  have hlast : Sight.placeless.see s.endToken = Sight.placeless.see t.endToken := rfl
  obtain ⟨u, hrun, herrors, -⟩ := exists_run_of_parse hparse
  obtain ⟨tree, u', hrun', htree, hfindings⟩ :=
    Parse.program_look hsee hlast rfl (Nat.le_refl _) hrun
  refine ⟨⟨tree, Diagnostic.inOrder (t.lexicalErrors ++ u'.findings.map fun f => f.diagnostic t),
    t.warnings⟩, by rw [parse, hrun'], Node.same_of_mapTokens_eq htree, ?_⟩
  rw [herrors, map_saying_inOrder (exists_about hrun), map_saying_inOrder (exists_about hrun'),
    List.map_append, List.map_append, map_saying_lexicalErrors_eq h,
    map_saying_findings h hrun hrun' hfindings]

/-- Where a text is not parsed, it has too many tokens for the limits, or a numeral that is too long. -/
theorem too_narrow_of_parse {crash : Crash} (h : s.parse limits = .error crash) :
    limits.nesting ≤ s.tokens.length + 1 ∨
      ∃ u ∈ s.tokens, u.kind = .int ∧ limits.digits < u.text.length := by
  have hlength : s.tokens.length = s.words.length + 1 := List.length_append
  by_contra hwide
  obtain ⟨hnesting, hdigits⟩ := not_or.1 hwide
  obtain ⟨parsed, hparsed⟩ : ∃ parsed, s.parse limits = .ok parsed := by
    refine exists_parse_of_readable (fun u hu hint => Nat.not_lt.1 fun hlong => ?_) (by omega)
    exact hdigits ⟨u, List.mem_append_left _ hu, hint, hlong⟩
  rw [h] at hparsed
  cases hparsed

/-- **Parsing overlooks where tokens stand.**  Of two texts whose tokens are of the same kinds and have
the same texts, the programs are the same, and so is what is reported, in the same order.  Only if the
limits are too narrow for the tokens, none of the two may be parsed. -/
theorem parse_overlooks_places
    (h : s.tokens.map Token.contents = t.tokens.map Token.contents) (limits : Limits) :
    ((limits.nesting ≤ s.tokens.length + 1 ∨
        ∃ u ∈ s.tokens, u.kind = .int ∧ limits.digits < u.text.length) ∧
      ∃ crash crash', s.parse limits = .error crash ∧ t.parse limits = .error crash') ∨
    ∃ parsed parsed', s.parse limits = .ok parsed ∧ t.parse limits = .ok parsed' ∧
      parsed.program.same parsed'.program ∧
      parsed.errors.map (fun d => (d.category, d.text)) =
        parsed'.errors.map fun d => (d.category, d.text) := by
  cases hs : s.parse limits with
  | error crash =>
    cases ht : t.parse limits with
    | error crash' => exact .inl ⟨too_narrow_of_parse hs, crash, crash', rfl, rfl⟩
    | ok parsed' =>
      obtain ⟨parsed, hparsed, -⟩ := exists_parse_of_contents h.symm ht
      rw [hs] at hparsed
      cases hparsed
  | ok parsed =>
    obtain ⟨parsed', ht, hsame, hsaying⟩ := exists_parse_of_contents h hs
    refine .inr ⟨parsed, parsed', rfl, ht, hsame, ?_⟩
    have htexts := congrArg (List.map fun x => (x.2.1, x.2.2.text)) hsaying
    rwa [List.map_map, List.map_map] at htexts

/-- A name led by a number, and two blocks that are not closed, in two layouts: both blocks are reported
at the end. -/
theorem parse_overlooks_places_blocks : ∃ parsed parsed',
    parse { text := "1y;fn f()\x7bif x\x7b".toList } Limits.standard = .ok parsed ∧
      parse { text := "1y /*\n*/;fn\tf ( ) \x7b\r if x \x7b //".toList, firstLine := 7 } Limits.standard =
        .ok parsed' ∧
      parsed.errors.length = 3 ∧ parsed.program.same parsed'.program ∧
      parsed.errors.map (fun d => (d.category, d.text)) =
        parsed'.errors.map fun d => (d.category, d.text) := by
  have h : (tokens { text := "1y;fn f()\x7bif x\x7b".toList }).map Token.contents =
      (tokens { text := "1y /*\n*/;fn\tf ( ) \x7b\r if x \x7b //".toList, firstLine := 7 }).map
        Token.contents := by decide
  obtain ⟨tree, ds, hparse, hlength⟩ : ∃ tree ds,
      parse { text := "1y;fn f()\x7bif x\x7b".toList } Limits.standard =
        .ok { program := tree, errors := Diagnostic.inOrder ds, warnings := [] } ∧ ds.length = 3 :=
    ⟨_, _, rfl, rfl⟩
  rcases parse_overlooks_places h Limits.standard with
    ⟨-, crash, _, hcrash, -⟩ | ⟨parsed, parsed', hs, ht, hsame, herrors⟩
  · rw [hparse] at hcrash
    cases hcrash
  · refine ⟨parsed, parsed', hs, ht, ?_, hsame, herrors⟩
    rw [hparse] at hs
    obtain rfl := Except.ok.inj hs
    exact (Diagnostic.perm_inOrder ds).length_eq.trans hlength

end Source

end LimLang
