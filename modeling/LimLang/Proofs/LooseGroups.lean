import LimLang.Proofs.LexemeShapes
import LimLang.Proofs.LooseParsers
import LimLang.Proofs.Pieces
import LimLang.Tree.Same

/-! # Newlines inside groups change nothing

`Source.loosen` puts newlines behind tokens of a text that stand inside of parentheses or brackets, any
number behind each.  A lexeme ends where it ends whatever comes behind it, as long as that starts with the
same character or with a newline.  So the new text is cut into the old lexemes and the newlines, its
tokens are those of the old text with more newlines inside of groups (`Loosened`), and the parser reads
the same tree.
-/
namespace LimLang

/-! ## Texts that are cut alike -/

namespace Lexeme

/-- **What may stand behind a lexeme** in the place of `after`: text that starts like it, or with a
newline unless the lexeme goes on to the end of the text. -/
def MayMeet (l : Lexeme) (after more : List Char) : Prop :=
  more.head? = after.head? ∨ l.isClosed ∧ more.head? = some '\n'

variable {l : Lexeme} {c : Char} {cs rest body after more : List Char}

/-- What holds of the first character behind a lexeme, and of newlines. -/
theorem MayMeet.all {p : Char → Bool} (h : l.MayMeet after more) (hafter : after.head?.all p)
    (hline : p '\n') : more.head?.all p := by
  rcases h with h | ⟨-, h⟩
  · rwa [h]
  · rw [h]
    exact hline

/-- The text behind the characters that satisfy `p` starts with one that does not. -/
theorem head?_dropWhile_all (p : Char → Bool) (cs : List Char) :
    (cs.dropWhile p).head?.all fun c => !p c := by
  have hnot := List.head?_dropWhile_not p cs
  cases hd : (cs.dropWhile p).head? with
  | none => rfl
  | some d => simpa [hd] using hnot

theorem closeComment?_of_eq_some (h : closeComment? cs = some (body, after)) (more : List Char) :
    closeComment? (body ++ '*' :: '/' :: more) = some (body, more) :=
  closeComment?_of_not_closing (not_closing_of_closeComment?.1 (body, after) h) more

theorem comment?_of_mayMeet (h : comment? rest = some (l, after)) (hbody : l.text = '/' :: body)
    (hmore : l.MayMeet after more) : comment? (body ++ more) = some (l, more) := by
  unfold comment? at h
  split at h
  · next rest =>
    obtain ⟨rfl, rfl⟩ := Prod.mk.inj (Option.some.inj h)
    obtain rfl := (List.cons.inj hbody).2
    have hall : (rest.takeWhile (· != '\n')).all (· != '\n') := List.all_takeWhile
    have hspan := span_append hall (hmore.all (head?_dropWhile_all _ rest) rfl)
    rw [List.cons_append, comment?, hspan.1, hspan.2]
  · next rest =>
    split at h
    · next b after' hc =>
      obtain ⟨rfl, rfl⟩ := Prod.mk.inj (Option.some.inj h)
      obtain rfl := (List.cons.inj hbody).2
      change comment? ('*' :: (b ++ ['*', '/'] ++ more)) = _
      rw [List.append_assoc, comment?]
      simp only [List.cons_append, List.nil_append, closeComment?_of_eq_some hc]
    · next hc =>
      obtain ⟨rfl, rfl⟩ := Prod.mk.inj (Option.some.inj h)
      obtain rfl := (List.cons.inj hbody).2
      rcases hmore with hmore | ⟨hclosed, -⟩
      · obtain rfl := List.head?_eq_none_iff.1 hmore
        rw [List.append_nil, comment?, hc]
      · cases hclosed
  · cases h

/-- Whether a comment starts shows in the first character. -/
theorem comment?_eq_none_iff :
    comment? rest = none ↔ rest.head?.all fun d => d != '/' && d != '*' := by
  unfold comment?
  split
  · simp
  · split <;> simp
  · next hslash hstar =>
    cases rest with
    | nil => simp
    | cons d rest =>
      simp only [List.head?_cons, Option.all_some, Bool.and_eq_true, bne_iff_ne, true_iff]
      exact ⟨fun h => hslash rest (by rw [h]), fun h => hstar rest (by rw [h])⟩

theorem symbol?_of_mayMeet (h : symbol? c rest = some (l, after)) (hbody : l.text = c :: body)
    (hmore : l.MayMeet after more) : symbol? c (body ++ more) = some (l, more) := by
  have hsingle : ∀ {kind}, single? c = some kind →
      (after.head?.all fun d => (double? c d).isNone) →
      symbol? c more = some (.symbol kind [c], more) := by
    intro kind hkind hafter
    have hdouble := hmore.all hafter (by rw [double?_eq_none rfl]; rfl)
    cases more with
    | nil => simp [symbol?, hkind]
    | cons d more => simp [symbol?, hkind, Option.isNone_iff_eq_none.1 hdouble]
  cases rest with
  | nil =>
    obtain ⟨kind, hkind, hfound⟩ := Option.map_eq_some_iff.1 h
    obtain ⟨rfl, rfl⟩ := Prod.mk.inj hfound
    obtain rfl := (List.cons.inj hbody).2
    exact hsingle hkind rfl
  | cons e rest =>
    rw [symbol?] at h
    split at h
    · next kind hkind =>
      obtain ⟨rfl, rfl⟩ := Prod.mk.inj (Option.some.inj h)
      obtain rfl := (List.cons.inj hbody).2
      simp [symbol?, hkind]
    · next hnone =>
      obtain ⟨kind, hkind, hfound⟩ := Option.map_eq_some_iff.1 h
      obtain ⟨rfl, rfl⟩ := Prod.mk.inj hfound
      obtain rfl := (List.cons.inj hbody).2
      exact hsingle hkind (by simp [hnone])

/-- What starts with a symbol does not start with a comment for what comes behind it. -/
theorem comment?_eq_none_of_symbol? (h : symbol? c rest = some (l, after))
    (hbody : l.text = c :: body) (hmore : l.MayMeet after more) (hrest : comment? rest = none) :
    comment? (body ++ more) = none := by
  rw [comment?_eq_none_iff] at hrest ⊢
  obtain ⟨body', hbody', rfl⟩ := text_symbol? h
  obtain rfl := (List.cons.inj (hbody.symm.trans hbody')).2
  cases body with
  | nil => exact hmore.all hrest rfl
  | cons d body => exact hrest

theorem next_string_of_mayMeet (hl : (stringFrom rest).1.isLegal)
    (hbody : (stringFrom rest).1.text = '\x22' :: body) (more : List Char) :
    next '\x22' (body ++ more) = ((stringFrom rest).1, more) := by
  unfold stringFrom at hl hbody ⊢
  split at hl
  · cases hl
  · next quote after hd =>
    simp only [hd] at hbody ⊢
    obtain rfl := (List.cons.inj hbody).2
    change next '\x22' (_ ++ ['\x22'] ++ more) = _
    rw [List.append_assoc]
    refine next_string (fun hmem => ?_) more
    simpa using List.mem_takeWhile_imp hmem

theorem next_word_of_mayMeet (hc : isLetter c) (hbody : (wordFrom c rest).1.text = c :: body)
    (hmore : (wordFrom c rest).1.MayMeet (wordFrom c rest).2 more) :
    next c (body ++ more) = ((wordFrom c rest).1, more) := by
  obtain rfl := (List.cons.inj hbody).2
  exact next_word hc List.all_takeWhile (hmore.all (head?_dropWhile_all isWordChar rest) rfl)

theorem next_number_of_mayMeet (hc : isDigit c) (hl : (numberFrom c rest).1.isLegal)
    (hbody : (numberFrom c rest).1.text = c :: body)
    (hmore : (numberFrom c rest).1.MayMeet (numberFrom c rest).2 more) :
    next c (body ++ more) = ((numberFrom c rest).1, more) := by
  unfold numberFrom at hl hbody hmore ⊢
  by_cases hletter : (rest.dropWhile isDigit).head?.any isLetter
  · simp only [hletter, if_true] at hl
    cases hl
  · simp only [hletter, Bool.false_eq_true, if_false] at hbody hmore ⊢
    obtain rfl := (List.cons.inj hbody).2
    refine next_number hc List.all_takeWhile (hmore.all ?_ rfl)
    have hdigit := head?_dropWhile_all isDigit rest
    cases hd : (rest.dropWhile isDigit).head? with
    | none => rfl
    | some d =>
      rw [hd] at hletter hdigit
      simp_all [endsWord, isWordChar]

/-- **A lexeme ends where it ends**, whatever comes behind it. -/
theorem next_of_mayMeet (hl : (next c rest).1.isLegal) (hbody : (next c rest).1.text = c :: body)
    (hmore : (next c rest).1.MayMeet (next c rest).2 more) :
    next c (body ++ more) = ((next c rest).1, more) := by
  by_cases hgap : isGap c = true
  · have hnext : ∀ rest, next c rest = (.blank c, rest) := fun rest => if_pos hgap
    rw [hnext] at hbody
    obtain rfl := (List.cons.inj hbody).2
    rw [hnext, hnext, List.nil_append]
  by_cases hline : c = '\n'
  · subst hline
    obtain rfl := (List.cons.inj hbody).2
    rfl
  have hnext : ∀ rest, next c rest = _ := fun rest => (if_neg hgap).trans (if_neg hline)
  cases hcomment : if c = '/' then comment? rest else none with
  | some found =>
    by_cases hslash : c = '/'
    · rw [hnext rest, hcomment] at hl hbody hmore ⊢
      subst hslash
      rw [if_pos rfl] at hcomment
      rw [hnext, if_pos rfl, comment?_of_mayMeet hcomment hbody hmore]
    · rw [if_neg hslash] at hcomment
      cases hcomment
  | none =>
    cases hsymbol : symbol? c rest with
    | some found =>
      simp only [hnext rest, hcomment, hsymbol] at hl hbody hmore ⊢
      have hnone : (if c = '/' then comment? (body ++ more) else none) = none := by
        by_cases hslash : c = '/'
        · rw [if_pos hslash] at hcomment ⊢
          exact comment?_eq_none_of_symbol? hsymbol hbody hmore hcomment
        · rw [if_neg hslash]
      simp only [hnext, hnone, symbol?_of_mayMeet hsymbol hbody hmore]
    | none =>
      have hrest : next c rest = if c = '\x22' then stringFrom rest
          else if isLetter c then wordFrom c rest
          else if isDigit c then numberFrom c rest else (.stray c, rest) := by
        simp only [hnext rest, hcomment, hsymbol]
      rw [hrest] at hl hbody hmore ⊢
      split_ifs at hl hbody hmore ⊢ with hquote hletter hdigit
      · subst hquote
        exact next_string_of_mayMeet hl hbody more
      · exact next_word_of_mayMeet hletter hbody hmore
      · exact next_number_of_mayMeet hdigit hl hbody hmore
      · cases hl

/-! ## Loosened texts -/

/-- **Newlines behind tokens**: `pads i` behind the token with the number `i`, if it stands inside of a
group.  The token in front of the lexemes is of kind `previous`, and `depth` groups are open there. -/
def loosen (pads : Nat → Nat) (previous : Kind) (depth index : Nat) : List Lexeme → List Lexeme
  | [] => []
  | l :: ls =>
      match l.token? with
      | none => l :: loosen pads previous depth index ls
      | some (kind, _) =>
          let inside := kind.depthBehind previous depth
          l :: (List.replicate (if inside = 0 then 0 else pads index) .newline ++
            loosen pads kind inside (index + 1) ls)

variable {pads : Nat → Nat} {previous : Kind} {depth index : Nat} {ls : List Lexeme}

theorem mem_loosen (h : l ∈ loosen pads previous depth index ls) : l ∈ ls ∨ l = .newline := by
  induction ls generalizing previous depth index with
  | nil => cases h
  | cons m ls ih =>
    rw [loosen] at h
    split at h
    · rcases List.mem_cons.1 h with rfl | h
      · exact .inl List.mem_cons_self
      · exact (ih h).imp_left (List.mem_cons_of_mem _)
    · rcases List.mem_cons.1 h with rfl | h
      · exact .inl List.mem_cons_self
      · rcases List.mem_append.1 h with h | h
        · exact .inr (List.eq_of_mem_replicate h)
        · exact (ih h).imp_left (List.mem_cons_of_mem _)

/-- A token is closed. -/
theorem isClosed_of_token? {token : Kind × List Char} (hl : l.isLegal) (h : l.token? = some token) :
    l.isClosed := by
  cases l with
  | openString _ => cases hl
  | openComment _ => cases h
  | _ => rfl

theorem flatMap_text_newlines (n : Nat) :
    (List.replicate n newline).flatMap text = List.replicate n '\n' := by
  induction n with
  | zero => rfl
  | succ n ih => rw [List.replicate_succ, List.flatMap_cons, ih, List.replicate_succ]; rfl

theorem cut_newlines (n : Nat) (cs : List Char) :
    cut (List.replicate n '\n' ++ cs) = List.replicate n newline ++ cut cs := by
  induction n with
  | zero => rfl
  | succ n ih =>
    rw [List.replicate_succ, List.cons_append, cut_cons, List.replicate_succ, List.cons_append, ← ih]
    rfl

/-- The text of lexemes starts with the first of them. -/
theorem head?_flatMap_loosen (cs : List Char) :
    ((loosen pads previous depth index (cut cs)).flatMap text).head? = cs.head? := by
  cases cs with
  | nil => rfl
  | cons c rest =>
    obtain ⟨body, hbody, -⟩ := text_next_eq_cons c rest
    rw [cut_cons, loosen]
    split <;> rw [List.flatMap_cons, hbody] <;> rfl

/-- **A text with newlines behind tokens is cut into the lexemes and the newlines.** -/
theorem cut_loosen (pads : Nat → Nat) (previous : Kind) (depth index : Nat) {cs : List Char}
    (hcs : ∀ l ∈ cut cs, l.isLegal) :
    cut ((loosen pads previous depth index (cut cs)).flatMap text) =
      loosen pads previous depth index (cut cs) := by
  induction hn : cs.length using Nat.strong_induction_on
    generalizing cs previous depth index with
  | _ n ih =>
    cases cs with
    | nil => rfl
    | cons c rest =>
      rw [cut_cons, List.forall_mem_cons] at hcs
      obtain ⟨hl, hcs⟩ := hcs
      have hshort := length_next_le c rest
      rw [List.length_cons] at hn
      obtain ⟨body, hbody, -⟩ := text_next_eq_cons c rest
      have hmeet : ∀ {previous depth index}, (next c rest).1.MayMeet (next c rest).2
          ((loosen pads previous depth index (cut (next c rest).2)).flatMap text) :=
        .inl (head?_flatMap_loosen _)
      rw [cut_cons, loosen]
      cases htoken : (next c rest).1.token? with
      | none =>
        simp only
        rw [List.flatMap_cons, hbody, List.cons_append, cut_cons, next_of_mayMeet hl hbody hmeet,
          ih _ (by omega) _ _ _ hcs rfl]
      | some token =>
        simp only
        generalize (if token.1.depthBehind previous depth = 0 then 0 else pads index) = n
        have hpad : (next c rest).1.MayMeet (next c rest).2
            (List.replicate n '\n' ++ (loosen pads token.1 (token.1.depthBehind previous depth)
              (index + 1) (cut (next c rest).2)).flatMap text) := by
          cases n with
          | zero => exact hmeet
          | succ n => exact .inr ⟨isClosed_of_token? hl htoken, rfl⟩
        rw [List.flatMap_cons, List.flatMap_append, flatMap_text_newlines, hbody, List.cons_append,
          cut_cons, next_of_mayMeet hl hbody hpad, cut_newlines, ih _ (by omega) _ _ _ hcs rfl]

/-- **The tokens of a text with newlines behind tokens** are those of the text with more newlines
inside of groups, but for where they stand. -/
theorem exists_loosened (pads : Nat → Nat) (previous : Kind) (depth index : Nat) (p : Pos)
    (ls : List Lexeme) (last : Token) :
    ∃ us, Loosened previous depth ((place p ls).filterMap tokenAt? ++ [last]) (us ++ [last]) ∧
      us.map Token.contents = (loosen pads previous depth index ls).filterMap token? := by
  induction ls generalizing previous depth index p with
  | nil => exact ⟨[], .tight .nil, rfl⟩
  | cons l ls ih =>
    rw [place, List.filterMap_cons, loosen]
    cases htoken : l.token? with
    | none =>
      have hnone : tokenAt? (p, l) = none := by rw [tokenAt?, htoken]; rfl
      obtain ⟨us, hus, hcontents⟩ := ih previous depth index (p.afterAll l.text)
      refine ⟨us, ?_, ?_⟩
      · rw [hnone]
        exact hus
      · rw [List.filterMap_cons, htoken]
        exact hcontents
    | some token =>
      obtain ⟨kind, text⟩ := token
      let t : Token := ⟨kind, String.ofList text, p.line, p.col⟩
      have hsome : tokenAt? (p, l) = some t := by rw [tokenAt?, htoken]; rfl
      simp only
      generalize hn : (if kind.depthBehind previous depth = 0 then 0 else pads index) = n
      obtain ⟨us, hus, hcontents⟩ :=
        ih kind (kind.depthBehind previous depth) (index + 1) (p.afterAll l.text)
      have hline : IsNewlines (List.replicate n { kind := .endOfLine, text := "\n" }) := by
        intro t ht
        rw [List.eq_of_mem_replicate ht]
      refine ⟨t :: (List.replicate n { kind := .endOfLine, text := "\n" } ++ us), ?_, ?_⟩
      · rw [hsome, List.cons_append, List.cons_append, List.append_assoc]
        refine .tight (hus.pad hline (fun hzero => ?_) (by simp))
        rw [← hn, if_pos hzero]
        rfl
      · rw [List.filterMap_cons, htoken, List.filterMap_append, List.filterMap_replicate, ← hcontents]
        simp [t, Token.contents, token?]

end Lexeme

namespace Source

variable {s : Source}

/-- **A text with newlines inside groups**: `pads i` behind its token with the number `i`, if that
stands inside of parentheses or brackets, or opens them. -/
def loosen (s : Source) (pads : Nat → Nat) : Source :=
  { s with
    text := (Lexeme.loosen pads .endOfLine 0 0 (Lexeme.cut s.text)).flatMap Lexeme.text }

end Source

/-! ## Trees -/

theorem Ident.same_of_mapToken_eq {f : Token → Token} {i j : Ident}
    (h : i.mapToken f = j.mapToken f) : i.same j := by
  have hname : i.name = j.name := congrArg (·.name) h
  have htype : i.typeName = j.typeName := congrArg (·.typeName) h
  rw [Ident.same, hname, htype, beq_self_eq_true, beq_self_eq_true, Bool.and_self]

theorem Ident.sameAll_of_map_mapToken_eq {f : Token → Token} {is js : List Ident}
    (h : is.map (Ident.mapToken f) = js.map (Ident.mapToken f)) : Ident.sameAll is js := by
  induction is generalizing js with
  | nil =>
    cases js with
    | nil => rfl
    | cons j js => cases h
  | cons i is ih =>
    cases js with
    | nil => cases h
    | cons j js =>
      obtain ⟨hhead, htail⟩ := List.cons.inj h
      rw [Ident.sameAll, same_of_mapToken_eq hhead, ih htail, Bool.and_self]

theorem Datum.same_self (d : Datum) : d.same d := by
  unfold Datum.same
  split <;> simp_all

namespace Node

mutual

/-- **Trees that differ in their tokens only are the same.** -/
theorem same_of_mapTokens_eq {f : Token → Token} {a b : Node}
    (h : a.mapTokens f = b.mapTokens f) : a.same b := by
  -- What is left of the pairs are those with one constructor.
  cases a <;> cases b <;> try cases h
  case program.program | listing.listing =>
    injection h with h
    exact sameAll_of_mapTokensIn_eq h
  case ident.ident =>
    injection h with h
    exact Ident.same_of_mapToken_eq h
  case datum.refl => exact Datum.same_self _
  case null.null | bareReturn.bareReturn => rw [same]
  case int.int | bool.bool | string.string =>
    injection h with _ h
    rw [same, h, beq_self_eq_true]
  case array.array | block.block =>
    injection h with _ h
    exact sameAll_of_mapTokensIn_eq h
  case unary.unary =>
    injection h with _ ho hr
    rw [same, ho, beq_self_eq_true, same_of_mapTokens_eq hr, Bool.and_self]
  case binary.binary =>
    injection h with _ hl ho hr
    rw [same, ho, beq_self_eq_true, same_of_mapTokens_eq hl, same_of_mapTokens_eq hr, Bool.and_self,
      Bool.and_self]
  case call.call =>
    injection h with _ hf ha
    rw [same, same_of_mapTokens_eq hf, sameAll_of_mapTokensIn_eq ha, Bool.and_self]
  case index.index | ifThen.ifThen | otherwiseElse.otherwiseElse =>
    injection h with _ hl hr
    rw [same, same_of_mapTokens_eq hl, same_of_mapTokens_eq hr, Bool.and_self]
  case declare.declare | declareArray.declareArray =>
    injection h with _ ht hn hv
    rw [same, ht, beq_self_eq_true, Ident.same_of_mapToken_eq hn, same_of_mapTokens_eq hv,
      Bool.and_self, Bool.and_self]
  case declareLoose.declareLoose =>
    injection h with _ hform hn hv
    rw [same, hform, beq_self_eq_true, same_of_mapTokens_eq hn, same_of_mapTokens_eq hv, Bool.and_self,
      Bool.and_self]
  case returnValue.returnValue | expression.expression | otherwise.otherwise =>
    injection h with _ hv
    rw [same, same_of_mapTokens_eq hv]
  case ifElse.ifElse =>
    injection h with _ hc hb hn
    rw [same, same_of_mapTokens_eq hc, same_of_mapTokens_eq hb, same_of_mapTokens_eq hn, Bool.and_self,
      Bool.and_self]
  case function.function =>
    injection h with _ hname hp hresult hb
    rw [same, hname, hresult, beq_self_eq_true, beq_self_eq_true, Ident.sameAll_of_map_mapToken_eq hp,
      same_of_mapTokens_eq hb, Bool.and_self, Bool.and_self, Bool.and_self]

theorem sameAll_of_mapTokensIn_eq {f : Token → Token} {as bs : List Node}
    (h : mapTokensIn f as = mapTokensIn f bs) : sameAll as bs := by
  cases as with
  | nil =>
    cases bs with
    | nil => rw [sameAll]
    | cons b bs => cases h
  | cons a as =>
    cases bs with
    | nil => cases h
    | cons b bs =>
      obtain ⟨hhead, htail⟩ := List.cons.inj h
      rw [sameAll, same_of_mapTokens_eq hhead, sameAll_of_mapTokensIn_eq htail, Bool.and_self]

end

end Node

/-! ## Programs -/

/-- Tokens that agree in kinds and texts look the same if their places are overlooked. -/
theorem Token.map_see_of_contents {ts us : List Token}
    (h : ts.map Token.contents = us.map Token.contents) :
    ts.map Sight.placeless.see = us.map Sight.placeless.see := by
  have hsee : Sight.placeless.see =
      (fun contents : Kind × List Char => ⟨contents.1, String.ofList contents.2, 0, 0⟩) ∘
        Token.contents := by
    funext t
    simp [Sight.placeless, Token.contents]
  rw [hsee, ← List.map_map, h, List.map_map]

namespace Source

variable {s : Source} {limits : Limits}

/-- A text is cut into the lexemes it was put together from. -/
theorem cut_text_loosen (h : s.lexicalErrors = []) (pads : Nat → Nat) :
    Lexeme.cut (s.loosen pads).text = Lexeme.loosen pads .endOfLine 0 0 (Lexeme.cut s.text) :=
  Lexeme.cut_loosen pads _ _ _ (lexicalErrors_eq_nil_iff_isLegal.1 h)

theorem lexicalErrors_loosen (h : s.lexicalErrors = []) (pads : Nat → Nat) :
    (s.loosen pads).lexicalErrors = [] := by
  rw [lexicalErrors_eq_nil_iff_isLegal, cut_text_loosen h]
  intro l hl
  rcases Lexeme.mem_loosen hl with hl | rfl
  · exact lexicalErrors_eq_nil_iff_isLegal.1 h l hl
  · rfl

/-- **The tokens of a loosened text.** -/
theorem exists_loosened_tokens (h : s.lexicalErrors = []) (pads : Nat → Nat) :
    ∃ us, Loosened .endOfLine 0 s.tokens us ∧
      us.map Sight.placeless.see = (s.loosen pads).tokens.map Sight.placeless.see := by
  obtain ⟨us, hus, hcontents⟩ :=
    Lexeme.exists_loosened pads .endOfLine 0 0 s.start (Lexeme.cut s.text) s.endToken
  refine ⟨us ++ [s.endToken], hus, Token.map_see_of_contents ?_⟩
  rw [tokens, List.map_append, List.map_append, hcontents, lexemes, Lexeme.map_contents,
    cut_text_loosen h]
  rfl

/-- **Newlines inside groups are insignificant.**  If nothing is wrong with a text, then nothing is wrong
with it after any number of newlines is added behind any of the tokens that stand inside of parentheses
or brackets, or open them, and it is the same program. -/
theorem parse_loosen {parsed : Parsed} (h : s.parse limits = .ok parsed) (he : parsed.errors = [])
    (pads : Nat → Nat) :
    ∃ again, (s.loosen pads).parse limits = .ok again ∧ again.errors = [] ∧
      again.program.same parsed.program := by
  obtain ⟨hlexical, -, t, hrun, ht⟩ := of_errors_eq_nil h he
  obtain ⟨us, hloosened, hlook⟩ := exists_loosened_tokens hlexical pads
  obtain ⟨u, hrun, hu⟩ := Parse.program_loosened rfl
    (fun t ht => (kind_of_mem_words ht).imp_right fun hlegal => hlegal hlexical) hloosened hrun ht
  obtain ⟨tree, v, hrun, htree, hv⟩ := Parse.program_look hlook
    (show Sight.placeless.see s.endToken = Sight.placeless.see (s.loosen pads).endToken from rfl) rfl
    (Nat.le_refl _) hrun
  rw [hu, List.map_nil, eq_comm, List.map_eq_nil_iff] at hv
  refine ⟨{ program := tree, errors := [], warnings := (s.loosen pads).warnings }, ?_, rfl,
    Node.same_of_mapTokens_eq htree.symm⟩
  unfold parse
  simp only [hrun, lexicalErrors_loosen hlexical, hv, List.map_nil, List.append_nil,
    Diagnostic.inOrder, List.mergeSort_nil]

/-- A call with groups inside of it, and an index behind it. -/
theorem parse_loosen_call :
    (loosen { text := "f((1), [2])[0]".toList } (· % 2)).text =
        "f(\n(1\n),\n [2\n])[0\n]".toList ∧
      ∃ parsed again, parse { text := "f((1), [2])[0]".toList } Limits.standard = .ok parsed ∧
        parsed.errors = [] ∧
        parse (loosen { text := "f((1), [2])[0]".toList } (· % 2)) Limits.standard = .ok again ∧
        again.errors = [] ∧ again.program.same parsed.program := by
  refine ⟨by decide, ?_⟩
  obtain ⟨tree, hparse⟩ : ∃ tree, parse { text := "f((1), [2])[0]".toList } Limits.standard =
      .ok { program := tree, errors := Diagnostic.inOrder [], warnings := [] } := ⟨_, rfl⟩
  obtain ⟨again, hagain⟩ := parse_loosen hparse List.mergeSort_nil (· % 2)
  exact ⟨_, again, hparse, List.mergeSort_nil, hagain⟩

end Source

end LimLang
