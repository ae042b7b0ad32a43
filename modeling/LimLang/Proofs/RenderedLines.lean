import LimLang.Proofs.Brackets
import LimLang.Proofs.JoinedText
import LimLang.Proofs.RoundTrip

/-! # The lines of rendered statements

A rendered statement goes over several lines only inside of its blocks, and there a brace is open.  So
no newline cuts its tokens (`Node.Fits.uncut`, by induction on well-formedness), as long as none stands
in a string.  What is told of the tokens holds for the text: a line of a statement that is not its
last leaves a bracket open, and the last leaves none (`Source.openBrackets_pos`,
`Source.openBrackets_eq_zero`).  In between stands that no lexeme reaches across a line, so that the
first lines of a text are cut like the text (`Lexeme.isClosed_of_cut`).
-/
namespace LimLang

open Lexeme (endsAny endsWord)
open Token (Held)

/-! ## Strings of one line -/

/-- The vocabulary of the language, but for strings with newlines in them. -/
def Vocabulary.oneLine : Vocabulary :=
  { standard with string := fun s => standard.string s ∧ '\n' ∉ s.toList }

theorem Node.Fits.standard {place : Place} {node : Node}
    (h : node.Fits Vocabulary.oneLine place) : node.Fits Vocabulary.standard place := by
  induction h with
  | ident hn => exact .ident hn
  | int hn => exact .int hn
  | bool => exact .bool
  | string hs => exact .string hs.1
  | null => exact .null
  | array _ ih => exact .array ih
  | unary ho _ ih => exact .unary ho ih
  | binary ho _ _ ihl ihr => exact .binary ho ihl ihr
  | call _ _ ihf ih => exact .call ihf ih
  | index _ _ ihl ihp => exact .index ihl ihp
  | declare hn _ ih => exact .declare hn ih
  | declareArray hk hn _ ih => exact .declareArray hk hn ih
  | bareReturn => exact .bareReturn
  | returnValue _ ih => exact .returnValue ih
  | expression _ ih => exact .expression ih
  | function hn hp hr _ ih => exact .function hn hp hr ih
  | branches _ ih => exact .branches ih
  | ifThen _ _ ihc ihb => exact .ifThen ihc ihb
  | ifElse _ _ _ ihc ihb ihn => exact .ifElse ihc ihb ihn
  | otherwise _ ih => exact .otherwise ih
  | elseIf _ ih => exact .elseIf ih
  | block _ ih => exact .block ih
  | program _ ih => exact .program ih

/-! ## Tokens that hold -/

/-- No bracket, no newline and no string. -/
def Kind.isQuiet (kind : Kind) : Bool :=
  decide (kind.weight = 0) && kind != .endOfLine && kind != .string

section Held
variable {depth : Nat} {ts : List Token} {kind : Kind} {text : String}

theorem Token.Held.quiet {t : Token} (h : t.kind.isQuiet) : Held depth [t] := by
  simp only [Kind.isQuiet, Bool.and_eq_true, decide_eq_true_eq, bne_iff_ne] at h
  obtain ⟨⟨hweight, hline⟩, hstring⟩ := h
  exact .single hweight hline fun hk => absurd hk hstring

theorem Single.held (h : Single kind text ts) (hk : kind.isQuiet) : Held depth ts := by
  obtain ⟨t, rfl, rfl, -⟩ := h
  exact .quiet hk

theorem Followed.held {P Q : List Token → Prop} (h : Followed P Q ts)
    (hP : ∀ us, P us → Held depth us) (hQ : ∀ us, Q us → Held depth us) : Held depth ts := by
  obtain ⟨us, vs, rfl, hus, hvs⟩ := h
  exact (hP us hus).append (hQ vs hvs)

theorem Commas.held {α : Type} {P : α → List Token → Prop} {xs : List α} (h : Commas P xs ts)
    (hP : ∀ x us, P x us → Held depth us) : Held depth ts := by
  induction xs generalizing ts with
  | nil =>
    obtain rfl : ts = [] := h
    exact .nil
  | cons x xs ih =>
    cases xs with
    | nil => exact hP x ts h
    | cons y xs => exact h.held (hP x) fun us hus => hus.held (fun _ hc => hc.held rfl) fun _ => ih

/-- Inside of a brace each statement may be followed by a newline. -/
theorem Lines.held {ss : List Node} (h : Lines (fun _ => Held depth) ss ts) :
    Held (depth + 1) ts := by
  induction ss generalizing ts with
  | nil =>
    obtain rfl : ts = [] := h
    exact .nil
  | cons s ss ih =>
    obtain ⟨us, _, rfl, hus, _, vs, rfl, ⟨newline, rfl, hk, -⟩, hvs⟩ := h
    exact (hus.mono (Nat.le_succ _)).append (.append (.newline hk) (ih hvs))

theorem Followed.assoc {P Q R : List Token → Prop} (h : Followed P (Followed Q R) ts) :
    Followed (Followed P Q) R ts := by
  obtain ⟨us, _, rfl, hus, vs, ws, rfl, hvs, hws⟩ := h
  exact ⟨us ++ vs, ws, (List.append_assoc _ _ _).symm, ⟨us, vs, rfl, hus, hvs⟩, hws⟩

/-- What stands between two brackets. -/
theorem Followed.group {P : List Token → Prop} {opener closer : Kind} {left right : String}
    (h : Followed (Single opener left) (Followed P (Single closer right)) ts)
    (ho : opener.isOpener) (hc : closer.isCloser) (hP : ∀ us, P us → Held (depth + 1) us) :
    Held depth ts := by
  obtain ⟨_, _, rfl, ⟨opening, rfl, rfl, -⟩, us, _, rfl, hus, closing, rfl, rfl, -⟩ := h
  exact .group ho hc (hP us hus)

theorem held_brackets {opening closing : Token} (ho : opening.kind = .lbrack)
    (hc : closing.kind = .rbrack) : Held depth [opening, closing] := by
  refine .group ?_ ?_ .nil
  · rw [ho]
    rfl
  · rw [hc]
    rfl

theorem TypePhrase.held (h : TypePhrase ts text) : Held depth ts := by
  have hquiet : ∀ {kind : Kind}, kind.isType → kind.isQuiet := by
    intro kind hk
    cases kind <;> first | rfl | cases hk
  cases h with
  | basic ht => exact .quiet (hquiet ht)
  | array ht ho hc => exact .cons (.quiet (hquiet ht)) (held_brackets ho hc)

theorem ResultPhrase.held {result : Option String} (h : ResultPhrase ts result) :
    Held depth ts := by
  cases h with
  | none => exact .nil
  | plain h => exact h.held
  | arrow ha h => exact .cons (.quiet (by rw [ha]; rfl)) h.held

theorem Ident.IsReadAs.held {i : Ident} (h : i.IsReadAs ts) : Held depth ts := by
  obtain ⟨us, name, type, rfl, hus, hn, -⟩ := h
  exact hus.held.append (.quiet (by rw [hn]; rfl))

end Held

theorem isQuiet_of_isPrefix {kind : Kind} (h : kind.isPrefix) : kind.isQuiet := by
  cases kind <;> first | rfl | cases h

theorem isQuiet_of_precedence {kind : Kind} {floor : Nat} (hlow : Precedence.lowest ≤ floor)
    (h : kind.precedence = floor + 1) (hhigh : kind.precedence ≤ Precedence.product) :
    kind.isQuiet := by
  have hne : Precedence.lowest < kind.precedence := by omega
  cases kind <;> first | rfl | exact absurd hne (by decide) | exact absurd hhigh (by decide)

theorem isQuiet_type (type : BasicType) : type.kind.isQuiet := by
  cases type <;> rfl

/-! ## Rendered statements hold -/

/-- A text whose tokens no newline cuts. -/
def Uncut (cs : List Char) : Prop :=
  Rereads endsAny cs (Held 0)

section Uncut

variable {t : Token} {a b : Node} {es : List Node} {operator : String}

theorem uncut_leaf {follows : Char → Bool} {kind : Kind} {text : String} {cs : List Char}
    (h : Rereads follows cs (Single kind text)) (hf : ∀ c, endsAny c → follows c)
    (hk : kind.isQuiet) : Uncut cs :=
  (h.before hf).mono fun _ hts => hts.held hk

theorem uncut_string {value : String} (hs : Vocabulary.oneLine.string value) :
    Uncut ((Node.string t value).textAt .expression) := by
  refine (rereads_string hs.1).mono ?_
  rintro _ ⟨t, rfl, hk, htext⟩
  refine .single (by rw [hk]; rfl) (by rw [hk]; decide) fun _ => ?_
  rw [htext]
  exact hs.2

theorem uncut_array (hfits : ∀ e ∈ es, e.Fits Vocabulary.standard .expression)
    (h : ∀ e ∈ es, Uncut (e.textAt .expression)) : Uncut ((Node.array t es).textAt .expression) := by
  refine (rereads_array hfits h).mono fun ts hts => ?_
  refine hts.group rfl rfl fun us hus => ?_
  exact hus.held fun _ _ hvs => hvs.mono (Nat.zero_le 1)

theorem uncut_unary (ho : Vocabulary.standard.leading operator)
    (ha : a.Fits Vocabulary.standard .expression) (h : Uncut (a.textAt .expression)) :
    Uncut ((Node.unary t operator a).textAt .expression) := by
  obtain ⟨kind, hkind, hread⟩ := rereads_unary (t := t) ho ha h
  refine hread.mono ?_
  rintro _ ⟨us, vs, rfl, hus, hvs⟩
  refine Followed.group ⟨us, vs, rfl, hus, hvs.assoc⟩ rfl rfl fun ws hws => ?_
  exact hws.held (fun _ hs => hs.held (isQuiet_of_isPrefix hkind)) fun _ hr => hr.mono (Nat.zero_le 1)

theorem uncut_binary (ho : Vocabulary.standard.between operator)
    (ha : a.Fits Vocabulary.standard .expression) (hl : Uncut (a.textAt .expression))
    (hr : Uncut (b.textAt .expression)) :
    Uncut ((Node.binary t a operator b).textAt .expression) := by
  obtain ⟨kind, floor, hlow, hkind, hhigh, hread⟩ := rereads_binary (t := t) ho ha hl hr
  have hquiet := isQuiet_of_precedence hlow hkind hhigh
  have hinner : ∀ us, Held 0 us → Held 1 us := fun us hus => hus.mono (Nat.zero_le 1)
  refine hread.mono ?_
  rintro _ ⟨us, vs, rfl, hus, hvs⟩
  refine Followed.group ⟨us, vs, rfl, hus, hvs.assoc.assoc⟩ rfl rfl fun ws hws => ?_
  exact hws.held (fun _ hs => hs.held hinner fun _ hop => hop.held hquiet) hinner

theorem uncut_call (hf : Uncut (a.textAt .expression))
    (hfits : ∀ e ∈ es, e.Fits Vocabulary.standard .expression)
    (h : ∀ e ∈ es, Uncut (e.textAt .expression)) :
    Uncut ((Node.call t a es).textAt .expression) := by
  refine (rereads_call hf hfits h).mono fun ts hts => ?_
  refine hts.held (fun _ hus => hus) fun vs hvs => ?_
  refine hvs.group rfl rfl fun us hus => ?_
  exact hus.held fun _ _ hws => hws.mono (Nat.zero_le 1)

theorem uncut_index (ha : a.Fits Vocabulary.standard .expression)
    (hb : b.Fits Vocabulary.standard .expression) (hl : Uncut (a.textAt .expression))
    (hp : Uncut (b.textAt .expression)) : Uncut ((Node.index t a b).textAt .expression) := by
  refine (rereads_index ha hb hl hp).mono ?_
  rintro _ ⟨us, _, rfl, hus, vs, _, rfl, hvs, _, _, rfl, ho, ws, _, rfl, hws, _, last, rfl, hc, hlast⟩
  have hplace : ∀ xs, Followed (Single .lbrack "[") (Followed (Held 0) (Single .rbrack "]")) xs →
      Held 1 xs :=
    fun xs hxs => hxs.group rfl rfl fun _ hys => hys.mono (Nat.zero_le 2)
  refine Followed.group (P := Followed (Held 0)
    (Followed (Single .lbrack "[") (Followed (Held 0) (Single .rbrack "]"))))
    ⟨us, _, rfl, hus, _, last, ?_, ⟨vs, _, rfl, hvs, _, _, rfl, ho, ws, _, rfl, hws, hc⟩, hlast⟩ rfl
    rfl fun xs hxs => hxs.held (fun _ hys => hys.mono (Nat.zero_le 1)) hplace
  simp only [List.append_assoc]

theorem held_initializer {name : Ident} {depth : Nat} {ts : List Token}
    (h : Followed (Single .ident name.name) (Followed (Single .assign "=") (Held depth)) ts) :
    Held depth ts :=
  h.held (fun _ hi => hi.held rfl) fun _ hrest => hrest.held (fun _ ha => ha.held rfl) fun _ hv => hv

theorem uncut_declare {type : BasicType} {name : Ident} (hn : Vocabulary.standard.varName name)
    (h : Uncut (a.textAt .expression)) : Uncut ((Node.declare t type name a).textAt .statement) := by
  refine (rereads_declare hn h).mono fun ts hts => ?_
  exact hts.held (fun _ hk => hk.held (isQuiet_type type)) fun _ hrest => held_initializer hrest

theorem uncut_declareArray {kind : String} {name : Ident} (hk : Vocabulary.standard.element kind)
    (hn : Vocabulary.standard.varName name) (h : Uncut (a.textAt .expression)) :
    Uncut ((Node.declareArray t kind name a).textAt .statement) := by
  obtain ⟨basic, rfl⟩ := hk
  refine (rereads_declareArray hn h).mono fun ts hts => ?_
  refine hts.held (fun _ hk => hk.held (isQuiet_type basic)) ?_
  rintro _ ⟨_, _, rfl, ⟨opening, rfl, ho, -⟩, _, us, rfl, ⟨closing, rfl, hc, -⟩, hus⟩
  exact (held_brackets ho hc).append (held_initializer hus)

theorem uncut_function {name : String} {parameters : List Ident} {result : Option String}
    (hn : Vocabulary.standard.functionName name)
    (hp : ∀ i ∈ parameters, Vocabulary.standard.parameter i)
    (hr : Vocabulary.standard.result result) (h : Uncut (a.textAt .body)) :
    Uncut ((Node.function t name parameters result a).textAt .statement) := by
  refine (rereads_function hn hp hr h).mono fun ts hts => ?_
  refine hts.held (fun _ hk => hk.held rfl) fun _ hts => ?_
  refine hts.held (fun _ hi => hi.held rfl) ?_
  intro us hus
  refine hus.assoc.held (fun vs hvs => ?_) fun _ hrest => hrest.held (fun _ hr => hr.held) fun _ hb => hb
  exact hvs.group rfl rfl fun _ hps => hps.held fun _ _ hi => hi.held

theorem uncut_block (h : ∀ s ∈ es, Uncut (s.textAt .statement)) :
    Uncut ((Node.block t es).textAt .body) := by
  refine (rereads_block h).mono ?_
  rintro _ ⟨us, vs, rfl, hus, hvs⟩
  refine Followed.group ⟨us, vs, rfl, hus, hvs.assoc⟩ rfl rfl ?_
  rintro _ ⟨_, ls, rfl, ⟨newline, rfl, hk, -⟩, hls⟩
  exact .append (.newline hk) hls.held

/-- **No newline cuts a rendered statement**, or anything rendered in one. -/
theorem Node.Fits.uncut {place : Place} {node : Node} (h : node.Fits Vocabulary.oneLine place)
    (hp : place ≠ .program) : Uncut (node.textAt place) := by
  induction h with
  | ident hn => exact uncut_leaf (rereads_ident hn) endsAny_endsWord rfl
  | int hn =>
    obtain ⟨text, hread, -⟩ := rereads_int hn
    exact uncut_leaf hread endsAny_endsWord rfl
  | @bool t value => exact uncut_leaf rereads_bool endsAny_endsWord (by cases value <;> rfl)
  | string hs => exact uncut_string hs
  | null => exact uncut_leaf rereads_null endsAny_endsWord rfl
  | array hes ih => exact uncut_array (fun e he => (hes e he).standard) fun e he => ih e he hp
  | unary ho h ih => exact uncut_unary ho h.standard (ih hp)
  | binary ho hl _ ihl ihr => exact uncut_binary ho hl.standard (ihl hp) (ihr hp)
  | call _ hes ihf ih =>
    exact uncut_call (ihf hp) (fun e he => (hes e he).standard) fun e he => ih e he hp
  | index hl hi ihl ihi => exact uncut_index hl.standard hi.standard (ihl hp) (ihi hp)
  | declare hn _ ih => exact uncut_declare hn (ih (by decide))
  | declareArray hk hn _ ih => exact uncut_declareArray hk hn (ih (by decide))
  | bareReturn => exact uncut_leaf rereads_bareReturn (fun _ h => h) rfl
  | returnValue _ ih =>
    refine (rereads_returnValue (ih (by decide))).mono fun ts hts => ?_
    exact hts.held (fun _ hk => hk.held rfl) fun _ hv => hv
  | expression _ ih => exact rereads_expression (ih (by decide))
  | function hn hps hr _ ih => exact uncut_function hn hps hr (ih (by decide))
  | branches _ ih => exact ih (by decide)
  | ifThen _ _ ihc ihb =>
    refine (rereads_ifThen (ihc (by decide)) (ihb (by decide))).mono fun ts hts => ?_
    exact hts.held (fun _ hk => hk.held rfl) fun _ hrest => hrest.held (fun _ hc => hc) fun _ hb => hb
  | ifElse _ _ _ ihc ihb ihn =>
    refine (rereads_ifElse (ihc (by decide)) (ihb (by decide)) (ihn (by decide))).mono fun ts hts => ?_
    refine hts.held (fun _ hk => hk.held rfl) fun _ hrest => ?_
    exact hrest.held (fun _ hc => hc) fun _ hboth => hboth.held (fun _ hb => hb) fun _ hn => hn
  | otherwise _ ih =>
    refine (rereads_otherwise (ih (by decide))).mono fun ts hts => ?_
    exact hts.held (fun _ hk => hk.held rfl) fun _ hb => hb
  | elseIf h ih =>
    refine (rereads_elseIf (by cases h <;> rfl) (ih (by decide))).mono fun ts hts => ?_
    exact hts.held (fun _ hk => hk.held rfl) fun _ hb => hb
  | block _ ih => exact uncut_block fun s hs => ih s hs (by decide)
  | program _ _ => exact absurd rfl hp

end Uncut

/-! ## Lines of a text -/

namespace Lexeme

/-- A lexeme nothing is wrong with that stays on its line. -/
def staysOnLine : Lexeme → Bool
  | string body => !body.contains '\n'
  | l => l.isClean

theorem comment?_append_eq_some {rest : List Char} {found : Lexeme × List Char}
    (h : comment? rest = some found) (more : List Char) :
    ∃ found', comment? (rest ++ more) = some found' ∧ found'.1.staysOnLine = false := by
  unfold comment? at h
  split at h
  · exact ⟨_, rfl, rfl⟩
  · next rest =>
    rw [List.cons_append, comment?]
    cases closeComment? (rest ++ more) <;> exact ⟨_, rfl, rfl⟩
  · cases h

theorem isClosed_symbol? {c : Char} {rest : List Char} {found : Lexeme × List Char}
    (h : symbol? c rest = some found) : found.1.isClosed := by
  have hsingle : ((single? c).map fun kind => (symbol kind [c], rest)) = some found →
      found.1.isClosed := by
    intro hs
    obtain ⟨kind, -, rfl⟩ := Option.map_eq_some_iff.1 hs
    rfl
  unfold symbol? at h
  split at h
  · split at h
    · rw [← Option.some.inj h]
      rfl
    · exact hsingle h
  · exact hsingle h

theorem isClosed_stringFrom {rest more : List Char}
    (h : (stringFrom (rest ++ '\n' :: more)).1.staysOnLine) : (stringFrom rest).1.isClosed := by
  cases hd : rest.dropWhile (· != '\x22') with
  | cons quote after =>
    unfold stringFrom
    rw [hd]
    rfl
  | nil =>
    have htake : (rest ++ '\n' :: more).takeWhile (· != '\x22') =
        rest ++ '\n' :: more.takeWhile (· != '\x22') := by
      rw [List.takeWhile_append_of_pos (List.dropWhile_eq_nil_iff.1 hd)]
      rfl
    unfold stringFrom at h
    split at h
    · cases h
    · rw [htake] at h
      simp [staysOnLine] at h

/-- A comment or a string that is open where the line ends would go on behind it. -/
theorem isClosed_next {c : Char} {rest more : List Char}
    (h : (next c (rest ++ '\n' :: more)).1.staysOnLine) : (next c rest).1.isClosed := by
  unfold next at h ⊢
  by_cases hgap : isGap c = true
  · rw [if_pos hgap]
    rfl
  by_cases hline : c = '\n'
  · rw [if_neg hgap, if_pos hline]
    rfl
  rw [if_neg hgap, if_neg hline] at h ⊢
  cases hcomment : if c = '/' then comment? rest else none with
  | some found =>
    by_cases hslash : c = '/'
    · rw [if_pos hslash] at hcomment h
      obtain ⟨found', hfound, hstays⟩ := comment?_append_eq_some hcomment ('\n' :: more)
      rw [hfound] at h
      rw [hstays] at h
      cases h
    · rw [if_neg hslash] at hcomment
      cases hcomment
  | none =>
    have hnone : (if c = '/' then comment? (rest ++ '\n' :: more) else none) = none := by
      by_cases hslash : c = '/'
      · rw [if_pos hslash] at hcomment ⊢
        exact comment?_append_none hcomment more
      · rw [if_neg hslash]
    rw [hnone, symbol?_append] at h
    dsimp only at h ⊢
    cases hsymbol : symbol? c rest with
    | some found => exact isClosed_symbol? hsymbol
    | none =>
      rw [hsymbol] at h
      dsimp only [Option.map_none] at h ⊢
      by_cases hquote : c = '\x22'
      · rw [if_pos hquote] at h ⊢
        exact isClosed_stringFrom h
      · rw [if_neg hquote]
        split
        · rfl
        split
        · unfold numberFrom
          dsimp only
          split <;> rfl
        · rfl

/-- **If no lexeme reaches across a line, the lines in front of a newline are cut like the text.** -/
theorem isClosed_of_cut {cs more : List Char} (h : ∀ l ∈ cut (cs ++ '\n' :: more), l.staysOnLine) :
    ∀ l ∈ cut cs, l.isClosed := by
  induction hn : cs.length using Nat.strong_induction_on generalizing cs with
  | _ n ih =>
    cases cs with
    | nil => simp
    | cons c rest =>
      rw [List.cons_append, cut_cons, List.forall_mem_cons] at h
      have hclosed := isClosed_next h.1
      have hshort := length_next_le c rest
      rw [List.length_cons] at hn
      rw [next_append hclosed] at h
      rw [cut_cons, List.forall_mem_cons]
      exact ⟨hclosed, ih (next c rest).2.length (by omega) h.2 rfl⟩

end Lexeme

/-- A text that is cut for itself gives the tokens that are said. -/
theorem Rereads.words {follows : Char → Bool} {P : List Token → Prop} {s : Source}
    (h : Rereads follows s.text P) : (∀ l ∈ Lexeme.cut s.text, l.isClean) ∧ P s.words := by
  obtain ⟨ls, hcut, hclean, hP⟩ := h
  have hls : Lexeme.cut s.text = ls := by simpa using hcut [] rfl
  refine ⟨hls ▸ hclean, hP _ ?_⟩
  rw [← hls]
  exact Lexeme.map_contents s.start _

namespace Source

variable {s : Source}

theorem isClosed_of_clean (h : ∀ l ∈ Lexeme.cut s.text, l.isClean) : s.IsClosed := by
  intro l hl
  have hclean := h l hl
  cases l <;> first | rfl | cases hclean

/-- A string of a text is a token of it. -/
theorem exists_string {body : List Char} (h : .string body ∈ Lexeme.cut s.text) :
    ∃ t ∈ s.words, t.kind = .string ∧ t.text.toList = body := by
  have hmem : (Kind.string, body) ∈ (Lexeme.cut s.text).filterMap Lexeme.token? :=
    List.mem_filterMap.2 ⟨_, h, rfl⟩
  rw [← Lexeme.map_contents s.start] at hmem
  obtain ⟨t, ht, hcontents⟩ := List.mem_map.1 hmem
  obtain ⟨hk, htext⟩ := Prod.mk.inj hcontents
  exact ⟨t, ht, hk, htext⟩

theorem staysOnLine_of_uncut (h : Uncut s.text) : ∀ l ∈ Lexeme.cut s.text, l.staysOnLine := by
  obtain ⟨hclean, hheld⟩ := h.words
  intro l hl
  cases l with
  | string body =>
    obtain ⟨t, ht, hk, htext⟩ := exists_string hl
    have hline := hheld.strings t ht hk
    rw [htext] at hline
    simpa [Lexeme.staysOnLine] using hline
  | _ => exact hclean _ hl

theorem words_join (text : List Char) (hs : s.IsClosed) :
    (s.join text).words = s.words ++ s.seam :: (s.behind text).words := by
  rw [words, lexemes_join text hs, List.filterMap_append]
  rfl

/-- The newline at the end of a text and the end itself open nothing. -/
theorem openBrackets_ended (cs : List Char) (hs : IsClosed { text := cs }) :
    Session.openBrackets (String.ofList (cs ++ ['\n'])) = Token.balance (words { text := cs }) := by
  have hjoin : tokens { text := cs ++ ['\n'] } = _ := tokens_join (s := { text := cs }) [] hs
  have hrest : Token.balance (seam { text := cs } :: (behind { text := cs } []).tokens) = 0 := rfl
  rw [Session.openBrackets_eq, String.toList_ofList, hjoin, Token.balance_append, hrest, Int.add_zero]

/-- **A line that is not the last** of a text that no newline cuts leaves a bracket open. -/
theorem openBrackets_pos {cs more : List Char} (h : Uncut (cs ++ '\n' :: more)) :
    0 < Session.openBrackets (String.ofList (cs ++ ['\n'])) := by
  let first : Source := { text := cs }
  have hwhole : Uncut (first.join more).text := h
  have hclosed : first.IsClosed := Lexeme.isClosed_of_cut (staysOnLine_of_uncut hwhole)
  have hheld := hwhole.words.2
  rw [words_join more hclosed] at hheld
  have hopen : 0 < (0 : Int) + Token.balance (words { text := cs }) :=
    hheld.sheltered first.words first.seam _ rfl rfl
  rw [openBrackets_ended cs hclosed]
  omega

/-- **The last line** leaves none open. -/
theorem openBrackets_eq_zero {cs : List Char} (h : Uncut cs) :
    Session.openBrackets (String.ofList (cs ++ ['\n'])) = 0 := by
  obtain ⟨hclean, hheld⟩ := Rereads.words (s := { text := cs }) h
  rw [openBrackets_ended cs (isClosed_of_clean hclean)]
  exact hheld.balance_eq

end Source

end LimLang
