import LimLang.Proofs.Acceptance
import LimLang.Proofs.RenderedExpressions

/-! # Rendered programs are read back

The text of a well-formed program, cut into tokens and parsed, is the program again: nothing is
wrong with it, the tree is the same up to its tokens, and it is rendered as the same text.  The
proof goes through the grammar.  The tokens of a rendered tree are a phrase or a clause of the
grammar (`Node.Fits.rereadable`, by induction on well-formedness), and what is a program of the
grammar is read undisturbed (`Parse.program_run`).
-/
namespace LimLang

open Lexeme (isPlain endsWord endsAny)

/-! ## Declared types -/

section Types

variable {follows : Char → Bool} {ds : List Char} {Q : List Token → Prop}

/-- The brackets of an array type, up to what follows them. -/
theorem rereads_brackets (h : Rereads follows ds Q) (hd : ds.head?.any isPlain) :
    Rereads follows (' ' :: '[' :: ']' :: ds)
      (Followed (Single .lbrack "[") (Followed (Single .rbrack "]") Q)) :=
  (rereads_lbrack.seq (rereads_rbrack.seq h hd) rfl).blank

theorem typePhrase_basic {type : BasicType} {t : Token} (hk : t.kind = type.kind)
    (htext : t.text = type.spelling) : TypePhrase [t] type.spelling := by
  rw [← htext]
  exact .basic (by rw [hk]; cases type <;> rfl)

theorem typePhrase_array {type : BasicType} {t opening closing : Token} (hk : t.kind = type.kind)
    (htext : t.text = type.spelling) (ho : opening.kind = .lbrack) (hc : closing.kind = .rbrack) :
    TypePhrase [t, opening, closing] (type.spelling ++ " []") := by
  rw [← htext]
  exact .array (by rw [hk]; cases type <;> rfl) ho hc

theorem TypePhrase.ne_endOfLine {ts : List Token} {type : String} (h : TypePhrase ts type) :
    ∀ t ∈ ts, t.kind ≠ .endOfLine := by
  cases h with
  | @basic t ht =>
    rw [List.forall_mem_singleton]
    intro hend
    rw [hend] at ht
    cases ht
  | @array t _ _ ht ho hc =>
    have hne : t.kind ≠ .endOfLine := by
      intro hend
      rw [hend] at ht
      cases ht
    simp [hne, ho, hc]

/-- A type that is followed by a blank. -/
theorem rereads_typeName {type : String} (ht : Vocabulary.IsTypeName type)
    (h : Rereads follows ds Q) :
    Rereads follows (type.toList ++ ' ' :: ds) (Followed (TypePhrase · type) Q) := by
  obtain ⟨basic, rfl | rfl⟩ := ht
  · refine ((rereads_type basic).seq h.blank rfl).mono ?_
    rintro _ ⟨_, vs, rfl, ⟨t, rfl, hk, htext⟩, hvs⟩
    exact ⟨[t], vs, rfl, typePhrase_basic hk htext, hvs⟩
  · have htext : (basic.spelling ++ " []").toList ++ ' ' :: ds =
        basic.spelling.toList ++ (' ' :: '[' :: ']' :: (' ' :: ds)) := by
      simp
    rw [htext]
    refine ((rereads_type basic).seq (rereads_brackets h.blank rfl) rfl).mono ?_
    rintro _ ⟨_, _, rfl, ⟨t, rfl, hk, htext⟩, _, _, rfl, ⟨opening, rfl, ho, -⟩, _, vs, rfl,
      ⟨closing, rfl, hc, -⟩, hvs⟩
    exact ⟨[t, opening, closing], vs, rfl, typePhrase_array hk htext ho hc, hvs⟩

/-- What the tokens of a parameter are. -/
def Ident.IsReadAs (i : Ident) (ts : List Token) : Prop :=
  ∃ us name type, ts = us ++ [name] ∧ TypePhrase us type ∧ name.kind = .ident ∧
    name.text = i.name ∧ i.typeName = some type

theorem rereads_parameter {i : Ident} (hi : Vocabulary.standard.parameter i) :
    Rereads endsAny i.declaration.toList i.IsReadAs ∧ i.declaration.toList.head?.any isPlain := by
  obtain ⟨hname, type, htype, basic, hbasic⟩ := hi
  have hident := (rereads_name hname).before endsAny_endsWord
  rcases hbasic with rfl | rfl
  · have htext : i.declaration.toList = basic.spelling.toList ++ ' ' :: i.name.toList := by
      have : ['[', ']'].isSuffixOf basic.spelling.toList = false := by cases basic <;> rfl
      simp [Ident.declaration, htype, this]
    rw [htext]
    refine ⟨((rereads_type basic).seq hident.blank rfl).mono ?_, ?_⟩
    · rintro _ ⟨_, _, rfl, ⟨t, rfl, hk, htext⟩, name, rfl, hn, hntext⟩
      exact ⟨[t], name, _, rfl, typePhrase_basic hk htext, hn, hntext, htype⟩
    · cases basic <;> rfl
  · have htext : i.declaration.toList =
        basic.spelling.toList ++ ' ' :: '[' :: ']' :: i.name.toList := by
      have : ['[', ']'].isSuffixOf (basic.spelling ++ " []").toList := by cases basic <;> rfl
      simp only [Ident.declaration, htype]
      rw [if_pos this]
      simp
    rw [htext]
    refine ⟨((rereads_type basic).seq (rereads_brackets hident hname.head_toList) rfl).mono ?_, ?_⟩
    · rintro _ ⟨_, _, rfl, ⟨t, rfl, hk, htext⟩, _, _, rfl, ⟨opening, rfl, ho, -⟩, _, _, rfl,
        ⟨closing, rfl, hc, -⟩, name, rfl, hn, hntext⟩
      exact ⟨[t, opening, closing], name, _, rfl, typePhrase_array hk htext ho hc, hn, hntext, htype⟩
    · cases basic <;> rfl

/-- Parameters that agree but for their tokens. -/
def Ident.AlikeAll (is js : List Ident) : Prop :=
  Ident.sameAll is js ∧ is.map Ident.declaration = js.map Ident.declaration

theorem Ident.AlikeAll.cons {is js : List Ident} {i j : Ident} (hn : i.name = j.name)
    (ht : i.typeName = j.typeName) (h : AlikeAll is js) : AlikeAll (i :: is) (j :: js) := by
  simp [AlikeAll, Ident.sameAll, Ident.same, Ident.declaration, hn, ht, h.1, h.2]

theorem parameter_of_commas {is : List Ident} {ts : List Token} (hne : is ≠ [])
    (h : Commas Ident.IsReadAs is ts) :
    (∀ t ∈ ts, t.kind ≠ .endOfLine) ∧ ∃ js, ParameterPhrase ts js ∧ Ident.AlikeAll js is := by
  induction is generalizing ts with
  | nil => exact absurd rfl hne
  | cons i is ih =>
    cases is with
    | nil =>
      obtain ⟨us, name, type, rfl, htype, hn, htext, hi⟩ := h
      refine ⟨?_, [{ token := name, name := name.text, typeName := some type }], .one htype hn,
        .cons htext hi.symm ⟨rfl, rfl⟩⟩
      simp only [List.forall_mem_append, List.forall_mem_singleton, hn]
      exact ⟨htype.ne_endOfLine, by decide⟩
    | cons j is =>
      obtain ⟨_, _, rfl, ⟨us, name, type, rfl, htype, hn, htext, hi⟩, _, vs, rfl,
        ⟨comma, rfl, hk, -⟩, hvs⟩ := h
      obtain ⟨hlines, js, hjs, ha⟩ := ih (List.cons_ne_nil _ _) hvs
      refine ⟨?_, { token := name, name := name.text, typeName := some type } :: js, ?_,
        .cons htext hi.symm ha⟩
      · simp only [List.forall_mem_append, List.forall_mem_singleton, hn, hk]
        exact ⟨⟨htype.ne_endOfLine, by decide⟩, by decide, hlines⟩
      · simpa using ParameterPhrase.more htype hn hk hjs

theorem parameters_of_commas {is : List Ident} {ts : List Token}
    (h : Commas Ident.IsReadAs is ts) :
    (∀ t ∈ ts, t.kind ≠ .endOfLine) ∧ ∃ js, ParametersPhrase ts js ∧ Ident.AlikeAll js is := by
  by_cases hne : is = []
  · subst hne
    obtain rfl : ts = [] := h
    exact ⟨by simp, [], .none, rfl, rfl⟩
  · obtain ⟨hline, js, hjs, ha⟩ := parameter_of_commas hne h
    exact ⟨hline, js, .some hjs, ha⟩

/-- The type of a function's result, if it has one, between blanks. -/
theorem rereads_result {result : Option String} (hr : Vocabulary.standard.result result)
    (h : Rereads follows ds Q) :
    Rereads follows
        ((Node.resultText result).toList ++ ' ' :: ds) (Followed (ResultPhrase · result) Q) ∧
      ((Node.resultText result).toList ++ ' ' :: ds).head?.any isPlain := by
  cases result with
  | none =>
    refine ⟨h.blank.mono fun ts hts => ?_, rfl⟩
    exact ⟨[], ts, rfl, .none, hts⟩
  | some type =>
    have htype : Vocabulary.IsTypeName type := hr type rfl
    have hne : type ≠ "" := by
      obtain ⟨basic, rfl | rfl⟩ := htype <;> cases basic <;> decide
    have htext : (Node.resultText (some type)).toList ++ ' ' :: ds =
        ' ' :: (type.toList ++ ' ' :: ds) := by
      simp [Node.resultText, hne]
    rw [htext]
    refine ⟨(rereads_typeName htype h).blank.mono ?_, rfl⟩
    rintro _ ⟨us, vs, rfl, hus, hvs⟩
    exact ⟨us, vs, rfl, .plain hus, hvs⟩

end Types

/-! ## Statements -/

section Statements

variable {t : Token} {a b c : Node} {ss : List Node} {P Q R : List Token → Prop}

/-- A name, its value, and the sign between them. -/
theorem rereads_initializer {name : Ident} (hn : Vocabulary.standard.varName name)
    (h : Rereads endsAny (a.textAt .expression) P) :
    Rereads endsAny (name.name.toList ++ ' ' :: '=' :: ' ' :: a.render.toList)
      (Followed (Single .ident name.name) (Followed (Single .assign "=") P)) := by
  have hassign : Rereads isPlain ['='] (Single .assign "=") := .symbol rfl
  exact (rereads_name hn.1).seq (hassign.seq h.blank rfl).blank rfl

theorem initializer_of_followed {name : Ident} {ts : List Token}
    (hn : Vocabulary.standard.varName name)
    (h : Followed (Single .ident name.name) (Followed (Single .assign "=")
      (a.IsReadAs .expression)) ts) :
    ∃ i us, ts = i :: us ∧ i.kind = .ident ∧ i.toIdent.same name ∧
      ∃ n, (∀ zero, InitializerPhrase.Within a.levels zero us n) ∧ n.Alike a := by
  obtain ⟨_, _, rfl, ⟨i, rfl, hi, htext⟩, _, us, rfl, ⟨assign, rfl, ha, -⟩, -, n, hphrase, halike⟩ := h
  refine ⟨i, assign :: us, rfl, hi, ?_, n,
    fun zero => .some ha .nil (hphrase.loosen (by decide)), halike⟩
  simp [Ident.same, Token.toIdent, htext, hn.2]

theorem rereads_declare {type : BasicType} {name : Ident}
    (hn : Vocabulary.standard.varName name) (h : Rereads endsAny (a.textAt .expression) P) :
    Rereads endsAny ((Node.declare t type name a).textAt .statement)
      (Followed (Single type.kind type.spelling)
        (Followed (Single .ident name.name) (Followed (Single .assign "=") P))) := by
  have htext : (Node.declare t type name a).textAt .statement =
      type.spelling.toList ++ ' ' :: (name.name.toList ++ ' ' :: '=' :: ' ' :: a.render.toList) := by
    simp [Node.textAt, Node.render]
  rw [htext]
  exact (rereads_type type).seq (rereads_initializer hn h).blank rfl

theorem rereadable_declare {type : BasicType} {name : Ident}
    (hn : Vocabulary.standard.varName name) (h : a.Rereadable .expression) :
    (Node.declare t type name a).Rereadable .statement := by
  refine (rereads_declare hn h).mono ?_
  rintro _ ⟨_, _, rfl, ⟨keyword, rfl, hk, -⟩, hvalue⟩
  obtain ⟨i, us, rfl, hi, hsame, n, hinit, ha⟩ := initializer_of_followed hn hvalue
  have hof : BasicType.ofKind? keyword.kind = some type := by rw [hk]; cases type <;> rfl
  exact ⟨_, .inl (.declare hof hi (hinit _)), .declare hsame ha⟩

theorem rereads_declareArray {basic : BasicType} {name : Ident}
    (hn : Vocabulary.standard.varName name) (h : Rereads endsAny (a.textAt .expression) P) :
    Rereads endsAny ((Node.declareArray t basic.spelling name a).textAt .statement)
      (Followed (Single basic.kind basic.spelling)
        (Followed (Single .lbrack "[") (Followed (Single .rbrack "]")
          (Followed (Single .ident name.name) (Followed (Single .assign "=") P))))) := by
  have htext : (Node.declareArray t basic.spelling name a).textAt .statement =
      basic.spelling.toList ++ ' ' :: '[' :: ']' ::
        (name.name.toList ++ ' ' :: '=' :: ' ' :: a.render.toList) := by
    simp [Node.textAt, Node.render]
  have hrest := rereads_brackets (rereads_initializer hn h) (head_append hn.1.head_toList _)
  rw [htext]
  exact (rereads_type basic).seq hrest rfl

theorem rereadable_declareArray {kind : String} {name : Ident}
    (hk : Vocabulary.standard.element kind) (hn : Vocabulary.standard.varName name)
    (h : a.Rereadable .expression) : (Node.declareArray t kind name a).Rereadable .statement := by
  obtain ⟨basic, rfl⟩ := hk
  refine (rereads_declareArray hn h).mono ?_
  rintro _ ⟨_, _, rfl, ⟨keyword, rfl, hk, htext⟩, _, _, rfl, ⟨opening, rfl, ho, -⟩, _, _, rfl,
    ⟨closing, rfl, hc, -⟩, hvalue⟩
  obtain ⟨i, us, rfl, hi, hsame, n, hinit, ha⟩ := initializer_of_followed hn hvalue
  have htype : keyword.kind.isType := by rw [hk]; cases basic <;> rfl
  refine ⟨_, .inl (.declareArray htype ho hc hi (hinit _)), ?_⟩
  rw [htext]
  exact .declareArray hsame ha

theorem rereads_return : Rereads endsWord "return".toList (Single .kwReturn "return") :=
  rereads_keyword .kwReturn (by decide)

theorem rereads_bareReturn :
    Rereads endsAny ((Node.bareReturn t).textAt .statement) (Single .kwReturn "return") := by
  have htext : (Node.bareReturn t).textAt .statement = "return".toList := by
    simp [Node.textAt, Node.render]
  rw [htext]
  exact rereads_return.before endsAny_endsWord

theorem rereadable_bareReturn : (Node.bareReturn t).Rereadable .statement := by
  refine rereads_bareReturn.mono ?_
  rintro _ ⟨keyword, rfl, hk, -⟩
  exact ⟨_, .inl (.bareReturn hk), by simp [Node.Alike, Node.same, Node.render]⟩

theorem rereads_returnValue (h : Rereads endsAny (a.textAt .expression) P) :
    Rereads endsAny ((Node.returnValue t a).textAt .statement)
      (Followed (Single .kwReturn "return") P) := by
  have htext : (Node.returnValue t a).textAt .statement =
      "return".toList ++ ' ' :: a.render.toList := by
    simp [Node.textAt, Node.render]
  rw [htext]
  exact rereads_return.seq h.blank rfl

theorem rereadable_returnValue (h : a.Rereadable .expression) :
    (Node.returnValue t a).Rereadable .statement := by
  refine (rereads_returnValue h).mono ?_
  rintro _ ⟨_, us, rfl, ⟨keyword, rfl, hk, -⟩, -, n, hn, ha⟩
  exact ⟨_, .inl (.returnValue hk (hn.loosen (by decide))), .returnValue ha⟩

theorem rereads_expression (h : Rereads endsAny (a.textAt .expression) P) :
    Rereads endsAny ((Node.expression t a).textAt .statement) P := by
  have htext : (Node.expression t a).textAt .statement = a.textAt .expression := by
    simp [Node.textAt, Node.render]
  rw [htext]
  exact h

theorem rereadable_expression (h : a.Rereadable .expression) :
    (Node.expression t a).Rereadable .statement := by
  refine (rereads_expression h).mono ?_
  rintro ts ⟨-, n, hn, ha⟩
  obtain ⟨first, us, rfl, -⟩ := hn.phrase.exists_cons (by simp)
  exact ⟨_, .inl (.expression (hn.loosen (by decide))), .expression ha⟩

theorem rereads_function {name : String} {parameters : List Ident} {result : Option String}
    (hn : Vocabulary.standard.functionName name)
    (hp : ∀ i ∈ parameters, Vocabulary.standard.parameter i)
    (hr : Vocabulary.standard.result result) (h : Rereads endsAny (a.textAt .body) P) :
    Rereads endsAny ((Node.function t name parameters result a).textAt .statement)
      (Followed (Single .kwFn "fn") (Followed (Single .ident name) (Followed (Single .lparen "(")
        (Followed (Followed (Commas Ident.IsReadAs parameters) (Single .rparen ")"))
          (Followed (ResultPhrase · result) P))))) := by
  have hfn : Rereads endsWord "fn".toList (Single .kwFn "fn") :=
    rereads_keyword .kwFn (by decide)
  obtain ⟨hparameters, hhead⟩ := rereads_commas (show Lexeme.single? ')' = some .rparen from rfl) rfl
    parameters fun i hi => rereads_parameter (hp i hi)
  obtain ⟨hresult, hblank⟩ := rereads_result hr h
  have htext : (Node.function t name parameters result a).textAt .statement =
      "fn".toList ++ ' ' :: (name.toList ++ (['('] ++
        ((", ".intercalate (parameters.map Ident.declaration)).toList ++ [')'] ++
          ((Node.resultText result).toList ++ ' ' :: a.render.toList)))) := by
    simp [Node.textAt, Node.render, Node.signature, Ident.declarations]
  rw [htext]
  exact hfn.seq ((rereads_name hn).seq
    (rereads_lparen.seq (hparameters.seq hresult hblank) (head_append hhead _)) rfl).blank rfl

theorem rereadable_function {name : String} {parameters : List Ident} {result : Option String}
    (hn : Vocabulary.standard.functionName name)
    (hp : ∀ i ∈ parameters, Vocabulary.standard.parameter i)
    (hr : Vocabulary.standard.result result) (h : a.Rereadable .body) :
    (Node.function t name parameters result a).Rereadable .statement := by
  refine (rereads_function hn hp hr h).mono ?_
  rintro _ ⟨_, _, rfl, ⟨keyword, rfl, hk, -⟩, _, _, rfl, ⟨i, rfl, hi, hitext⟩, _, _, rfl,
    ⟨opening, rfl, ho, -⟩, _, _, rfl, ⟨ps, _, rfl, hps, closing, rfl, hc, -⟩, rs, bs, rfl, hrs, n,
    hbs, ha⟩
  obtain ⟨hline, js, hjs, hjs'⟩ := parameters_of_commas hps
  rw [← unbroken_eq_self hline] at hjs
  refine ⟨.function keyword i.text js result n, .inr ?_, ?_⟩
  · simpa [Node.levels] using hbs.function hk hi ho hjs hc hrs
  · rw [hitext]
    exact .function hjs'.1 hjs'.2 ha

/-- A statement that has a line to itself. -/
theorem Clause.Within.line {k l : Nat} {ts us : List Token} {newline : Token} {n : Node}
    {ns : List Node} (hs : Within k .simple ts [n] ∨ Within k .compound ts [n])
    (hn : newline.kind = .endOfLine) (h : Within l .body us ns) :
    Within (max (k + 1) l) .body (ts ++ newline :: us) (n :: ns) := by
  have hsep : newline.kind.isSeparator := by rw [hn]; rfl
  rcases hs with hs | hs
  · exact .ended hs hsep h
  · exact .braced hs (.separator hsep (.inl hn) h)

theorem Clause.Within.lastLine {k : Nat} {ts : List Token} {n : Node}
    (hs : Within k .simple ts [n] ∨ Within k .compound ts [n]) :
    Within (max (k + 1) 0) .body ts [n] := by
  rcases hs with hs | hs
  · exact hs.last.deeper (Nat.le_max_left _ _)
  · rw [← List.append_nil ts]
    exact .braced hs .empty

/-- The tokens of several things, each followed by a newline. -/
def Lines (P : Node → List Token → Prop) : List Node → List Token → Prop
  | [] => (· = [])
  | s :: ss => Followed (P s) (Followed (Single .endOfLine "\n") (Lines P ss))

/-- Statements, each on a line, up to a closing brace. -/
theorem rereads_lines {L : Node → List Token → Prop}
    (h : ∀ s ∈ ss, Rereads endsAny (s.textAt .statement) (L s)) :
    Rereads isPlain ((String.join ((ss.map Node.render).map (· ++ "\n"))).toList ++ ['\x7d'])
      (Followed (Lines L ss) (Single .rbrace "\x7d")) := by
  induction ss with
  | nil =>
    have hclose : Rereads isPlain ['\x7d'] (Single .rbrace "\x7d") := .symbol rfl
    exact hclose.mono fun ts hts => ⟨[], ts, rfl, rfl, hts⟩
  | cons s ss ih =>
    obtain ⟨hs, hss⟩ := List.forall_mem_cons.1 h
    have htext : (String.join (((s :: ss).map Node.render).map (· ++ "\n"))).toList ++ ['\x7d'] =
        s.render.toList ++ '\n' ::
          ((String.join ((ss.map Node.render).map (· ++ "\n"))).toList ++ ['\x7d']) := by
      simp [String.toList_join]
    rw [htext]
    refine (hs.seq (ih hss).newline rfl).mono ?_
    rintro _ ⟨ts, _, rfl, hts, _, _, rfl, ⟨newline, rfl, hk⟩, us, vs, rfl, hus, hvs⟩
    exact ⟨ts ++ newline :: us, vs, by simp, ⟨ts, _, rfl, hts, [newline], us, rfl,
      ⟨newline, rfl, hk⟩, hus⟩, hvs⟩

theorem clause_of_lines {ts : List Token} (h : Lines (fun s => s.IsReadAs .statement) ss ts) :
    ∃ ns, Clause.Within (Node.levelsAll ss) .body ts ns ∧ Node.AlikeAll ns ss := by
  induction ss generalizing ts with
  | nil =>
    obtain rfl : ts = [] := h
    exact ⟨[], .empty, .nil⟩
  | cons s ss ih =>
    obtain ⟨ts, _, rfl, ⟨n, hn, ha⟩, _, us, rfl, ⟨newline, rfl, hk, -⟩, hus⟩ := h
    obtain ⟨ns, hns, has⟩ := ih hus
    exact ⟨n :: ns, .line hn hk hns, .cons ha has⟩

theorem rereads_block {L : Node → List Token → Prop}
    (h : ∀ s ∈ ss, Rereads endsAny (s.textAt .statement) (L s)) :
    Rereads endsAny ((Node.block t ss).textAt .body)
      (Followed (Single .lbrace "\x7b") (Followed (Single .endOfLine "\n")
        (Followed (Lines L ss) (Single .rbrace "\x7d")))) := by
  have hopen : Rereads isPlain ['\x7b'] (Single .lbrace "\x7b") := .symbol rfl
  have htext : (Node.block t ss).textAt .body = ['\x7b'] ++ '\n' ::
      ((String.join ((ss.map Node.render).map (· ++ "\n"))).toList ++ ['\x7d']) := by
    simp [Node.textAt, Node.render, Node.renderAll_eq_map]
  rw [htext]
  exact (hopen.seq (rereads_lines h).newline rfl).before endsAny_isPlain

theorem rereadable_block (h : ∀ s ∈ ss, s.Rereadable .statement) :
    (Node.block t ss).Rereadable .body := by
  refine (rereads_block h).mono ?_
  rintro _ ⟨_, _, rfl, ⟨opening, rfl, ho, -⟩, _, _, rfl, ⟨newline, rfl, hk, -⟩, us, _, rfl, hus,
    closing, rfl, hc, -⟩
  obtain ⟨ns, hns, ha⟩ := clause_of_lines hus
  have hbody : Clause.Within (Node.levelsAll ss) .body (newline :: us) ns :=
    .separator (by rw [hk]; rfl) (.inl hk) hns
  exact ⟨.block opening ns, .block ho hc hbody, .block ha⟩

theorem rereads_if : Rereads endsWord "if".toList (Single .kwIf "if") :=
  rereads_keyword .kwIf (by decide)

theorem rereads_else : Rereads endsWord "else".toList (Single .kwElse "else") :=
  rereads_keyword .kwElse (by decide)

theorem rereads_ifThen (hc : Rereads endsAny (a.textAt .expression) P)
    (hb : Rereads endsAny (b.textAt .body) Q) :
    Rereads endsAny ((Node.ifThen t a b).textAt .chain)
      (Followed (Single .kwIf "if") (Followed P Q)) := by
  have htext : (Node.ifThen t a b).textAt .chain =
      "if".toList ++ ' ' :: (a.render.toList ++ ' ' :: b.render.toList) := by
    simp [Node.textAt, Node.render]
  rw [htext]
  exact rereads_if.seq (hc.seq hb.blank rfl).blank rfl

theorem rereadable_ifThen (hc : a.Rereadable .expression) (hb : b.Rereadable .body) :
    (Node.ifThen t a b).Rereadable .chain := by
  refine (rereads_ifThen hc hb).mono ?_
  rintro _ ⟨_, _, rfl, ⟨keyword, rfl, hk, -⟩, us, vs, rfl, ⟨-, m, hm, ham⟩, n, hn, han⟩
  exact ⟨rfl, .ifThen keyword m n, .ifThen hk .nil (hm.loosen (by decide)) hn, rfl,
    .ifThen ham han⟩

theorem rereads_ifElse (hc : Rereads endsAny (a.textAt .expression) P)
    (hb : Rereads endsAny (b.textAt .body) Q) (hn : Rereads endsAny (c.textAt .link) R) :
    Rereads endsAny ((Node.ifElse t a b c).textAt .chain)
      (Followed (Single .kwIf "if") (Followed P (Followed Q R))) := by
  have htext : (Node.ifElse t a b c).textAt .chain =
      "if".toList ++ ' ' :: (a.render.toList ++ ' ' :: (b.render.toList ++ ' ' :: c.textAt .link)) := by
    cases hcond : c.hasCondition <;> simp [Node.textAt, Node.render, hcond]
  rw [htext]
  exact rereads_if.seq (hc.seq (hb.seq hn.blank rfl).blank rfl).blank rfl

theorem rereadable_ifElse (hc : a.Rereadable .expression) (hb : b.Rereadable .body)
    (hn : c.Rereadable .link) : (Node.ifElse t a b c).Rereadable .chain := by
  refine (rereads_ifElse hc hb hn).mono ?_
  rintro _ ⟨_, _, rfl, ⟨keyword, rfl, hk, -⟩, us, _, rfl, ⟨-, m, hm, ham⟩, vs, _, rfl, ⟨n, hn, han⟩,
    alternative, ws, rfl, he, hlink⟩
  have hcondition : Phrase.Within a.levels (.expression Precedence.lowest) us [m] :=
    hm.loosen (by decide)
  refine ⟨rfl, ?_⟩
  -- The grammar has two forms of a chain that goes on, by whether the next link has a condition.
  rcases hlink with ⟨hcond, last, hlast, ha⟩ | ⟨hcond, next, hnext, hcond', ha⟩
  · exact ⟨_, .ifOtherwise hk .nil hcondition hn he hlast, rfl, .ifElse ham han ha hcond.symm⟩
  · exact ⟨_, .ifElse hk .nil hcondition hn he hnext, rfl,
      .ifElse ham han ha (hcond'.trans hcond.symm)⟩

theorem rereads_otherwise (h : Rereads endsAny (a.textAt .body) P) :
    Rereads endsAny ((Node.otherwise t a).textAt .link) (Followed (Single .kwElse "else") P) := by
  have htext : (Node.otherwise t a).textAt .link = "else".toList ++ ' ' :: a.render.toList := by
    simp [Node.textAt, Node.render, Node.hasCondition]
  rw [htext]
  exact rereads_else.seq h.blank rfl

theorem rereadable_otherwise (h : a.Rereadable .body) :
    (Node.otherwise t a).Rereadable .link := by
  refine (rereads_otherwise h).mono ?_
  rintro _ ⟨_, us, rfl, ⟨alternative, rfl, hk, -⟩, n, hn, ha⟩
  exact ⟨alternative, us, rfl, hk, .inl ⟨rfl, n, hn, .otherwise ha⟩⟩

theorem rereads_elseIf (hcond : a.hasCondition) (h : Rereads endsAny (a.textAt .chain) P) :
    Rereads endsAny (a.textAt .link) (Followed (Single .kwElse "else") P) := by
  have htext : a.textAt .link = "else".toList ++ ' ' :: a.render.toList := by
    simp [Node.textAt, hcond]
  rw [htext]
  exact rereads_else.seq h.blank rfl

theorem rereadable_elseIf (hcond : a.hasCondition) (h : a.Rereadable .chain) :
    a.Rereadable .link := by
  refine (rereads_elseIf hcond h).mono ?_
  rintro _ ⟨_, us, rfl, ⟨alternative, rfl, hk, -⟩, hchain⟩
  exact ⟨alternative, us, rfl, hk, .inr hchain⟩

theorem rereadable_branches (h : a.Rereadable .chain) : a.Rereadable .statement := by
  refine h.mono ?_
  rintro ts ⟨-, n, hn, -, ha⟩
  exact ⟨n, .inr (.branches hn), ha⟩

/-- The statements of a program, with newlines in between. -/
theorem rereads_statements (h : ∀ s ∈ ss, s.Rereadable .statement) :
    Rereads endsAny ("\n".intercalate (ss.map Node.render)).toList
      (fun ts => ∃ ns, Clause.Within (Node.levelsAll ss) .body ts ns ∧ Node.AlikeAll ns ss) := by
  simp only [String.toList_intercalate, List.map_map]
  induction ss with
  | nil =>
    refine Rereads.nil.mono ?_
    rintro _ rfl
    exact ⟨[], .empty, .nil⟩
  | cons s ss ih =>
    obtain ⟨hs, hss⟩ := List.forall_mem_cons.1 h
    cases ss with
    | nil =>
      rw [List.map_singleton, List.intercalate_singleton]
      refine hs.mono ?_
      rintro ts ⟨n, hn, ha⟩
      exact ⟨[n], .lastLine hn, .cons ha .nil⟩
    | cons s' ss =>
      rw [List.map_cons, List.map_cons, List.intercalate_cons_cons, ← List.map_cons,
        List.append_assoc]
      refine (hs.seq (ih hss).newline rfl).mono ?_
      rintro _ ⟨ts, _, rfl, ⟨n, hn, ha⟩, _, us, rfl, ⟨newline, rfl, hk, -⟩, ns, hns, has⟩
      exact ⟨n :: ns, .line hn hk hns, .cons ha has⟩

theorem rereadable_program (h : ∀ s ∈ ss, s.Rereadable .statement) :
    (Node.program ss).Rereadable .program := by
  have htext : (Node.program ss).textAt .program =
      ("\n".intercalate (ss.map Node.render)).toList := by
    simp [Node.textAt, Node.render_program]
  rw [Node.Rereadable, htext]
  refine (rereads_statements h).mono ?_
  rintro ts ⟨ns, hns, ha⟩
  exact ⟨ns, hns, .program ha⟩

end Statements

/-- **The tokens of a rendered tree are a phrase or a clause of the grammar**, for a tree that
differs from it in its tokens only. -/
theorem Node.Fits.rereadable {place : Place} {node : Node}
    (h : node.Fits Vocabulary.standard place) : node.Rereadable place := by
  induction h with
  | ident hn => exact rereadable_ident hn
  | int hn => exact rereadable_int hn
  | bool => exact rereadable_bool
  | string hs => exact rereadable_string hs
  | null => exact rereadable_null
  | array hes ih => exact rereadable_array hes ih
  | unary ho h ih => exact rereadable_unary ho h ih
  | binary ho hl _ ihl ihr => exact rereadable_binary ho hl ihl ihr
  | call _ hes ihf ih => exact rereadable_call ihf hes ih
  | index hl hp ihl ihp => exact rereadable_index hl hp ihl ihp
  | declare hn _ ih => exact rereadable_declare hn ih
  | declareArray hk hn _ ih => exact rereadable_declareArray hk hn ih
  | bareReturn => exact rereadable_bareReturn
  | returnValue _ ih => exact rereadable_returnValue ih
  | expression _ ih => exact rereadable_expression ih
  | function hn hp hr _ ih => exact rereadable_function hn hp hr ih
  | branches _ ih => exact rereadable_branches ih
  | ifThen _ _ ihc ihb => exact rereadable_ifThen ihc ihb
  | ifElse _ _ _ ihc ihb ihn => exact rereadable_ifElse ihc ihb ihn
  | otherwise _ ih => exact rereadable_otherwise ih
  | elseIf h ih => exact rereadable_elseIf (by cases h <;> rfl) ih
  | block _ ih => exact rereadable_block ih
  | program _ ih => exact rereadable_program ih

/-! ## Reading a rendered program -/

/-- **A rendered program is read back.**  Nothing is wrong with its text and nothing suspicious
about it, its tree is the same, and it is rendered as the same text again. -/
theorem Source.parse_render (p : Node) (hp : p.Fits Vocabulary.standard .program) (limits : Limits)
    (hdigits : 19 ≤ limits.digits) (hnesting : p.render.length < limits.nesting) (firstLine : Int) :
    ∃ parsed, Source.parse { text := p.render.toList, firstLine } limits = .ok parsed ∧
      parsed.errors = [] ∧ parsed.warnings = [] ∧ parsed.program.same p = true ∧
      parsed.program.render = p.render := by
  obtain ⟨ls, hcut, hclean, hread⟩ := hp.rereadable
  generalize hs : ({ text := p.render.toList, firstLine } : Source) = source
  have hls : Lexeme.cut source.text = ls := by
    have := hcut [] rfl
    rw [List.append_nil, Lexeme.cut_nil, List.append_nil] at this
    rw [← hs]
    exact this
  -- No lexeme gives rise to an error or a warning, and none makes a token the parser could not read.
  have hplaced : ∀ placed ∈ source.lexemes, placed.2.isClean := fun placed h =>
    hclean _ (hls ▸ Lexeme.mem_of_mem_place h)
  have hcontents : (source.lexemes.filterMap Lexeme.tokenAt?).map Token.contents =
      ls.filterMap Lexeme.token? := by
    rw [← hls]
    exact Lexeme.map_contents source.start _
  have htokens : ∀ t ∈ source.lexemes.filterMap Lexeme.tokenAt?,
      t.kind ≠ .eof ∧ (t.kind = .int → t.text.length ≤ limits.digits) := by
    intro t ht
    have hmem : t.contents ∈ ls.filterMap Lexeme.token? := by
      rw [← hcontents]
      exact List.mem_map_of_mem ht
    obtain ⟨l, hl, htoken⟩ := List.mem_filterMap.1 hmem
    obtain ⟨hne, hshort⟩ := Lexeme.token?_of_isClean (hclean l hl) htoken
    exact ⟨hne, fun hk => (hshort hk).trans hdigits⟩
  -- There are no more tokens than characters, so there is room for the nesting.
  have hlength : (source.lexemes.filterMap Lexeme.tokenAt?).length < limits.nesting := by
    have hcount := congrArg List.length hcontents
    have hle : ls.length ≤ source.text.length := hls ▸ Lexeme.length_cutWithin_le _ _
    have hfilter := List.length_filterMap_le Lexeme.token? ls
    rw [List.length_map] at hcount
    rw [← hs] at hle
    rw [hcount]
    exact (hfilter.trans hle).trans_lt hnesting
  obtain ⟨ns, hns, hsame, hrender⟩ := hread _ hcontents
  have hrun := Parse.program_run (show source.endToken.kind = .eof from rfl)
    (fun t ht => (htokens t ht).1) (fun t ht => (htokens t ht).2) hns.clause.within hlength
  have herrors : source.lexicalErrors = [] :=
    List.filterMap_eq_nil_iff.2 fun placed h => source.lexicalError?_of_isClean (hplaced placed h)
  have hwarnings : source.warnings = [] :=
    List.filterMap_eq_nil_iff.2 fun placed h => source.lexicalWarning?_of_isClean (hplaced placed h)
  refine ⟨⟨.program ns, [], []⟩, ?_, rfl, rfl, hsame, hrender⟩
  simp [Source.parse, Source.tokens, hrun, herrors, hwarnings, Diagnostic.inOrder]

/-- A function with branches, in the text of which newlines, brackets and signs meet names and
numerals. -/
theorem Source.parse_render_function : ∃ p : Node,
    p.render = "fn f(int []xs, bool b) int \x7b\nif ((xs[0]) < (-1)) \x7b\n" ++
        "return f([], \x22\n\x22)\n\x7d else \x7b\n\x7d\n\x7d" ∧
      p.Fits Vocabulary.standard .program ∧
      ∃ parsed, Source.parse { text := p.render.toList } Limits.standard = .ok parsed ∧
        parsed.errors = [] ∧ parsed.warnings = [] ∧ parsed.program.same p = true ∧
        parsed.program.render = p.render := by
  let t : Token := { kind := .illegal, text := "" }
  let xs : Ident := { token := t, name := "xs" }
  let f : Ident := { token := t, name := "f" }
  let parameters : List Ident :=
    [{ xs with typeName := some "int []" }, { token := t, name := "b", typeName := some "bool" }]
  let condition : Node :=
    .binary t (.index t (.ident xs) (.int t 0)) "<" (.unary t "-" (.int t 1))
  let result : Node := .call t (.ident f) [.array t [], .string t "\n"]
  let branches : Node :=
    .ifElse t condition (.block t [.returnValue t result]) (.otherwise t (.block t []))
  let p : Node := .program [.function t "f" parameters (some "int") (.block t [branches])]
  have hrender : p.render = "fn f(int []xs, bool b) int \x7b\nif ((xs[0]) < (-1)) \x7b\n" ++
      "return f([], \x22\n\x22)\n\x7d else \x7b\n\x7d\n\x7d" := by
    simp only [Node.render, Node.renderAll, Node.signature, Node.resultText, Ident.declarations, p,
      branches, result, condition, parameters, xs, f]
    decide
  have hxs : Vocabulary.IsName "xs" := ⟨'x', ['s'], rfl, rfl, rfl, rfl⟩
  have hf : Vocabulary.IsName "f" := ⟨'f', [], rfl, rfl, rfl, rfl⟩
  have hb : Vocabulary.IsName "b" := ⟨'b', [], rfl, rfl, rfl, rfl⟩
  have hint : Vocabulary.standard.int 0 ∧ Vocabulary.standard.int 1 := by
    simp [Vocabulary.standard, MachineInt.bound]
  have hcondition : condition.Fits Vocabulary.standard .expression :=
    .binary (by simp [Vocabulary.standard]) (.index (.ident ⟨hxs, rfl⟩) (.int hint.1))
      (.unary (by simp [Vocabulary.standard]) (.int hint.2))
  have hresult : result.Fits Vocabulary.standard .expression := by
    refine .call (.ident ⟨hf, rfl⟩) ?_
    simp only [List.forall_mem_cons]
    exact ⟨.array (by simp), .string (by simp [Vocabulary.standard]), by simp⟩
  have hbranches : branches.Fits Vocabulary.standard .chain :=
    .ifElse hcondition (.block (by simpa using .returnValue hresult)) (.otherwise (.block (by simp)))
  have hparameters : ∀ i ∈ parameters, Vocabulary.standard.parameter i := by
    simp only [parameters, List.forall_mem_cons]
    exact ⟨⟨hxs, _, rfl, .int, .inr rfl⟩, ⟨hb, _, rfl, .bool, .inl rfl⟩, by simp⟩
  have hp : p.Fits Vocabulary.standard .program := by
    refine .program ?_
    rw [List.forall_mem_singleton]
    refine .function hf hparameters ?_ (.block ?_)
    · intro type htype
      obtain rfl := Option.mem_some_iff.1 htype
      exact ⟨.int, .inl rfl⟩
    · rw [List.forall_mem_singleton]
      exact .branches hbranches
  refine ⟨p, hrender, hp, Source.parse_render p hp Limits.standard (by decide) ?_ 1⟩
  rw [hrender]
  decide

end LimLang
