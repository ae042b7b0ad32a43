import LimLang.Proofs.Relexing
import LimLang.Proofs.StatementCompleteness
import LimLang.Tree.Render
import LimLang.Tree.Same

/-! # The tokens of rendered expressions

A rendered expression is cut into the tokens of a phrase, for a tree that differs from the rendered
one in its tokens only (`Node.Alike`).  Every rendered expression binds as tightly as a name does,
since all operators and indices are rendered in parentheses.  So it stands in any place of an
expression, whatever is around it, and no precedence has to be kept track of.

Rendering also tells how deep the parser goes with a tree (`Node.levels`): parentheses and operators are
where the tree has them.

What may follow an expression in a text is any character that ends a word and makes no longer
symbol; all that is rendered behind one is such a character.
-/
namespace LimLang

open Lexeme (isPlain endsWord endsAny)

/-! ## Trees that differ in their tokens only -/

namespace Node

/-- **Trees that are told apart by their tokens alone**: they are the same, and rendered alike. -/
def Alike (a b : Node) : Prop :=
  a.same b ∧ a.render = b.render

/-- Lists of trees that are told apart by their tokens alone. -/
def AlikeAll (as bs : List Node) : Prop :=
  sameAll as bs ∧ renderAll as = renderAll bs

-- Both functions go through a tree in step, so one unfolding of each compares two nodes.
attribute [local simp] same sameAll render renderAll

theorem AlikeAll.nil : AlikeAll [] [] :=
  ⟨rfl, rfl⟩

theorem AlikeAll.cons {a b : Node} {as bs : List Node} (h : a.Alike b) (hs : AlikeAll as bs) :
    AlikeAll (a :: as) (b :: bs) := by
  exact ⟨by simp [h.1, hs.1], by simp [h.2, hs.2]⟩

variable {s t : Token} {a b c d : Node} {as bs : List Node}

theorem Alike.array (h : AlikeAll as bs) : (array s as).Alike (.array t bs) := by
  exact ⟨by simp [h.1], by simp [h.2]⟩

theorem Alike.unary {operator : String} (h : a.Alike b) :
    (unary s operator a).Alike (.unary t operator b) := by
  exact ⟨by simp [h.1], by simp [h.2]⟩

theorem Alike.binary {operator : String} (hl : a.Alike b) (hr : c.Alike d) :
    (binary s a operator c).Alike (.binary t b operator d) := by
  exact ⟨by simp [hl.1, hr.1], by simp [hl.2, hr.2]⟩

theorem Alike.call (hf : a.Alike b) (h : AlikeAll as bs) :
    (call s a as).Alike (.call t b bs) := by
  exact ⟨by simp [hf.1, h.1], by simp [hf.2, h.2]⟩

theorem Alike.index (hl : a.Alike b) (hp : c.Alike d) :
    (index s a c).Alike (.index t b d) := by
  exact ⟨by simp [hl.1, hp.1], by simp [hl.2, hp.2]⟩

theorem Alike.declare {type : BasicType} {i j : Ident} (hi : i.same j) (h : a.Alike b) :
    (declare s type i a).Alike (.declare t type j b) := by
  have hname : i.name = j.name := by
    simp only [Ident.same, Bool.and_eq_true, beq_iff_eq] at hi
    exact hi.1
  exact ⟨by simp [h.1, hi], by simp [h.2, hname]⟩

theorem Alike.declareArray {kind : String} {i j : Ident} (hi : i.same j) (h : a.Alike b) :
    (declareArray s kind i a).Alike (.declareArray t kind j b) := by
  have hname : i.name = j.name := by
    simp only [Ident.same, Bool.and_eq_true, beq_iff_eq] at hi
    exact hi.1
  exact ⟨by simp [h.1, hi], by simp [h.2, hname]⟩

theorem Alike.returnValue (h : a.Alike b) : (returnValue s a).Alike (.returnValue t b) := by
  exact ⟨by simp [h.1], by simp [h.2]⟩

theorem Alike.expression (h : a.Alike b) : (expression s a).Alike (.expression t b) := by
  exact ⟨by simp [h.1], by simp [h.2]⟩

theorem Alike.block (h : AlikeAll as bs) : (block s as).Alike (.block t bs) := by
  exact ⟨by simp [h.1], by simp [h.2]⟩

theorem Alike.ifThen (hc : a.Alike b) (hb : c.Alike d) :
    (ifThen s a c).Alike (.ifThen t b d) := by
  exact ⟨by simp [hc.1, hb.1], by simp [hc.2, hb.2]⟩

theorem Alike.ifElse {m n : Node} (hc : a.Alike b) (hb : c.Alike d) (hn : m.Alike n)
    (hcond : m.hasCondition = n.hasCondition) : (ifElse s a c m).Alike (.ifElse t b d n) := by
  exact ⟨by simp [hc.1, hb.1, hn.1], by simp [hc.2, hb.2, hn.2, hcond]⟩

theorem Alike.otherwise (h : a.Alike b) : (otherwise s a).Alike (.otherwise t b) := by
  exact ⟨by simp [h.1], by simp [h.2]⟩

theorem Alike.program (h : AlikeAll as bs) : (program as).Alike (.program bs) := by
  exact ⟨by simp [h.1], by simp [h.2]⟩

theorem Alike.function {name : String} {result : Option String} {is js : List Ident}
    (hs : Ident.sameAll is js) (hd : is.map Ident.declaration = js.map Ident.declaration)
    (h : a.Alike b) :
    (function s name is result a).Alike (.function t name js result b) := by
  exact ⟨by simp [hs, h.1], by simp [signature, Ident.declarations, hd, h.2]⟩

end Node

/-! ## Leaves -/

theorem endsAny_isPlain (c : Char) (h : endsAny c) : isPlain c :=
  (Bool.and_eq_true_iff.1 h).1

theorem endsAny_endsWord (c : Char) (h : endsAny c) : endsWord c :=
  (Bool.and_eq_true_iff.1 h).2

theorem head_append {p : Char → Bool} {cs : List Char} (h : cs.head?.any p) (ds : List Char) :
    (cs ++ ds).head?.any p := by
  cases cs with
  | nil => cases h
  | cons c cs => exact h

theorem rereads_keyword (kind : Kind) (h : kind ∈ Kind.keywords) :
    Rereads endsWord kind.spelling.toList (Single kind kind.spelling) := by
  simp only [Kind.keywords, List.mem_cons, List.not_mem_nil, or_false] at h
  rcases h with rfl | rfl | rfl | rfl | rfl | rfl | rfl | rfl | rfl | rfl | rfl | rfl | rfl
  all_goals exact Rereads.word rfl rfl

theorem rereads_type (type : BasicType) :
    Rereads endsWord type.spelling.toList (Single type.kind type.spelling) :=
  rereads_keyword type.kind (by cases type <;> decide)

theorem rereads_name {name : String} (h : Vocabulary.IsName name) :
    Rereads endsWord name.toList (Single .ident name) := by
  obtain ⟨c, cs, rfl, hc, hcs, hk⟩ := h
  rw [String.toList_ofList, ← hk]
  exact Rereads.word hc hcs

theorem Vocabulary.IsName.head_toList {name : String} (h : Vocabulary.IsName name) :
    name.toList.head?.any isPlain := by
  obtain ⟨c, cs, rfl, hc, -, -⟩ := h
  rw [String.toList_ofList]
  exact Lexeme.isPlain_of_isWordChar (by simp [Lexeme.isWordChar, hc])

/-- The digits of a number, and what they denote. -/
theorem exists_digits {n : Int} (h : Vocabulary.standard.int n) :
    ∃ c cs, (toString n).toList = c :: cs ∧ Lexeme.isDigit c ∧ cs.all Lexeme.isDigit ∧
      cs.length < 19 ∧
      (Text.ofDigits ((c :: cs).map fun c => c.toNat - '0'.toNat) : Int) = n := by
  obtain ⟨hn, hbound⟩ := h
  obtain ⟨m, rfl⟩ := Int.eq_ofNat_of_zero_le hn
  have hdigits : (toString (m : Int)).toList = Nat.toDigits 10 m := by
    rw [Int.toString_eq_repr, Int.repr_eq_if, if_pos hn, Int.toNat_natCast, Nat.toList_repr]
  have hall : ∀ c ∈ Nat.toDigits 10 m, Lexeme.isDigit c := by
    intro c hc
    have := Nat.isDigit_of_mem_toDigits (by decide) (by decide) hc
    simpa [Char.isDigit, Lexeme.isDigit, Char.le_def] using this
  have hlength : (Nat.toDigits 10 m).length ≤ 19 := by
    rw [Nat.length_toDigits_le_iff (by decide) (by decide)]
    have hm : m < MachineInt.bound := Int.ofNat_lt.1 hbound
    exact hm.trans (by decide)
  have hvalue : Text.ofDigits ((Nat.toDigits 10 m).map fun c => c.toNat - '0'.toNat) = m := by
    rw [Text.ofDigits, List.foldl_map, ← Nat.ofDigitChars_eq_foldl, Nat.ofDigitChars_ten_toDigits]
  rw [hdigits]
  cases hd : Nat.toDigits 10 m with
  | nil => exact absurd hd Nat.toDigits_ne_nil
  | cons c cs =>
    rw [hd] at hall hlength hvalue
    obtain ⟨hc, hcs⟩ := List.forall_mem_cons.1 hall
    exact ⟨c, cs, rfl, hc, List.all_eq_true.2 hcs, hlength, by rw [hvalue]⟩

theorem rereads_leading {operator : String} (h : Vocabulary.standard.leading operator) :
    ∃ kind : Kind, kind.isPrefix ∧ Rereads isPlain operator.toList (Single kind operator) := by
  simp only [Vocabulary.standard, List.mem_cons, List.not_mem_nil, or_false] at h
  rcases h with rfl | rfl | rfl
  · exact ⟨.bang, rfl, Rereads.symbol rfl⟩
  · exact ⟨.minus, rfl, Rereads.symbol rfl⟩
  · exact ⟨.plus, rfl, Rereads.symbol rfl⟩

theorem rereads_between {operator : String} (h : Vocabulary.standard.between operator) :
    ∃ (kind : Kind) (floor : Nat), Precedence.lowest ≤ floor ∧ kind.precedence = floor + 1 ∧
      kind.precedence ≤ Precedence.product ∧
      Rereads isPlain operator.toList (Single kind operator) := by
  simp only [Vocabulary.standard, List.mem_cons, List.not_mem_nil, or_false] at h
  rcases h with rfl | rfl | rfl | rfl | rfl | rfl | rfl | rfl | rfl | rfl | rfl
  · exact ⟨.eq, _, by decide, rfl, by decide, Rereads.symbols rfl⟩
  · exact ⟨.notEq, _, by decide, rfl, by decide, Rereads.symbols rfl⟩
  · exact ⟨.lt, _, by decide, rfl, by decide, Rereads.symbol rfl⟩
  · exact ⟨.gt, _, by decide, rfl, by decide, Rereads.symbol rfl⟩
  · exact ⟨.ltEq, _, by decide, rfl, by decide, Rereads.symbols rfl⟩
  · exact ⟨.gtEq, _, by decide, rfl, by decide, Rereads.symbols rfl⟩
  · exact ⟨.plus, _, by decide, rfl, by decide, Rereads.symbol rfl⟩
  · exact ⟨.minus, _, by decide, rfl, by decide, Rereads.symbol rfl⟩
  · exact ⟨.asterisk, _, by decide, rfl, by decide, Rereads.symbol rfl⟩
  · exact ⟨.slash, _, by decide, rfl, by decide, Rereads.symbol rfl⟩
  · exact ⟨.modulus, _, by decide, rfl, by decide, Rereads.symbol rfl⟩

/-! ## Lists -/

section Commas
variable {α : Type} {text : α → String} {P : α → List Token → Prop}

/-- The tokens of several things, with commas in between. -/
def Commas (P : α → List Token → Prop) : List α → List Token → Prop
  | [] => (· = [])
  | [x] => P x
  | x :: y :: xs => Followed (P x) (Followed (Single .comma ",") (Commas P (y :: xs)))

/-- A list that is closed by a symbol. -/
theorem rereads_commas {closing : Char} {kind : Kind} (hclosing : Lexeme.single? closing = some kind)
    (hplain : endsAny closing) (xs : List α)
    (h : ∀ x ∈ xs, Rereads endsAny (text x).toList (P x) ∧ (text x).toList.head?.any isPlain) :
    Rereads isPlain ((", ".intercalate (xs.map text)).toList ++ [closing])
        (Followed (Commas P xs) (Single kind (String.singleton closing))) ∧
      ((", ".intercalate (xs.map text)).toList ++ [closing]).head?.any isPlain := by
  simp only [String.toList_intercalate, List.map_map]
  -- The closing symbol is part of the statement, since an empty list has no text of its own.
  induction xs with
  | nil =>
    have hlast := Rereads.symbol hclosing
    refine ⟨hlast.mono fun ts hts => ⟨[], ts, rfl, rfl, hts⟩, ?_⟩
    exact endsAny_isPlain closing hplain
  | cons x xs ih =>
    obtain ⟨⟨hx, hhead⟩, hxs⟩ := List.forall_mem_cons.1 h
    cases xs with
    | nil =>
      rw [List.map_singleton, List.intercalate_singleton]
      exact ⟨hx.seq (.symbol hclosing) hplain, head_append hhead _⟩
    | cons y ys =>
      obtain ⟨htail, -⟩ := ih hxs
      rw [List.map_cons, List.map_cons, List.intercalate_cons_cons, ← List.map_cons]
      have hcomma : Rereads isPlain [','] (Single .comma ",") := .symbol rfl
      have hrest := hx.seq (hcomma.seq (Rereads.blank htail) rfl) rfl
      refine ⟨?_, ?_⟩
      · simp only [Function.comp_apply, List.append_assoc]
        refine hrest.mono ?_
        rintro _ ⟨us, _, rfl, hus, _, _, rfl, hvs, _, ws, rfl, htail, hws⟩
        refine ⟨_, ws, ?_, ⟨us, _, rfl, hus, _, _, rfl, hvs, htail⟩, hws⟩
        simp only [List.append_assoc]
      · rw [List.append_assoc, List.append_assoc]
        exact head_append hhead _

end Commas

/-! ## How deep a rendered tree is nested -/

namespace Node

mutual

/-- **How many levels of nesting the parser goes through** below a rendered tree.  Parentheses take one
level, and so does what stands behind an operator; the left operand takes none.  Items of a list and
statements take one level each, and the branches of a chain stand side by side. -/
def levels : Node → Nat
  | program statements => levelsAll statements
  | array _ elements => levelsAll elements
  | unary _ _ right => right.levels + 2
  | binary _ left _ right => max left.levels (right.levels + 1) + 1
  | call _ callee arguments => max callee.levels (levelsAll arguments)
  | index _ left place => max left.levels (place.levels + 1) + 1
  | declare _ _ _ value | declareArray _ _ _ value => value.levels + 1
  | returnValue _ value | expression _ value => value.levels + 1
  | block _ statements => levelsAll statements
  | ifThen _ condition body => max (condition.levels + 1) body.levels
  | ifElse _ condition body next => max (condition.levels + 1) (max body.levels next.levels)
  | otherwise _ body | function _ _ _ _ body => body.levels
  | _ => 0

/-- How many levels the deepest of several trees takes, each with a level of its own. -/
def levelsAll : List Node → Nat
  | [] => 0
  | node :: nodes => max (node.levels + 1) (levelsAll nodes)

end

end Node

/-! ## What the tokens of a rendered tree are -/

/-- **What the tokens of a tree are** in a place: a phrase or a clause of the grammar, for a tree that
differs from it in its tokens only, and nested no deeper than the tree says. -/
def Node.IsReadAs (node : Node) : Place → List Token → Prop
  | .expression, ts => (∀ t ∈ ts, t.kind ≠ .endOfLine) ∧
      ∃ n, Phrase.Within node.levels (.expression Precedence.call) ts [n] ∧ n.Alike node
  | .statement, ts => ∃ n, (Clause.Within node.levels .simple ts [n] ∨
      Clause.Within node.levels .compound ts [n]) ∧ n.Alike node
  | .chain, ts => node.hasCondition ∧
      ∃ n, Clause.Within node.levels .chain ts [n] ∧ n.hasCondition ∧ n.Alike node
  | .link, ts => ∃ t us, ts = t :: us ∧ t.kind = .kwElse ∧
      ((node.hasCondition = false ∧
          ∃ n, Clause.Within node.levels .block us [n] ∧ (Node.otherwise t n).Alike node) ∨
        node.hasCondition ∧
          ∃ n, Clause.Within node.levels .chain us [n] ∧ n.hasCondition ∧ n.Alike node)
  | .body, ts => ∃ n, Clause.Within node.levels .block ts [n] ∧ n.Alike node
  | .program, ts => ∃ ns, Clause.Within node.levels .body ts ns ∧ (Node.program ns).Alike node

/-- The text of a tree in a place.  The `else` in front of a link is rendered with the link if it has no
condition, and with the chain otherwise. -/
def Node.textAt (node : Node) : Place → List Char
  | .link => (if node.hasCondition then "else ".toList else []) ++ node.render.toList
  | _ => node.render.toList

section Expressions

variable {es : List Node} {ts : List Token}

theorem items_of_commas (hne : es ≠ [])
    (h : Commas (fun e : Node => e.IsReadAs .expression) es ts) :
    (∀ t ∈ ts, t.kind ≠ .endOfLine) ∧
      ∃ ns, Phrase.Within (Node.levelsAll es) .items ts ns ∧ Node.AlikeAll ns es := by
  induction es generalizing ts with
  | nil => exact absurd rfl hne
  | cons e es ih =>
    cases es with
    | nil =>
      obtain ⟨hline, n, hn, ha⟩ := h
      exact ⟨hline, [n], (hn.loosen (by decide)).item.deeper (Nat.le_max_left _ _), .cons ha .nil⟩
    | cons e' es =>
      obtain ⟨us, _, rfl, ⟨hline, n, hn, ha⟩, _, vs, rfl, ⟨comma, rfl, hk, -⟩, hvs⟩ := h
      obtain ⟨hlines, ns, hns, has⟩ := ih (List.cons_ne_nil _ _) hvs
      refine ⟨?_, n :: ns, .later (hn.loosen (by decide)) hk hns, .cons ha has⟩
      simp only [List.forall_mem_append, List.forall_mem_singleton]
      exact ⟨hline, by rw [hk]; decide, hlines⟩

theorem list_of_commas (h : Commas (fun e : Node => e.IsReadAs .expression) es ts) :
    (∀ t ∈ ts, t.kind ≠ .endOfLine) ∧
      ∃ ns, Phrase.Within (Node.levelsAll es) .list ts ns ∧ Node.AlikeAll ns es := by
  by_cases hne : es = []
  · subst hne
    obtain rfl : ts = [] := h
    exact ⟨by simp, [], .none, .nil⟩
  · obtain ⟨hline, ns, hns, ha⟩ := items_of_commas hne h
    exact ⟨hline, ns, .some hns, ha⟩

/-- No rendered expression starts with what would make a longer symbol of one in front. -/
theorem head_render {place : Place} {e : Node} (h : e.Fits Vocabulary.standard place)
    (hp : place = .expression) : e.render.toList.head?.any isPlain := by
  induction h with
  | ident hn => exact hn.1.head_toList
  | int hn =>
    obtain ⟨c, cs, hcs, hc, -⟩ := exists_digits hn
    rw [Node.render, hcs]
    exact Lexeme.isPlain_of_isWordChar (by simp [Lexeme.isWordChar, hc])
  | @bool _ b => rw [Node.render]; cases b <;> rfl
  | string _ => simp only [Node.render, String.toList_append]; rfl
  | null => rw [Node.render]; rfl
  | array _ _ => simp only [Node.render, String.toList_append]; rfl
  | unary _ _ _ => simp only [Node.render, String.toList_append]; rfl
  | binary _ _ _ _ _ => simp only [Node.render, String.toList_append]; rfl
  | call _ _ ihf _ =>
    simp only [Node.render, String.toList_append, List.append_assoc]
    exact head_append (ihf rfl) _
  | index _ _ _ _ => simp only [Node.render, String.toList_append]; rfl
  | _ => cases hp

/-- A tree whose text is read back. -/
def Node.Rereadable (place : Place) (node : Node) : Prop :=
  Rereads endsAny (node.textAt place) (node.IsReadAs place)

theorem rereads_lparen : Rereads isPlain ['('] (Single .lparen "(") := .symbol rfl

theorem rereads_rparen : Rereads isPlain [')'] (Single .rparen ")") := .symbol rfl

theorem rereads_lbrack : Rereads isPlain ['['] (Single .lbrack "[") := .symbol rfl

theorem rereads_rbrack : Rereads isPlain [']'] (Single .rbrack "]") := .symbol rfl

variable {t : Token} {a b : Node} {operator : String}

/-- One token that is an expression. -/
theorem rereadable_leaf {follows : Char → Bool} {kind : Kind} {text : String} {node : Node}
    (h : Rereads follows node.render.toList (Single kind text))
    (hf : ∀ c, endsAny c → follows c) (hk : kind ≠ .endOfLine)
    (hp : ∀ t : Token, t.kind = kind → t.text = text →
      ∃ n, Phrase.Within node.levels (.expression Precedence.call) [t] [n] ∧ n.Alike node) :
    node.Rereadable .expression := by
  refine (h.before hf).mono ?_
  rintro _ ⟨t, rfl, ht, htext⟩
  refine ⟨?_, hp t ht htext⟩
  rw [List.forall_mem_singleton, ht]
  exact hk

theorem rereads_ident {name : Ident} (hn : Vocabulary.standard.varName name) :
    Rereads endsWord (Node.ident name).render.toList (Single .ident name.name) := by
  rw [Node.render]
  exact rereads_name hn.1

theorem rereadable_ident {name : Ident} (hn : Vocabulary.standard.varName name) :
    (Node.ident name).Rereadable .expression := by
  refine rereadable_leaf (rereads_ident hn) endsAny_endsWord (by decide)
    fun t hk htext => ⟨_, .ident hk, ?_⟩
  simp [Node.Alike, Node.same, Node.render, Token.toIdent, Ident.same, htext, hn.2]

theorem rereads_int {n : Int} (hn : Vocabulary.standard.int n) :
    ∃ text, Rereads endsWord (Node.int t n).render.toList (Single .int text) ∧
      ∀ t : Token, t.text = text → (t.number : Int) = n := by
  obtain ⟨c, cs, hcs, hc, hall, hlen, hvalue⟩ := exists_digits hn
  refine ⟨String.ofList (c :: cs), ?_, fun t htext => ?_⟩
  · rw [Node.render, hcs]
    exact Rereads.number hc hall hlen
  · rw [Token.number, htext, String.toList_ofList]
    exact hvalue

theorem rereadable_int {n : Int} (hn : Vocabulary.standard.int n) :
    (Node.int t n).Rereadable .expression := by
  obtain ⟨text, hr, hnumber⟩ := rereads_int (t := t) hn
  refine rereadable_leaf hr endsAny_endsWord (by decide) fun t hk htext => ?_
  have hbound : (t.number : Int) < MachineInt.bound := by
    rw [hnumber t htext]
    exact hn.2
  refine ⟨_, .int hk (Int.ofNat_lt.1 hbound), ?_⟩
  simp [Node.Alike, Node.same, Node.render, hnumber t htext]

theorem rereads_bool {value : Bool} :
    Rereads endsWord (Node.bool t value).render.toList
      (Single (if value then .kwTrue else .kwFalse) (if value then "true" else "false")) := by
  rw [Node.render]
  cases value with
  | false => exact rereads_keyword .kwFalse (by decide)
  | true => exact rereads_keyword .kwTrue (by decide)

theorem rereadable_bool {value : Bool} : (Node.bool t value).Rereadable .expression := by
  cases value with
  | false =>
    refine rereadable_leaf rereads_bool endsAny_endsWord (by decide)
      fun t hk _ => ⟨_, .false hk, ?_⟩
    simp [Node.Alike, Node.same, Node.render]
  | true =>
    refine rereadable_leaf rereads_bool endsAny_endsWord (by decide)
      fun t hk _ => ⟨_, .true hk, ?_⟩
    simp [Node.Alike, Node.same, Node.render]

theorem rereads_string {value : String} (hs : Vocabulary.standard.string value) :
    Rereads endsAny (Node.string t value).render.toList (Single .string value) := by
  have htext : (Node.string t value).render.toList = '\x22' :: (value.toList ++ ['\x22']) := by
    simp [Node.render]
  have hstring : Rereads endsAny ('\x22' :: (value.toList ++ ['\x22']))
      (Single .string (String.ofList value.toList)) := Rereads.string hs
  rw [String.ofList_toList] at hstring
  rw [htext]
  exact hstring

theorem rereadable_string {value : String} (hs : Vocabulary.standard.string value) :
    (Node.string t value).Rereadable .expression := by
  refine rereadable_leaf (rereads_string hs) (fun _ h => h) (by decide)
    fun t hk htext => ⟨_, .string hk, ?_⟩
  simp [Node.Alike, Node.same, Node.render, htext]

theorem rereads_null : Rereads endsWord (Node.null t).render.toList (Single .kwNull "null") := by
  rw [Node.render]
  exact rereads_keyword .kwNull (by decide)

theorem rereadable_null : (Node.null t).Rereadable .expression := by
  refine rereadable_leaf rereads_null endsAny_endsWord (by decide) fun t hk _ => ⟨_, .null hk, ?_⟩
  simp [Node.Alike, Node.same, Node.render]

section Composed
variable {P Q : List Token → Prop} {R : Node → List Token → Prop}

/-- The expressions of a list, up to the bracket that closes it. -/
theorem rereads_elements {closing : Char} {kind : Kind}
    (hclosing : Lexeme.single? closing = some kind) (hends : endsAny closing)
    (hfits : ∀ e ∈ es, e.Fits Vocabulary.standard .expression)
    (h : ∀ e ∈ es, Rereads endsAny (e.textAt .expression) (R e)) :
    Rereads isPlain ((", ".intercalate (Node.renderAll es)).toList ++ [closing])
        (Followed (Commas R es) (Single kind (String.singleton closing))) ∧
      ((", ".intercalate (Node.renderAll es)).toList ++ [closing]).head?.any isPlain := by
  rw [Node.renderAll_eq_map]
  exact rereads_commas hclosing hends es fun e he => ⟨h e he, head_render (hfits e he) rfl⟩

theorem rereads_array (hfits : ∀ e ∈ es, e.Fits Vocabulary.standard .expression)
    (h : ∀ e ∈ es, Rereads endsAny (e.textAt .expression) (R e)) :
    Rereads endsAny ((Node.array t es).textAt .expression)
      (Followed (Single .lbrack "[") (Followed (Commas R es) (Single .rbrack "]"))) := by
  obtain ⟨hes, hhead⟩ := rereads_elements (show Lexeme.single? ']' = some .rbrack from rfl) rfl hfits h
  have htext : (Node.array t es).textAt .expression =
      ['['] ++ ((", ".intercalate (Node.renderAll es)).toList ++ [']']) := by
    simp [Node.textAt, Node.render]
  rw [htext]
  exact (rereads_lbrack.seq hes hhead).before endsAny_isPlain

theorem rereads_unary (ho : Vocabulary.standard.leading operator)
    (ha : a.Fits Vocabulary.standard .expression) (h : Rereads endsAny (a.textAt .expression) P) :
    ∃ kind : Kind, kind.isPrefix ∧ Rereads endsAny ((Node.unary t operator a).textAt .expression)
      (Followed (Single .lparen "(")
        (Followed (Single kind operator) (Followed P (Single .rparen ")")))) := by
  obtain ⟨kind, hkind, hoperator⟩ := rereads_leading ho
  have htext : (Node.unary t operator a).textAt .expression =
      ['('] ++ (operator.toList ++ (a.render.toList ++ [')'])) := by
    simp [Node.textAt, Node.render]
  have hhead : (operator.toList ++ (a.render.toList ++ [')'])).head?.any isPlain := by
    simp only [Vocabulary.standard, List.mem_cons, List.not_mem_nil, or_false] at ho
    rcases ho with rfl | rfl | rfl <;> rfl
  have hright := h.seq rereads_rparen rfl
  have hall := rereads_lparen.seq (hoperator.seq hright (head_append (head_render ha rfl) _)) hhead
  rw [htext]
  exact ⟨kind, hkind, hall.before endsAny_isPlain⟩

theorem rereads_binary (ho : Vocabulary.standard.between operator)
    (ha : a.Fits Vocabulary.standard .expression) (hl : Rereads endsAny (a.textAt .expression) P)
    (hr : Rereads endsAny (b.textAt .expression) Q) :
    ∃ (kind : Kind) (floor : Nat), Precedence.lowest ≤ floor ∧ kind.precedence = floor + 1 ∧
      kind.precedence ≤ Precedence.product ∧
      Rereads endsAny ((Node.binary t a operator b).textAt .expression)
        (Followed (Single .lparen "(") (Followed P
          (Followed (Single kind operator) (Followed Q (Single .rparen ")"))))) := by
  obtain ⟨kind, floor, hlow, hkind, hhigh, hoperator⟩ := rereads_between ho
  have htext : (Node.binary t a operator b).textAt .expression =
      ['('] ++ (a.render.toList ++
        (' ' :: (operator.toList ++ (' ' :: (b.render.toList ++ [')']))))) := by
    simp [Node.textAt, Node.render]
  have hright := hoperator.seq (hr.seq rereads_rparen rfl).blank rfl
  have hall := rereads_lparen.seq (hl.seq hright.blank rfl) (head_append (head_render ha rfl) _)
  rw [htext]
  exact ⟨kind, floor, hlow, hkind, hhigh, hall.before endsAny_isPlain⟩

theorem rereads_call (hf : Rereads endsAny (a.textAt .expression) P)
    (hfits : ∀ e ∈ es, e.Fits Vocabulary.standard .expression)
    (h : ∀ e ∈ es, Rereads endsAny (e.textAt .expression) (R e)) :
    Rereads endsAny ((Node.call t a es).textAt .expression)
      (Followed P (Followed (Single .lparen "(") (Followed (Commas R es) (Single .rparen ")")))) := by
  obtain ⟨hes, hhead⟩ := rereads_elements (show Lexeme.single? ')' = some .rparen from rfl) rfl hfits h
  have htext : (Node.call t a es).textAt .expression =
      a.render.toList ++ (['('] ++ ((", ".intercalate (Node.renderAll es)).toList ++ [')'])) := by
    simp [Node.textAt, Node.render]
  rw [htext]
  exact (hf.seq (rereads_lparen.seq hes hhead) rfl).before endsAny_isPlain

theorem rereads_index (ha : a.Fits Vocabulary.standard .expression)
    (hb : b.Fits Vocabulary.standard .expression) (hl : Rereads endsAny (a.textAt .expression) P)
    (hp : Rereads endsAny (b.textAt .expression) Q) :
    Rereads endsAny ((Node.index t a b).textAt .expression)
      (Followed (Single .lparen "(") (Followed P (Followed (Single .lbrack "[")
        (Followed Q (Followed (Single .rbrack "]") (Single .rparen ")")))))) := by
  have htext : (Node.index t a b).textAt .expression =
      ['('] ++ (a.render.toList ++ (['['] ++ (b.render.toList ++ ([']'] ++ [')'])))) := by
    simp [Node.textAt, Node.render]
  have hplace := rereads_lbrack.seq (hp.seq (rereads_rbrack.seq rereads_rparen rfl) rfl)
    (head_append (head_render hb rfl) _)
  have hall := rereads_lparen.seq (hl.seq hplace rfl) (head_append (head_render ha rfl) _)
  rw [htext]
  exact hall.before endsAny_isPlain

end Composed

theorem rereadable_array (hfits : ∀ e ∈ es, e.Fits Vocabulary.standard .expression)
    (h : ∀ e ∈ es, e.Rereadable .expression) : (Node.array t es).Rereadable .expression := by
  refine (rereads_array hfits h).mono ?_
  rintro _ ⟨_, _, rfl, ⟨opening, rfl, ho, -⟩, us, _, rfl, hus, closing, rfl, hc, -⟩
  obtain ⟨hline, ns, hns, ha⟩ := list_of_commas hus
  refine ⟨?_, .array opening ns, .array ho hc ?_, .array ha⟩
  · simp only [List.forall_mem_append, List.forall_mem_singleton, ho, hc]
    exact ⟨by decide, hline, by decide⟩
  · rw [unbroken_eq_self hline]
    exact hns

/-- Parentheses around an expression leave no trace. -/
theorem isReadAs_group {opening closing : Token} {ts : List Token} {node n : Node} {levels : Nat}
    (ho : opening.kind = .lparen) (hc : closing.kind = .rparen)
    (hline : ∀ t ∈ ts, t.kind ≠ .endOfLine)
    (h : Phrase.Within levels (.expression Precedence.lowest) ts [n]) (ha : n.Alike node)
    (hlevels : node.levels = levels + 1) :
    node.IsReadAs .expression (opening :: (ts ++ [closing])) := by
  refine ⟨?_, n, hlevels ▸ .group ho hc ?_, ha⟩
  · simp only [List.forall_mem_cons, List.forall_mem_append, ho, hc]
    exact ⟨by decide, hline, by simp⟩
  · rw [unbroken_eq_self hline]
    exact h

theorem rereadable_unary (ho : Vocabulary.standard.leading operator)
    (ha : a.Fits Vocabulary.standard .expression) (h : a.Rereadable .expression) :
    (Node.unary t operator a).Rereadable .expression := by
  obtain ⟨kind, hkind, hread⟩ := rereads_unary (t := t) ho ha h
  refine hread.mono ?_
  rintro _ ⟨_, _, rfl, ⟨opening, rfl, ho, -⟩, _, _, rfl, ⟨sign, rfl, hs, htext⟩, us, _, rfl,
    ⟨hline, n, hn, ha⟩, closing, rfl, hc, -⟩
  have hprefix : sign.kind.isPrefix := by rw [hs]; exact hkind
  have hphrase : Phrase.Within (a.levels + 1) (.expression Precedence.unary) (sign :: us)
      [.unary sign sign.text n] :=
    .unary hprefix .nil (hn.loosen (by decide))
  refine isReadAs_group ho hc ?_ (hphrase.loosen (by decide)) (by rw [htext]; exact .unary ha) rfl
  refine List.forall_mem_cons.2 ⟨fun hend => ?_, hline⟩
  rw [hend] at hprefix
  cases hprefix

theorem rereadable_binary (ho : Vocabulary.standard.between operator)
    (ha : a.Fits Vocabulary.standard .expression) (hl : a.Rereadable .expression)
    (hr : b.Rereadable .expression) : (Node.binary t a operator b).Rereadable .expression := by
  obtain ⟨kind, floor, hlow, hkind, hhigh, hread⟩ := rereads_binary (t := t) ho ha hl hr
  refine hread.mono ?_
  rintro _ ⟨_, _, rfl, ⟨opening, rfl, ho, -⟩, us, _, rfl, ⟨hline, m, hm, ham⟩, _, _, rfl,
    ⟨sign, rfl, hs, htext⟩, vs, _, rfl, ⟨hlines, n, hn, han⟩, closing, rfl, hc, -⟩
  -- The operands bind tighter than any operator, so they may stand on either side of this one.
  rw [← hs] at hkind hhigh
  have hne : sign.kind ≠ .endOfLine := by
    intro hend
    rw [hend] at hkind
    have : Kind.endOfLine.precedence = Precedence.lowest := rfl
    omega
  have hlevel : floor + 1 ≤ Precedence.call := by
    have : Precedence.product ≤ Precedence.call := by decide
    omega
  have hphrase : Phrase.Within (max a.levels (b.levels + 1)) (.expression floor) (us ++ sign :: vs)
      [.binary sign m sign.text n] :=
    .binary hlow hkind hhigh .nil (hm.loosen (by omega)) (hn.loosen hlevel)
  have halike : (Node.binary sign m sign.text n).Alike (.binary t a operator b) := by
    rw [htext]
    exact .binary ham han
  have hall : ∀ t ∈ us ++ sign :: vs, t.kind ≠ .endOfLine := by
    simp only [List.forall_mem_append, List.forall_mem_cons]
    exact ⟨hline, hne, hlines⟩
  simpa using isReadAs_group ho hc hall (hphrase.loosen hlow) halike rfl

theorem rereadable_call (hf : a.Rereadable .expression)
    (hfits : ∀ e ∈ es, e.Fits Vocabulary.standard .expression)
    (h : ∀ e ∈ es, e.Rereadable .expression) : (Node.call t a es).Rereadable .expression := by
  refine (rereads_call hf hfits h).mono ?_
  rintro _ ⟨us, _, rfl, ⟨hline, n, hn, ha⟩, _, _, rfl, ⟨opening, rfl, ho, -⟩, vs, _, rfl, hvs,
    closing, rfl, hc, -⟩
  obtain ⟨hlines, ns, hns, has⟩ := list_of_commas hvs
  refine ⟨?_, .call opening n ns, .call hn ho hc ?_, .call ha has⟩
  · simp only [List.forall_mem_append, List.forall_mem_singleton, ho, hc]
    exact ⟨hline, by decide, hlines, by decide⟩
  · rw [unbroken_eq_self hlines]
    exact hns

theorem rereadable_index (ha : a.Fits Vocabulary.standard .expression)
    (hb : b.Fits Vocabulary.standard .expression) (hl : a.Rereadable .expression)
    (hp : b.Rereadable .expression) : (Node.index t a b).Rereadable .expression := by
  refine (rereads_index ha hb hl hp).mono ?_
  rintro _ ⟨_, _, rfl, ⟨opening, rfl, ho, -⟩, us, _, rfl, ⟨hline, m, hm, ham⟩, _, _, rfl,
    ⟨bracket, rfl, hbo, -⟩, vs, _, rfl, ⟨hlines, n, hn, han⟩, _, _, rfl, ⟨bracket', rfl, hbc, -⟩,
    closing, rfl, hc, -⟩
  have hphrase : Phrase.Within (max a.levels (b.levels + 1)) (.expression Precedence.call)
      (us ++ bracket :: (vs ++ [bracket'])) [.index bracket m n] := by
    refine .index hm hbo hbc ?_
    rw [unbroken_eq_self hlines]
    exact hn.loosen (by decide)
  have halike : (Node.index bracket m n).Alike (.index t a b) := .index ham han
  have hall : ∀ t ∈ us ++ bracket :: (vs ++ [bracket']), t.kind ≠ .endOfLine := by
    simp only [List.forall_mem_append, List.forall_mem_cons, hbo, hbc]
    exact ⟨hline, by decide, hlines, by decide⟩
  simpa using isReadAs_group ho hc hall (hphrase.loosen (by decide)) halike rfl

end Expressions

end LimLang
