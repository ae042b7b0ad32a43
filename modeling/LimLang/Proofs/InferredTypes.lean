import LimLang.Proofs.Layout
import LimLang.Proofs.TokenPlaces
import LimLang.Proofs.WholeStream

/-! # Declarations by value

A variable may be declared by its value alone.  If the value starts with a bracket, it must be an array,
and the type of its elements is judged by the tree of the first one: the parser descends to the node at
its left end.  Else the first token of the value tells the type.

Parentheses leave no trace in a tree, and operators, calls and indices stand behind what they are applied
to.  So the node at the left end is that of the first token behind the parentheses an expression starts
with (`Phrase.find?_isLead`), and what is declared can be told from the tokens alone
(`Inferred.ofKinds?`).

The declaration with that type, `int x = e` or `int []x = e`, has the same tree.  Of the two texts, what
stands in front of the value is read token by token; the value and what follows it are parsed in tandem.
-/
namespace LimLang

open Cursor (isNewline)

/-! ## The token at the left end -/

/-- A token that may stand at the left end of an expression's tree: neither a newline nor a parenthesis
in front of it. -/
def Kind.isLead : Kind → Bool
  | .endOfLine | .lparen => false
  | _ => true

theorem find?_isLead_unbroken (ts : List Token) :
    (unbroken ts).find? (fun t => t.kind.isLead) = ts.find? fun t => t.kind.isLead := by
  rw [unbroken, List.find?_filter]
  congr 1
  funext t
  cases hlead : t.kind.isLead with
  | false => simp
  | true =>
    have hne : t.kind ≠ .endOfLine := by
      intro hline
      rw [hline] at hlead
      cases hlead
    simp [isNewline_eq_false.2 hne]

/-- **The first token behind opening parentheses is that of the node at the left end.** -/
theorem Phrase.find?_isLead {kind : PhraseKind} {ts : List Token} {nodes : List Node}
    (h : Phrase kind ts nodes) :
    ts.find? (fun t => t.kind.isLead) = nodes.head?.map fun node => node.leftmost.token := by
  induction h with
  | loosen _ _ ih => exact ih
  | ident ht => simp [ht, Kind.isLead, Node.leftmost, Node.token, Token.toIdent]
  | int ht _ => simp [ht, Kind.isLead, Node.leftmost, Node.token]
  | string ht => simp [ht, Kind.isLead, Node.leftmost, Node.token]
  | true ht => simp [ht, Kind.isLead, Node.leftmost, Node.token]
  | false ht => simp [ht, Kind.isLead, Node.leftmost, Node.token]
  | null ht => simp [ht, Kind.isLead, Node.leftmost, Node.token]
  | @group opening _ _ _ ho _ _ ih =>
    have hopening : opening.kind.isLead = Bool.false := by rw [ho]; rfl
    rw [find?_isLead_unbroken] at ih
    simp [hopening, List.find?_append, ih]
  | array ho _ _ _ => simp [ho, Kind.isLead, Node.leftmost, Node.token]
  | call _ _ _ _ ihf _ => simp [List.find?_append, ihf, Node.leftmost]
  | index _ _ _ _ ihl _ => simp [List.find?_append, ihl, Node.leftmost]
  | @unary operator _ _ _ ho _ _ _ =>
    have hlead : operator.kind.isLead := by
      revert ho
      cases operator.kind <;> decide
    simp [hlead, Node.leftmost, Node.token]
  | binary _ _ _ _ _ _ ihl _ => simp [List.find?_append, ihl, Node.leftmost]
  | item _ ih => exact ih
  | later _ _ _ ih _ => simp [List.find?_append, ih]
  | none => rfl
  | some _ ih => exact ih

/-! ## What is declared, told by the tokens -/

/-- **What a declaration by value declares.** -/
inductive Inferred where
  /-- A variable of a type. -/
  | scalar (type : BasicType)
  /-- An array with elements of a type. -/
  | array (type : BasicType)
  deriving DecidableEq

namespace Inferred

/-- The type of the elements of an array, by the kinds of the tokens behind its bracket.  Where the first
element starts with a token that tells no type, and where there is none, it is `int`. -/
def elementType (kinds : List Kind) : BasicType :=
  ((kinds.find? Kind.isLead).bind BasicType.ofLeading?).getD .int

/-- **What is declared by a value whose tokens are of these kinds.** -/
def ofKinds? (kinds : List Kind) : Option Inferred :=
  match kinds.dropWhile (· == .endOfLine) with
  | [] => none
  | leading :: behind =>
      if leading = .lbrack then some (.array (elementType behind))
      else (BasicType.ofLeading? leading).map .scalar

/-- The type that the declaration is written with. -/
def type : Inferred → BasicType
  | scalar type => type
  | array type => type

/-- The declaration of `x` with its type, and with the value `e`. -/
def declaration (x e : String) : Inferred → String
  | scalar type => type.spelling ++ " " ++ x ++ " = " ++ e
  | array type => type.spelling ++ " []" ++ x ++ " = " ++ e

/-- What the tokens in front of the value say, in the declaration of `x` with its type. -/
def heading (x : String) : Inferred → List (Kind × List Char)
  | scalar type => [(type.kind, type.spelling.toList), (.ident, x.toList), (.assign, ['='])]
  | array type =>
      [(type.kind, type.spelling.toList), (.lbrack, ['[']), (.rbrack, [']']), (.ident, x.toList),
        (.assign, ['='])]

/-- The tree of a declaration. -/
def node (keyword name : Token) (value : Node) : Inferred → Node
  | scalar type => .declare keyword type name.toIdent value
  | array type => .declareArray keyword type.spelling name.toIdent value

/-- **The token that tells the type of a value is found at the left end of its tree**, of an array at the
left end of the first element.  The tokens `ts` start with those of the value. -/
def Found (ts : List Token) (value : Node) : Inferred → Prop
  | scalar _ => (ts.dropWhile isNewline).head? = some value.leftmost.token
  | array _ => ∃ opener elements behind, value = .array opener elements ∧
      ts.dropWhile isNewline = opener :: behind ∧
      ∀ first ∈ elements.head?, behind.find? (fun t => t.kind.isLead) = some first.leftmost.token

/-- The type judged by the tree of the first element is the one told by the tokens. -/
theorem elementType_eq {inner rest : List Token} {closing : Token} {elements : List Node}
    (hc : closing.kind = .rbrack) (h : Phrase .list (unbroken inner) elements) :
    elementType ((inner ++ closing :: rest).map Token.kind) = BasicType.ofElements elements := by
  have hfind := h.find?_isLead
  rw [find?_isLead_unbroken] at hfind
  rw [elementType, List.find?_map, List.find?_append]
  cases elements with
  | nil =>
    -- The bracket that closes an empty array tells no type.
    simp only [Function.comp_def, hfind]
    simp [hc, Kind.isLead, BasicType.ofLeading?, BasicType.ofElements]
  | cons first more =>
    simp only [Function.comp_def, hfind]
    simp [BasicType.ofElements]

theorem ofKinds?_of_dropWhile {ts behind : List Token} {leading : Token}
    (h : ts.dropWhile isNewline = leading :: behind) :
    ofKinds? (ts.map Token.kind) = if leading.kind = .lbrack then
      some (.array (elementType (behind.map Token.kind)))
      else (BasicType.ofLeading? leading.kind).map .scalar := by
  have hkinds : (ts.map Token.kind).dropWhile (· == .endOfLine) =
      leading.kind :: behind.map Token.kind := by
    rw [List.dropWhile_map, ← List.map_cons, ← h]
    rfl
  rw [ofKinds?, hkinds]

section Told
variable {ts read rest : List Token} {leading : Token} {value : Node}
  (hd : ts.dropWhile isNewline = leading :: (read ++ rest))
include hd

/-- **The first token tells the type of a variable**, and stands at the left end. -/
theorem told_scalar {type : BasicType} (hl : BasicType.ofLeading? leading.kind = some type)
    (hp : Phrase (.expression Precedence.lowest) (leading :: read) [value]) :
    ofKinds? (ts.map Token.kind) = some (.scalar type) ∧ Found ts value (.scalar type) := by
  have hne : leading.kind ≠ .lbrack := by
    intro hb
    rw [hb] at hl
    cases hl
  have hlead : leading.kind.isLead := by
    revert hl
    cases leading.kind <;> simp [BasicType.ofLeading?, Kind.isLead]
  have hfind := hp.find?_isLead
  simp only [List.find?_cons, hlead] at hfind
  rw [ofKinds?_of_dropWhile hd, if_neg hne, hl]
  refine ⟨rfl, ?_⟩
  rw [Found, hd]
  exact hfind

/-- **The first token behind parentheses tells the type of an array's elements**, and stands at the left
end of the first. -/
theorem told_array {opener : Token} {elements : List Node} (hb : leading.kind = .lbrack)
    (hp : Phrase (.expression Precedence.lowest) (leading :: read) [.array opener elements]) :
    ofKinds? (ts.map Token.kind) = some (.array (BasicType.ofElements elements)) ∧
      Found ts (.array opener elements) (.array (BasicType.ofElements elements)) := by
  obtain ⟨inner, closing, rfl, rfl, hc, hlist⟩ := hp.of_array hb
  rw [List.append_assoc, List.singleton_append] at hd
  rw [ofKinds?_of_dropWhile hd, if_pos hb, elementType_eq hc hlist]
  refine ⟨rfl, opener, elements, _, rfl, hd, fun first hfirst => ?_⟩
  have hfind := hlist.find?_isLead
  rw [find?_isLead_unbroken, Option.mem_def.1 hfirst] at hfind
  rw [List.find?_append, hfind]
  rfl

end Told

end Inferred

/-! ## Reading what stands in front of the value -/

/-- Of a computation that may halt for whatever reason, only its result is asked. -/
theorem Outcome.of_run {ε σ α : Type} {x : EStateM ε σ α} {s : σ} {ok : α → σ → Prop}
    (h : ∀ a t, x s = .ok a t → ok a t) : Outcome x s ok fun _ _ => True := by
  unfold Outcome
  split
  · exact h _ _ ‹_›
  · trivial

theorem Cursor.advance_cons {t u : Token} (hu : u.kind ≠ .endOfLine) (us : List Token) :
    advance ⟨t, u :: us, 0⟩ = ⟨u, us, 0⟩ := by
  rw [advance_of_ahead (dropWhile_of_ne hu us), settle_zero]

namespace Parse

theorem expectNamed_cons {kind : Kind} {t u : Token} (hu : u.kind = kind) (hk : kind ≠ .endOfLine)
    (what : String) (us : List Token) (findings : List Finding) :
    expectNamed kind what ⟨⟨t, u :: us, 0⟩, findings⟩ = .ok u ⟨⟨u, us, 0⟩, findings⟩ := by
  rw [expectNamed_run what (show (⟨t, u :: us, 0⟩ : Cursor).peek.kind = kind from hu),
    Cursor.advance_cons (hu ▸ hk)]

variable {maxDigits depth : Nat} {ts : List Token} {last : Token}

/-- What starts with the keyword of a type is a declaration, and its end. -/
theorem statement_of_type {c : Cursor} {type : BasicType} (hk : c.current.kind = type.kind)
    {node : Node} {t u : ParseState}
    (hrun : (if c.peek.kind = .lbrack then arrayDeclaration (expression maxDigits depth Precedence.lowest)
      else declaration (expression maxDigits depth Precedence.lowest) type) ⟨c, []⟩ = .ok node t)
    (hend : endStatement t = .ok () u) :
    statement maxDigits (depth + 1) ⟨c, []⟩ = .ok (some node) u := by
  have htype : BasicType.ofKind? c.current.kind = some type := by
    rw [hk]
    cases type <;> rfl
  rw [← Outcome.run_iff]
  unfold statement
  rw [statementWith_of_type htype]
  unfold simple
  simp only [Outcome.bind_iff, Outcome.iff_of_ok hrun, Outcome.iff_of_ok hend, Outcome.pure_iff,
    and_self]

variable (hlast : last.kind = .eof) (hts : ∀ t ∈ ts, t.kind ≠ .eof)
include hlast hts

/-- From a token in front of a list, the cursor moves to the start of the list. -/
theorem advance_onto (t : Token) :
    Cursor.advance ⟨t, ts ++ [last], 0⟩ = (initial (ts ++ [last]) last).toCursor :=
  Cursor.ofTokens_eq (terminated_append hlast hts) last rfl rfl

/-- The expression that a list of tokens starts with. -/
theorem expression_phrase {value : Node} {t : ParseState}
    (hrun : expression maxDigits depth Precedence.lowest (initial (ts ++ [last]) last) = .ok value t) :
    ∃ read rest, (ts ++ [last]).dropWhile isNewline =
        (initial (ts ++ [last]) last).current :: (read ++ rest) ∧
      Phrase (.expression Precedence.lowest) ((initial (ts ++ [last]) last).current :: read)
        [value] := by
  have hready := ready_initial hlast hts
  obtain ⟨read, d, rfl, -, hm, hp, -⟩ := (Outcome.iff_of_ok hrun).1
    (expression_reads maxDigits depth Precedence.lowest _ _ hready (by decide) (by decide))
  have hahead : (initial (ts ++ [last]) last).ahead = read ++ d.ahead := by
    rw [← reads_zero, ← groups_initial (ts ++ [last]) last]
    exact hm.reads
  refine ⟨read, d.ahead, ?_, hp⟩
  rw [← view_initial hlast hts, Cursor.view, hahead]

/-- **A declaration by value is told by the tokens of the value**, which is the expression that stands
behind it. -/
theorem definition_inferred {name define : Token} (hd : define.kind = .define) :
    Outcome (definition (expression maxDigits depth Precedence.lowest))
      ⟨⟨name, define :: (ts ++ [last]), 0⟩, []⟩
      (fun node t => ∃ inferred value, Inferred.ofKinds? ((ts ++ [last]).map Token.kind) = some inferred ∧
        inferred.Found (ts ++ [last]) value ∧
        expression maxDigits depth Precedence.lowest (initial (ts ++ [last]) last) = .ok value t ∧
        node = inferred.node (inferred.type.keywordAt define) name value)
      fun _ _ => True := by
  have hline : define.kind ≠ .endOfLine := by rw [hd]; decide
  unfold definition
  simp only [Outcome.bind_iff, current_iff, advance_iff, Cursor.advance_cons hline,
    advance_onto hlast hts]
  by_cases hb : (initial (ts ++ [last]) last).current.kind = .lbrack
  · simp only [Token.is, hb, beq_self_eq_true, if_true, Outcome.bind_iff]
    refine .of_run fun value t hrun => ?_
    obtain ⟨read, rest, hview, hp⟩ := expression_phrase hlast hts hrun
    split
    · next opener elements =>
      obtain ⟨htold, hfound⟩ := Inferred.told_array hview hb hp
      exact ⟨_, _, htold, hfound, hrun, rfl⟩
    · exact .of_run fun _ _ h => by simp [reject_run] at h
  · simp only [Token.is, beq_iff_eq, hb, if_false]
    split
    · next type htype =>
      simp only [Outcome.bind_iff, Outcome.pure_iff]
      refine .of_run fun value t hrun => ?_
      obtain ⟨read, rest, hview, hp⟩ := expression_phrase hlast hts hrun
      obtain ⟨htold, hfound⟩ := Inferred.told_scalar hview htype hp
      exact ⟨_, _, htold, hfound, hrun, rfl⟩
    · exact .of_run fun _ _ h => by simp [reject_run] at h

/-- The same of the whole statement. -/
theorem statement_inferred {name define : Token} (hn : name.kind = .ident)
    (hd : define.kind = .define) :
    Outcome (statement maxDigits (depth + 1)) ⟨⟨name, define :: (ts ++ [last]), 0⟩, []⟩
      (fun result u => ∃ inferred value t,
        Inferred.ofKinds? ((ts ++ [last]).map Token.kind) = some inferred ∧
        inferred.Found (ts ++ [last]) value ∧
        expression maxDigits depth Precedence.lowest (initial (ts ++ [last]) last) = .ok value t ∧
        endStatement t = .ok () u ∧
        result = some (inferred.node (inferred.type.keywordAt define) name value))
      fun _ _ => True := by
  have hstarts : name.kind.startsExpression := by rw [hn]; rfl
  unfold statement
  rw [statementWith_of_expression hstarts, if_pos ⟨hn, hd⟩]
  unfold simple
  rw [Outcome.bind_iff]
  refine (definition_inferred hlast hts hd).mono ?_ fun _ _ _ => trivial
  rintro node t ⟨inferred, value, htold, hfound, hvalue, rfl⟩
  simp only [Outcome.bind_iff, Outcome.pure_iff]
  exact .of_run fun _ u hend => ⟨inferred, value, t, htold, hfound, hvalue, hend, rfl⟩

section Declared
variable {value : Node} {t : ParseState}
  (hvalue : expression maxDigits depth Precedence.lowest (initial (ts ++ [last]) last) = .ok value t)
include hvalue

theorem initializer_onto {assign : Token} (ha : assign.kind = .assign) (name : Token) (zero : Node) :
    initializer (expression maxDigits depth Precedence.lowest) zero
      ⟨⟨name, assign :: (ts ++ [last]), 0⟩, []⟩ = .ok value t := by
  have hpeek : (⟨name, assign :: (ts ++ [last]), 0⟩ : Cursor).peek.kind = .assign := ha
  rw [← Outcome.run_iff]
  unfold initializer expect
  simp only [Outcome.bind_iff, atEnd_iff, hpeek, Kind.isTerminator, Bool.false_eq_true, if_false,
    Outcome.iff_of_ok (expectNamed_cons ha (by decide) _ _ _), advance_iff, advance_onto hlast hts]
  exact Outcome.run_iff.2 hvalue

section Heading
variable {name assign : Token} (hn : name.kind = .ident) (ha : assign.kind = .assign)
include hn ha

theorem declaration_onto (keyword : Token) (type : BasicType) :
    declaration (expression maxDigits depth Precedence.lowest) type
      ⟨⟨keyword, name :: assign :: (ts ++ [last]), 0⟩, []⟩ =
        .ok (.declare keyword type name.toIdent value) t := by
  rw [← Outcome.run_iff]
  unfold declaration declaredName
  simp only [Outcome.bind_iff, current_iff, Outcome.iff_of_ok (expectNamed_cons hn (by decide) _ _ _),
    Outcome.pure_iff, Outcome.iff_of_ok (initializer_onto hlast hts hvalue ha name _), Token.toIdent,
    and_self]

theorem arrayDeclaration_onto (keyword : Token) {opening closing : Token} (ho : opening.kind = .lbrack)
    (hc : closing.kind = .rbrack) :
    arrayDeclaration (expression maxDigits depth Precedence.lowest)
      ⟨⟨keyword, opening :: closing :: name :: assign :: (ts ++ [last]), 0⟩, []⟩ =
        .ok (.declareArray keyword keyword.text name.toIdent value) t := by
  rw [← Outcome.run_iff]
  unfold arrayDeclaration declaredName expect
  simp only [Outcome.bind_iff, current_iff, Outcome.iff_of_ok (expectNamed_cons ho (by decide) _ _ _),
    Outcome.iff_of_ok (expectNamed_cons hc (by decide) _ _ _),
    Outcome.iff_of_ok (expectNamed_cons hn (by decide) _ _ _), Outcome.pure_iff,
    Outcome.iff_of_ok (initializer_onto hlast hts hvalue ha name _), Token.toIdent, and_self]

end Heading

/-- **The declaration with the type has the value for its own.** -/
theorem statement_declared {inferred : Inferred} {x : String} {front : List Token}
    (h : front.map Token.contents = inferred.heading x) {u : ParseState}
    (hend : endStatement t = .ok () u) :
    ∃ keyword name more, front = keyword :: more ∧
      keyword.contents = (inferred.type.kind, inferred.type.spelling.toList) ∧
      name.contents = (.ident, x.toList) ∧
      statement maxDigits (depth + 1) ⟨⟨keyword, more ++ (ts ++ [last]), 0⟩, []⟩ =
        .ok (some (inferred.node keyword name value)) u := by
  cases inferred with
  | scalar type =>
    obtain ⟨keyword, _, rfl, hkeyword, h⟩ := List.map_eq_cons_iff.1 h
    obtain ⟨name, _, rfl, hname, h⟩ := List.map_eq_cons_iff.1 h
    obtain ⟨assign, rfl, hassign⟩ := List.map_eq_singleton_iff.1 h
    obtain ⟨hn, -⟩ := Prod.mk.inj hname
    refine ⟨keyword, name, _, rfl, hkeyword, hname, ?_⟩
    refine statement_of_type (Prod.mk.inj hkeyword).1 ?_ hend
    have hpeek : (⟨keyword, [name, assign] ++ (ts ++ [last]), 0⟩ : Cursor).peek.kind ≠ .lbrack := by
      show name.kind ≠ .lbrack
      rw [hn]
      decide
    rw [if_neg hpeek]
    exact declaration_onto hlast hts hvalue hn (Prod.mk.inj hassign).1 keyword type
  | array type =>
    obtain ⟨keyword, _, rfl, hkeyword, h⟩ := List.map_eq_cons_iff.1 h
    obtain ⟨opening, _, rfl, hopening, h⟩ := List.map_eq_cons_iff.1 h
    obtain ⟨closing, _, rfl, hclosing, h⟩ := List.map_eq_cons_iff.1 h
    obtain ⟨name, _, rfl, hname, h⟩ := List.map_eq_cons_iff.1 h
    obtain ⟨assign, rfl, hassign⟩ := List.map_eq_singleton_iff.1 h
    obtain ⟨ho, -⟩ := Prod.mk.inj hopening
    obtain ⟨hk, htext⟩ := Prod.mk.inj hkeyword
    refine ⟨keyword, name, _, rfl, hkeyword, hname, ?_⟩
    refine statement_of_type hk ?_ hend
    have hpeek : (⟨keyword, [opening, closing, name, assign] ++ (ts ++ [last]), 0⟩ : Cursor).peek.kind =
        .lbrack := ho
    have hrun := arrayDeclaration_onto hlast hts hvalue (Prod.mk.inj hname).1 (Prod.mk.inj hassign).1
      keyword ho (Prod.mk.inj hclosing).1
    rw [String.toList_injective htext] at hrun
    rw [if_pos hpeek]
    exact hrun

end Declared

omit hlast hts

/-! ## What follows the value -/

section Program
variable {limits : Limits} {s t u : ParseState} {nodes : List Node}

/-- **Nothing was found wrong with the first statement**, if nothing is with all of them. -/
theorem exists_statement_of_toEnd (hs : s.toCursor.Ready) (hg : s.groups = 0)
    (hne : s.current.kind ≠ .eof) (hlegal : ∀ token ∈ s.view, token.kind ≠ .illegal)
    (hrun : toEnd limits s = .ok nodes t) (ht : t.findings = []) :
    ∃ result u, statement limits.digits limits.nesting s = .ok result u := by
  obtain ⟨result, u, hrec, hfound, -⟩ := exists_of_toEnd hs hg hne hrun
  rw [ht] at hfound
  have hreads := statement_reads limits.digits limits.nesting s hs hg
  unfold Outcome at hreads
  cases hst : statement limits.digits limits.nesting s with
  | ok result u => exact ⟨result, u, rfl⟩
  | error halt v =>
    cases halt with
    | crash crash =>
      simp only [recovering, hst] at hrec
      cases hrec
    | malformed =>
      rw [hst] at hreads
      obtain ⟨hl, hdisturbed⟩ := hreads
      have hv : v.findings = u.findings := by
        simp only [recovering, hst] at hrec
        injection hrec with _ hu
        rw [← hu]
      have hnone : v.findings = [] := hv.trans (List.prefix_nil.1 hfound)
      refine absurd ⟨?_, hlegal⟩ hdisturbed
      rw [hnone, eq_comm, ← List.prefix_nil, ← hnone]
      exact hl.findings

/-- A statement with a tree comes first, and what follows behind it. -/
theorem toEnd_of_statement {node : Node} (hs : s.toCursor.Ready) (hg : s.groups = 0)
    (hne : s.current.kind ≠ .eof)
    (hst : statement limits.digits limits.nesting s = .ok (some node) u) :
    toEnd limits s = prepend [node] (toEnd limits ⟨u.toCursor.advance, u.findings⟩) := by
  have hrec : recovering (statement limits.digits limits.nesting) s = .ok (some node) u := by
    simp only [recovering, hst]
  rw [toEnd_eq hs hg hne, hrec]
  simp

/-- **Statements that look the same are read in tandem to their ends.** -/
theorem toEnd_look {v : Sight} {s' : ParseState} {m n : Nat}
    (h : (Tandem.whole v).InSync 0 m n s s') (hrun : toEnd limits s = .ok nodes t) :
    ∃ nodes' t', toEnd limits s' = .ok nodes' t' ∧
      Node.mapTokensIn v.see nodes = Node.mapTokensIn v.see nodes' ∧
      t.findings.map (Finding.mapTokens v.see) = t'.findings.map (Finding.mapTokens v.see) := by
  have hfair := h.cursor.fair.succ.succ
  obtain ⟨nodes', t', hrun', hnodes, ht⟩ := (Tandem.statements_tracks
    (Tandem.statement_rides_self limits.digits limits.nesting) Kind.closesProgram hfair).run
    ⟨h.cursor.tight, h.findings⟩ hrun
  exact ⟨nodes', t', hrun', hnodes, ht.findings⟩

end Program

/-- **The tokens `ts` start with the expression `value`**, which ends a statement, and go on with the
statements `rest`. -/
def StartsWith (limits : Limits) (ts : List Token) (last : Token) (value : Node) (rest : List Node)
    (t : ParseState) : Prop :=
  ∃ depth u v, limits.nesting = depth + 1 ∧
    expression limits.digits depth Precedence.lowest (initial (ts ++ [last]) last) = .ok value u ∧
    endStatement u = .ok () v ∧ toEnd limits ⟨v.toCursor.advance, v.findings⟩ = .ok rest t

namespace StartsWith

variable {limits : Limits} {value : Node} {rest : List Node} {t : ParseState}

/-- **Tokens that look the same start with the same value** and go on with the same statements. -/
theorem look (h : StartsWith limits ts last value rest t) {v : Sight} {us : List Token} {stop : Token}
    (hlook : (ts ++ [last]).map v.see = (us ++ [stop]).map v.see) :
    ∃ value' rest' t', StartsWith limits us stop value' rest' t' ∧
      value.mapTokens v.see = value'.mapTokens v.see ∧
      Node.mapTokensIn v.see rest = Node.mapTokensIn v.see rest' ∧
      t.findings.map (Finding.mapTokens v.see) = t'.findings.map (Finding.mapTokens v.see) := by
  obtain ⟨depth, a, b, hdepth, hvalue, hend, hrest⟩ := h
  have hlast : v.see last = v.see stop := by
    rw [List.map_append, List.map_append] at hlook
    exact List.singleton_inj.1 (List.append_inj' hlook rfl).2
  obtain ⟨value', a', hvalue', hsame, ha⟩ :=
    (Tandem.expression_rides_self limits.digits depth Precedence.lowest 0 0 0).run
      (Tandem.inSync_initial hlook hlast) hvalue
  obtain ⟨⟨⟩, b', hend', -, hb⟩ := (Tandem.endStatement_rides 0 0).run ha hend
  have hnext : (Tandem.whole v).InSync 0 (0 - 1) (0 - 1) ⟨b.toCursor.advance, b.findings⟩
      ⟨b'.toCursor.advance, b'.findings⟩ :=
    ⟨hb.cursor.advance.resolve_left (Tandem.not_past_whole v _), hb.findings⟩
  obtain ⟨rest', t', hrest', hrests, ht⟩ := toEnd_look hnext hrest
  exact ⟨value', rest', t', ⟨depth, a', b', hdepth, hvalue', hend', hrest'⟩, hsame, hrests, ht⟩

/-- **Behind the name and type of a variable** stands what it is declared with. -/
theorem program_run (h : StartsWith limits ts last value rest t) (hlast : last.kind = .eof)
    {front : List Token} (hts : ∀ u ∈ front ++ ts, u.kind ≠ .eof) {inferred : Inferred} {x : String}
    (hfront : front.map Token.contents = inferred.heading x) :
    ∃ keyword name, keyword.contents = (inferred.type.kind, inferred.type.spelling.toList) ∧
      name.contents = (.ident, x.toList) ∧
      program limits (initial (front ++ (ts ++ [last])) last) =
        .ok (.program (inferred.node keyword name value :: rest)) t := by
  obtain ⟨depth, u, v, hdepth, hvalue, hend, hrest⟩ := h
  obtain ⟨keyword, name, more, rfl, hkeyword, hname, hst⟩ := statement_declared hlast
    (fun u hu => hts u (List.mem_append_right _ hu)) hvalue hfront hend
  refine ⟨keyword, name, hkeyword, hname, ?_⟩
  have hne : keyword.kind ≠ .eof := hts keyword List.mem_cons_self
  have hline : keyword.kind ≠ .endOfLine := by
    rw [(Prod.mk.inj hkeyword).1]
    cases inferred.type <;> decide
  have hready := ready_initial hlast hts
  rw [List.append_assoc, List.cons_append, initial_cons hline] at hready
  rw [← hdepth] at hst
  rw [List.cons_append, initial_cons hline, program_eq,
    toEnd_of_statement hready rfl hne hst, hrest]
  rfl

end StartsWith

/-- **A program that starts with a declaration by value**: the tokens of the value tell what is declared. -/
theorem program_inferred (hlast : last.kind = .eof)
    (hts : ∀ t ∈ ts, t.kind ≠ .eof ∧ t.kind ≠ .illegal) {name define : Token} (hn : name.kind = .ident)
    (hd : define.kind = .define) {limits : Limits} {tree : Node} {t : ParseState}
    (hrun : program limits (initial (name :: define :: (ts ++ [last])) last) = .ok tree t)
    (ht : t.findings = []) :
    ∃ inferred value rest, Inferred.ofKinds? ((ts ++ [last]).map Token.kind) = some inferred ∧
      inferred.Found (ts ++ [last]) value ∧
      tree = .program (inferred.node (inferred.type.keywordAt define) name value :: rest) ∧
      StartsWith limits ts last value rest t := by
  have hne : ∀ t ∈ ts, t.kind ≠ .eof := fun t h => (hts t h).1
  have hfirst : name.kind ≠ .eof := by rw [hn]; decide
  have hready : (initial ((name :: define :: ts) ++ [last]) last).toCursor.Ready := by
    refine ready_initial hlast ?_
    simpa [hn, hd] using hne
  have hlegal : ∀ token ∈ Cursor.view ⟨name, define :: (ts ++ [last]), 0⟩, token.kind ≠ .illegal := by
    simpa [Cursor.view, hn, hd, hlast, or_imp, forall_and] using fun t h => (hts t h).2
  have hline : name.kind ≠ .endOfLine := by rw [hn]; decide
  rw [List.cons_append, List.cons_append, initial_cons hline] at hready
  rw [initial_cons hline] at hrun
  obtain ⟨nodes, rfl, hnodes⟩ := eq_of_program hrun
  obtain ⟨result, u, hst⟩ := exists_statement_of_toEnd hready rfl hfirst hlegal hnodes ht
  cases hdepth : limits.nesting with
  | zero =>
    rw [hdepth] at hst
    cases hst
  | succ depth =>
    have hall := hst
    rw [hdepth] at hst
    obtain ⟨inferred, value, v, htold, hfound, hvalue, hend, rfl⟩ :=
      (Outcome.iff_of_ok hst).1 (statement_inferred hlast hne hn hd)
    rw [toEnd_of_statement hready rfl hfirst hall] at hnodes
    cases hrest : toEnd limits ⟨u.toCursor.advance, u.findings⟩ with
    | error crash w =>
      rw [hrest] at hnodes
      cases hnodes
    | ok rest w =>
      rw [hrest] at hnodes
      obtain ⟨rfl, rfl⟩ := EStateM.Result.ok.inj hnodes
      exact ⟨inferred, value, rest, htold, hfound, rfl, depth, v, u, hdepth, hvalue, hend, hrest⟩

end Parse

/-! ## Texts -/

namespace Rereads

variable {follows after : Char → Bool} {cs ds : List Char} {items more : List (Kind × List Char)}

theorem contents {kind : Kind} {text : String} (h : Rereads follows cs (Single kind text)) :
    Rereads follows cs (·.map Token.contents = [(kind, text.toList)]) := by
  refine h.mono ?_
  rintro _ ⟨t, rfl, rfl, rfl⟩
  rfl

theorem append (h : Rereads follows cs (·.map Token.contents = items))
    (h' : Rereads after ds (·.map Token.contents = more)) (hd : ds.head?.any follows) :
    Rereads after (cs ++ ds) (·.map Token.contents = items ++ more) := by
  refine (h.seq h' hd).mono ?_
  rintro _ ⟨us, vs, rfl, hus, hvs⟩
  rw [List.map_append, hus, hvs]

/-- Whatever follows a blank. -/
theorem blank_end : Rereads after [' '] (·.map Token.contents = []) :=
  (nil.mono fun _ hts => by rw [hts]; rfl).blank

/-- A name is cut for itself before what ends a word. -/
theorem name {x : String} (hx : Vocabulary.IsName x) :
    Rereads Lexeme.endsWord x.toList (·.map Token.contents = [(.ident, x.toList)]) := by
  obtain ⟨c, cs, rfl, hc, hcs, hident⟩ := hx
  have hword := (word hc hcs).contents
  rw [hident] at hword
  rwa [String.toList_ofList] at hword ⊢

theorem keyword (type : BasicType) :
    Rereads Lexeme.endsWord type.spelling.toList
      (·.map Token.contents = [(type.kind, type.spelling.toList)]) := by
  have hmem : type.kind ∈ Kind.keywords := by cases type <;> decide
  obtain ⟨c, cs, hspelling, hc, hcs, hword⟩ := Kind.keyword_word hmem
  have hthis := (word hc hcs).contents
  rwa [hword, String.toList_ofList, ← hspelling] at hthis

/-- The name of a variable, and the sign that its value follows. -/
theorem assigned {x : String} (hx : Vocabulary.IsName x) :
    Rereads after (x.toList ++ [' ', '=', ' '])
      (·.map Token.contents = [(.ident, x.toList), (.assign, ['='])]) :=
  (name hx).append ((symbol rfl).contents.append blank_end rfl).blank rfl

/-- The name of a variable that its value declares. -/
theorem defined {x : String} (hx : Vocabulary.IsName x) :
    Rereads after (x.toList ++ [' ', ':', '=', ' '])
      (·.map Token.contents = [(.ident, x.toList), (.define, [':', '='])]) := by
  have hsign : Rereads (fun _ => true) [':', '='] (Single .define ":=") := symbols rfl
  exact (name hx).append (hsign.contents.append blank_end rfl).blank rfl

end Rereads

namespace Inferred

variable {x : String}

/-- The tokens in front of the value are no more than the heading, whatever the value is. -/
theorem exists_front (hx : Vocabulary.IsName x) (inferred : Inferred) :
    ∃ cs, (∀ e, (inferred.declaration x e).toList = cs ++ e.toList) ∧
      Rereads (fun _ => true) cs (·.map Token.contents = inferred.heading x) := by
  have hassigned : Rereads (fun _ => true) _ _ := Rereads.assigned hx
  cases inferred with
  | scalar type =>
    refine ⟨_, fun e => ?_, (Rereads.keyword type).append hassigned.blank rfl⟩
    simp [declaration]
  | array type =>
    have hplain : (x.toList ++ [' ', '=', ' ']).head?.any Lexeme.isPlain := by
      obtain ⟨c, cs, rfl, hc, -⟩ := hx
      simpa using Lexeme.isPlain_of_isWordChar (by simp [Lexeme.isWordChar, hc])
    have hclosing := (Rereads.symbol (c := ']') rfl).contents.append hassigned hplain
    have hopening := (Rereads.symbol (c := '[') rfl).contents.append hclosing rfl
    refine ⟨_, fun e => ?_, (Rereads.keyword type).append hopening.blank rfl⟩
    simp [declaration]

/-- The headings are made up of legal tokens. -/
theorem kind_of_mem_heading {inferred : Inferred} {item : Kind × List Char}
    (h : item ∈ inferred.heading x) : item.1 ≠ .illegal := by
  have htype : inferred.type.kind ≠ .illegal := by
    cases inferred.type <;> decide
  cases inferred with
  | scalar type =>
    simp only [heading, List.mem_cons, List.not_mem_nil, or_false] at h
    rcases h with rfl | rfl | rfl
    · exact htype
    all_goals rintro ⟨⟩
  | array type =>
    simp only [heading, List.mem_cons, List.not_mem_nil, or_false] at h
    rcases h with rfl | rfl | rfl | rfl | rfl
    · exact htype
    all_goals rintro ⟨⟩

/-- Declarations of one form look the same if their parts do. -/
theorem mapTokens_node {v : Sight} {keyword keyword' name name' : Token} {value value' : Node}
    (hk : v.see keyword = v.see keyword') (hn : v.see name = v.see name')
    (hv : value.mapTokens v.see = value'.mapTokens v.see) (inferred : Inferred) :
    (inferred.node keyword name value).mapTokens v.see =
      (inferred.node keyword' name' value').mapTokens v.see := by
  have hname : name.toIdent.mapToken v.see = name'.toIdent.mapToken v.see := by
    simpa [Ident.mapToken, Token.toIdent] using ⟨hn, Sight.text_eq hn⟩
  cases inferred <;> simp only [node, Node.mapTokens, hk, hname, hv]

end Inferred

theorem Token.see_of_contents {t u : Token} (h : t.contents = u.contents) :
    Sight.placeless.see t = Sight.placeless.see u := by
  obtain ⟨hk, ht⟩ := Prod.mk.inj h
  simp only [Sight.placeless, hk, String.toList_injective ht]

namespace Source

/-- **Behind a text that is cut for itself** stand the tokens that the rest has on its own, at other
places. -/
theorem exists_words_append {cs : List Char} {items : List (Kind × List Char)}
    (h : Rereads (fun _ => true) cs (·.map Token.contents = items)) (e : List Char) (firstLine : Int) :
    ∃ front back, words { text := cs ++ e, firstLine } = front ++ back ∧
      front.map Token.contents = items ∧
      back.map Token.contents = (words { text := e }).map Token.contents := by
  obtain ⟨ls, hcut, -, hitems⟩ := h
  have hall : (words { text := cs ++ e, firstLine }).map Token.contents =
      ls.filterMap Lexeme.token? ++ (words { text := e }).map Token.contents := by
    rw [words, lexemes, Lexeme.map_contents, words, lexemes, Lexeme.map_contents, ← List.filterMap_append]
    rw [hcut e (by cases e <;> rfl)]
  obtain ⟨front, back, hwords, hfront, hback⟩ := List.map_eq_append_iff.1 hall
  exact ⟨front, back, hwords, hitems front hfront, hback⟩

theorem tokens_of_words {s : Source} {us vs : List Token} (h : s.words = us ++ vs) :
    s.tokens = us ++ (vs ++ [s.endToken]) := by
  rw [show s.tokens = s.words ++ [s.endToken] from rfl, h, List.append_assoc]

/-- The ends of all texts say the same. -/
theorem map_contents_tokens {s r : Source} {us : List Token}
    (h : us.map Token.contents = r.words.map Token.contents) :
    (us ++ [s.endToken]).map Token.contents = r.tokens.map Token.contents := by
  rw [show r.tokens = r.words ++ [r.endToken] from rfl, List.map_append, List.map_append, h]
  rfl

/-- A text is legal if its tokens say so, wherever they stand. -/
theorem lexicalErrors_of_contents {s : Source}
    (h : ∀ item ∈ s.words.map Token.contents, item.1 ≠ .illegal) : s.lexicalErrors = [] := by
  rw [lexicalErrors_eq_nil_iff]
  intro t ht
  rcases List.mem_append.1 ht with hword | hend
  · exact h _ (List.mem_map_of_mem hword)
  · rw [List.mem_singleton.1 hend]
    rintro ⟨⟩

section Declarations
variable {x e : String} (hx : Vocabulary.IsName x) {limits : Limits} {ts : List Token} {last : Token}
  {value : Node} {rest : List Node} {t : ParseState}
include hx

/-- **What follows the sign in `x := e` follows it in the declaration with a type.** -/
theorem parse_declaration (h : Parse.StartsWith limits ts last value rest t) (ht : t.findings = [])
    (hcontents : (ts ++ [last]).map Token.contents = (tokens { text := e.toList }).map Token.contents)
    (hlegal : ∀ u ∈ ts ++ [last], u.kind ≠ .illegal) {keyword name : Token} {inferred : Inferred}
    (hkeyword : keyword.contents = (inferred.type.kind, inferred.type.spelling.toList))
    (hname : name.contents = (.ident, x.toList)) (firstLine : Int) :
    ∃ again, parse { text := (inferred.declaration x e).toList, firstLine } limits = .ok again ∧
      again.errors = [] ∧
      (Node.program (inferred.node keyword name value :: rest)).same again.program := by
  obtain ⟨cs, htext, hheading⟩ := inferred.exists_front hx
  rw [htext]
  let s : Source := { text := cs ++ e.toList, firstLine }
  obtain ⟨front, back, hwords, hfront, hback⟩ := exists_words_append hheading e.toList firstLine
  have hsaid : (ts ++ [last]).map Token.contents = (back ++ [s.endToken]).map Token.contents :=
    hcontents.trans (map_contents_tokens hback).symm
  -- The value and what follows it are read in tandem.
  obtain ⟨value', rest', t', h', hvalue, hrest, hfindings⟩ := h.look (Token.map_see_of_contents hsaid)
  obtain ⟨keyword', name', hkeyword', hname', hrun⟩ := h'.program_run rfl
    (fun u hu => (kind_of_mem_words (s := s) (hwords ▸ hu)).1) hfront
  rw [← tokens_of_words hwords] at hrun
  have ht' : t'.findings = [] := by
    rw [ht] at hfindings
    exact List.map_eq_nil_iff.1 hfindings.symm
  have hlexical : s.lexicalErrors = [] := by
    refine lexicalErrors_of_contents fun item hitem => ?_
    rw [hwords, List.map_append, hfront] at hitem
    rcases List.mem_append.1 hitem with hitem | hitem
    · exact Inferred.kind_of_mem_heading hitem
    · have hmem : item ∈ (ts ++ [last]).map Token.contents := by
        rw [hsaid, List.map_append]
        exact List.mem_append_left _ hitem
      obtain ⟨u, hu, rfl⟩ := List.mem_map.1 hmem
      exact hlegal u hu
  refine ⟨_, parse_of_run hlexical hrun ht', rfl, ?_⟩
  refine Node.same_of_mapTokens_eq (congrArg Node.program (congrArg₂ List.cons ?_ hrest))
  exact inferred.mapTokens_node (Token.see_of_contents (hkeyword.trans hkeyword'.symm))
    (Token.see_of_contents (hname.trans hname'.symm)) hvalue

end Declarations

/-- **A declaration by value is the declaration with the type that its tokens tell.**  If nothing is wrong
with `x := e`, then nothing is wrong with `T x = e`, or with `T []x = e` if `e` starts with a bracket, and it
is the same program.  The token that tells the type `T` is the one at the left end of the value's tree, or
of the first element's. -/
theorem parse_declares_inferred {x e : String} (hx : Vocabulary.IsName x) {firstLine : Int}
    {limits : Limits} {parsed : Parsed}
    (h : parse { text := (x ++ " := " ++ e).toList, firstLine } limits = .ok parsed)
    (he : parsed.errors = []) :
    ∃ inferred, Inferred.ofKinds? ((tokens { text := e.toList }).map Token.kind) = some inferred ∧
      (∃ again, parse { text := (inferred.declaration x e).toList, firstLine } limits = .ok again ∧
        again.errors = [] ∧ parsed.program.same again.program) ∧
      ∃ name define ts keyword value rest,
        tokens { text := (x ++ " := " ++ e).toList, firstLine } = name :: define :: ts ∧
        ts.map Token.contents = (tokens { text := e.toList }).map Token.contents ∧
        parsed.program = .program (inferred.node keyword name value :: rest) ∧
        inferred.Found ts value := by
  have htext : (x ++ " := " ++ e).toList = x.toList ++ [' ', ':', '=', ' '] ++ e.toList := by simp
  rw [htext] at h ⊢
  obtain ⟨hlexical, -, t, hrun, ht⟩ := of_errors_eq_nil h he
  obtain ⟨front, back, hwords, hcontents, hback⟩ :=
    exists_words_append (Rereads.defined hx) e.toList firstLine
  obtain ⟨name, _, rfl, hname, hcontents⟩ := List.map_eq_cons_iff.1 hcontents
  obtain ⟨define, rfl, hdefine⟩ := List.map_eq_singleton_iff.1 hcontents
  have htokens := tokens_of_words hwords
  have hlegal := lexicalErrors_eq_nil_iff.1 hlexical
  rw [htokens] at hrun hlegal ⊢
  have hproper : ∀ u ∈ back, u.kind ≠ .eof ∧ u.kind ≠ .illegal := fun u hu =>
    (kind_of_mem_words (hwords ▸ List.mem_append_right _ hu)).imp_right fun hl => hl hlexical
  obtain ⟨inferred, value, rest, htold, hfound, hprogram, hstarts⟩ :=
    Parse.program_inferred rfl hproper (Prod.mk.inj hname).1 (Prod.mk.inj hdefine).1 hrun ht
  have hsaid := map_contents_tokens (s := { text := x.toList ++ [' ', ':', '=', ' '] ++ e.toList, firstLine })
    hback
  have hkinds := congrArg (List.map Prod.fst) hsaid
  simp only [List.map_map, Function.comp_def, Token.contents] at hkinds
  refine ⟨inferred, hkinds ▸ htold, ?_, name, define, _, _, value, rest, rfl, hsaid, hprogram, hfound⟩
  rw [hprogram]
  exact parse_declaration hx hstarts ht hsaid (fun u hu => hlegal u (List.mem_append_right _ hu)) rfl
    hname firstLine

/-- An array whose first element starts with parentheses, and is compared to something. -/
theorem parse_declares_inferred_comparison : ∃ parsed again,
    parse { text := "x := [((true)) == y[0], 1]".toList } Limits.standard = .ok parsed ∧
      parsed.errors = [] ∧
      parse { text := "bool []x = [((true)) == y[0], 1]".toList } Limits.standard = .ok again ∧
      again.errors = [] ∧ parsed.program.same again.program := by
  have hx : Vocabulary.IsName "x" := ⟨'x', [], rfl, rfl, rfl, rfl⟩
  obtain ⟨tree, hparse⟩ : ∃ tree,
      parse { text := ("x" ++ " := " ++ "[((true)) == y[0], 1]").toList } Limits.standard =
        .ok { program := tree, errors := Diagnostic.inOrder [], warnings := [] } := ⟨_, rfl⟩
  obtain ⟨inferred, htold, ⟨again, hagain, herrors, hsame⟩, -⟩ :=
    parse_declares_inferred hx hparse List.mergeSort_nil
  have hbool : Inferred.ofKinds? ((tokens { text := "[((true)) == y[0], 1]".toList }).map Token.kind) =
      some (.array .bool) := by decide
  obtain rfl := Option.some.inj (hbool.symm.trans htold)
  exact ⟨_, again, hparse, List.mergeSort_nil, hagain, herrors, hsame⟩

end Source

end LimLang
