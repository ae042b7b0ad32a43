import LimLang.Proofs.Brackets
import LimLang.Proofs.Concatenation

/-! # The brackets of a program

A line of source text is held back as long as more brackets are opened than closed among its tokens.
That is a count over tokens and knows nothing of the grammar.  A program of the grammar closes every
bracket it opens, by induction over its phrases and clauses, so a text that nothing is wrong with is
never held back (`Session.joinLine_passes_programs`).
-/
namespace LimLang

namespace Token

theorem balance_newlines {gap : List Token} (h : IsNewlines gap) : balance gap = 0 := by
  induction gap with
  | nil => rfl
  | cons t gap ih =>
    obtain ⟨ht, hgap⟩ := List.forall_mem_cons.1 h
    rw [balance_cons, ht, ih hgap]
    rfl

/-- Newlines are no brackets. -/
theorem balance_unbroken (ts : List Token) : balance (unbroken ts) = balance ts := by
  induction ts with
  | nil => rfl
  | cons t ts ih =>
    by_cases ht : t.kind = .endOfLine
    · have hgap : unbroken [t] = [] := IsNewlines.unbroken (List.forall_mem_singleton.2 ht)
      rw [← List.singleton_append, unbroken_append, hgap, List.nil_append, ih, balance_append,
        balance_newlines (List.forall_mem_singleton.2 ht), Int.zero_add]
    · rw [unbroken_cons ht, balance_cons, balance_cons, ih]

theorem balance_congr {ts us : List Token} (h : ts.map kind = us.map kind) :
    balance ts = balance us := by
  have hcount : ∀ (q : Kind → Bool) (ts : List Token),
      ts.countP (fun t => q t.kind) = (ts.map kind).countP q :=
    fun q ts => List.countP_map.symm
  rw [balance, balance, hcount, hcount Kind.isCloser, hcount Kind.isOpener us,
    hcount Kind.isCloser us, h]

/-- A pair of brackets. -/
theorem balance_group {opening closing : Token} {ts : List Token} (ho : opening.kind.isOpener)
    (hc : closing.kind.isCloser) (h : balance ts = 0) :
    balance (opening :: (ts ++ [closing])) = 0 := by
  have hopening : opening.kind.weight = 1 := if_pos ho
  have hclosing : closing.kind.weight = -1 := by
    revert hc
    cases closing.kind <;> decide
  rw [balance_cons, balance_append, balance_cons, hopening, hclosing, h]
  rfl

end Token

open Token

theorem Kind.weight_of_isPrefix {kind : Kind} (h : kind.isPrefix) : kind.weight = 0 := by
  revert h
  cases kind <;> decide

theorem Kind.weight_of_isType {kind : Kind} (h : kind.isType) : kind.weight = 0 := by
  revert h
  cases kind <;> decide

theorem Kind.weight_of_isSeparator {kind : Kind} (h : kind.isSeparator) : kind.weight = 0 := by
  revert h
  cases kind <;> decide

/-- Operators between operands are no brackets. -/
theorem Kind.weight_of_precedence {kind : Kind} (hlow : Precedence.lowest < kind.precedence)
    (hhigh : kind.precedence ≤ Precedence.product) : kind.weight = 0 := by
  revert hlow hhigh
  cases kind <;> decide

/-- **A phrase closes the brackets it opens.** -/
theorem Phrase.balance_eq {kind : PhraseKind} {ts : List Token} {nodes : List Node}
    (h : Phrase kind ts nodes) : balance ts = 0 := by
  induction h with
  | loosen _ _ ih => exact ih
  | ident ht => rw [balance_cons, ht]; rfl
  | int ht _ => rw [balance_cons, ht]; rfl
  | string ht => rw [balance_cons, ht]; rfl
  | true ht => rw [balance_cons, ht]; rfl
  | false ht => rw [balance_cons, ht]; rfl
  | null ht => rw [balance_cons, ht]; rfl
  | group ho hc _ ih =>
    rw [balance_unbroken] at ih
    exact balance_group (by rw [ho]; rfl) (by rw [hc]; rfl) ih
  | array ho hc _ ih =>
    rw [balance_unbroken] at ih
    exact balance_group (by rw [ho]; rfl) (by rw [hc]; rfl) ih
  | call _ ho hc _ ihf ih =>
    rw [balance_unbroken] at ih
    rw [balance_append, ihf, balance_group (by rw [ho]; rfl) (by rw [hc]; rfl) ih]
    rfl
  | index _ ho hc _ ihl ih =>
    rw [balance_unbroken] at ih
    rw [balance_append, ihl, balance_group (by rw [ho]; rfl) (by rw [hc]; rfl) ih]
    rfl
  | unary ho hg _ ih =>
    rw [balance_cons, balance_append, Kind.weight_of_isPrefix ho, balance_newlines hg, ih]
    rfl
  | binary hf ho hp hg _ _ ihl ihr =>
    rw [balance_append, balance_cons, balance_append, ihl, ihr, balance_newlines hg,
      Kind.weight_of_precedence (by omega) hp]
    rfl
  | item _ ih => exact ih
  | later _ hc _ ih ihs => rw [balance_append, balance_cons, ih, ihs, hc]; rfl
  | none => rfl
  | some _ ih => exact ih

theorem TypePhrase.balance_eq {ts : List Token} {type : String} (h : TypePhrase ts type) :
    balance ts = 0 := by
  cases h with
  | basic ht => rw [balance_cons, Kind.weight_of_isType ht]; rfl
  | array ht ho hc =>
    rw [balance_cons, balance_cons, balance_cons, Kind.weight_of_isType ht, ho, hc]
    rfl

theorem ParameterPhrase.balance_eq {ts : List Token} {parameters : List Ident}
    (h : ParameterPhrase ts parameters) : balance ts = 0 := by
  induction h with
  | one ht hn => rw [balance_append, balance_cons, ht.balance_eq, hn]; rfl
  | more ht hn hc _ ih =>
    rw [balance_append, balance_cons, balance_cons, ht.balance_eq, hn, hc, ih]
    rfl

theorem ParametersPhrase.balance_eq {ts : List Token} {parameters : List Ident}
    (h : ParametersPhrase ts parameters) : balance ts = 0 := by
  cases h with
  | none => rfl
  | some h => exact h.balance_eq

theorem ResultPhrase.balance_eq {ts : List Token} {result : Option String}
    (h : ResultPhrase ts result) : balance ts = 0 := by
  cases h with
  | none => rfl
  | plain h => exact h.balance_eq
  | arrow ha h => rw [balance_cons, h.balance_eq, ha]; rfl

theorem InitializerPhrase.balance_eq {zero value : Node} {ts : List Token}
    (h : InitializerPhrase zero ts value) : balance ts = 0 := by
  cases h with
  | none => rfl
  | some ha hg h => rw [balance_cons, balance_append, balance_newlines hg, h.balance_eq, ha]; rfl

/-- **A clause closes the brackets it opens.** -/
theorem Clause.balance_eq {kind : ClauseKind} {ts : List Token} {nodes : List Node}
    (h : Clause kind ts nodes) : balance ts = 0 := by
  induction h with
  | declare hk hn h =>
    rw [balance_cons, balance_cons, h.balance_eq, hn,
      Kind.weight_of_isType (Kind.isType_of_ofKind? hk)]
    rfl
  | declareArray hk ho hc hn h =>
    rw [balance_cons, balance_cons, balance_cons, balance_cons, h.balance_eq, hn, ho, hc,
      Kind.weight_of_isType hk]
    rfl
  | define hn hd hg _ h =>
    rw [balance_cons, balance_cons, balance_append, balance_newlines hg, h.balance_eq, hn, hd]
    rfl
  | defineArray hn hd hg ho hc h =>
    have hitems := h.balance_eq
    rw [balance_unbroken] at hitems
    rw [balance_cons, balance_cons, balance_append, balance_newlines hg,
      balance_group (by rw [ho]; rfl) (by rw [hc]; rfl) hitems, hn, hd]
    rfl
  | bareReturn hk => rw [balance_cons, hk]; rfl
  | returnValue hk h => rw [balance_cons, h.balance_eq, hk]; rfl
  | expression h => exact h.balance_eq
  | ifThen hk hg hc _ ihb =>
    rw [balance_cons, balance_append, balance_append, balance_newlines hg, hc.balance_eq, ihb, hk]
    rfl
  | ifOtherwise hk hg hc _ ha _ ihb ihe =>
    rw [balance_cons, balance_append, balance_append, balance_append, balance_cons,
      balance_newlines hg, hc.balance_eq, ihb, ihe, hk, ha]
    rfl
  | ifElse hk hg hc _ ha _ ihb ihn =>
    rw [balance_cons, balance_append, balance_append, balance_append, balance_cons,
      balance_newlines hg, hc.balance_eq, ihb, ihn, hk, ha]
    rfl
  | branches _ ih => exact ih
  | function hk hn ho hp hc hr _ ihb =>
    have hparameters := hp.balance_eq
    rw [balance_unbroken] at hparameters
    rw [balance_cons, balance_cons, balance_cons, balance_append, balance_cons, balance_append,
      hparameters, hr.balance_eq, ihb, hk, hn, ho, hc]
    rfl
  | block ho hc _ ih => exact balance_group (by rw [ho]; rfl) (by rw [hc]; rfl) ih
  | empty => rfl
  | separator ht _ ih => rw [balance_cons, Kind.weight_of_isSeparator ht, ih]; rfl
  | braced _ _ ihs ih => rw [balance_append, ihs, ih]; rfl
  | ended _ ht _ ihs ih =>
    rw [balance_append, balance_cons, Kind.weight_of_isSeparator ht, ihs, ih]
    rfl
  | last _ ihs => exact ihs

/-! ## Texts -/

namespace Source

variable {s : Source} {limits : Limits} {parsed : Parsed}

/-- **A text that nothing is wrong with is a program.** -/
theorem exists_clause_of_parse (h : s.parse limits = .ok parsed) (herrors : parsed.errors = []) :
    ∃ nodes, parsed.program = .program nodes ∧ Clause .body s.words nodes := by
  obtain ⟨hlexical, -, t, hrun, ht⟩ := of_errors_eq_nil h herrors
  have hwords : ∀ t ∈ s.words, t.kind ≠ .eof ∧ t.kind ≠ .illegal := fun t ht =>
    ⟨(kind_of_mem_words ht).1, (kind_of_mem_words ht).2 hlexical⟩
  exact Parse.program_clause rfl hwords hrun ht

theorem balance_tokens_of_parse (h : s.parse limits = .ok parsed) (herrors : parsed.errors = []) :
    balance s.tokens = 0 := by
  obtain ⟨nodes, -, hclause⟩ := exists_clause_of_parse h herrors
  show balance (s.words ++ [s.endToken]) = 0
  rw [balance_append, hclause.balance_eq]
  rfl

/-- Which brackets a text opens and closes does not depend on how its lines are numbered. -/
theorem balance_tokens_renumbered (text : List Char) (m n : Int) :
    balance (tokens { text, firstLine := m }) = balance (tokens { text, firstLine := n }) := by
  refine balance_congr ?_
  have hkinds : ∀ k, (words { text, firstLine := k }).map Token.kind =
      ((Lexeme.cut text).filterMap Lexeme.token?).map Prod.fst := by
    intro k
    rw [← Lexeme.map_contents (start { text, firstLine := k }), List.map_map]
    rfl
  show (words _ ++ [_]).map Token.kind = (words _ ++ [_]).map Token.kind
  rw [List.map_append, List.map_append, hkinds, hkinds]
  rfl

end Source

/-- **No program is held back.**  A line that is joined to what was typed before is complete if the text
they make up is parsed without anything found wrong, however its lines are numbered; for a text that is
parsed so has as many closing brackets as opening ones. -/
theorem Session.joinLine_passes_programs :
    (∀ (line pending : String) (n : Int) (limits : Limits) (parsed : Parsed),
      Source.parse { text := (joinLine line pending).1.toList, firstLine := n } limits = .ok parsed →
      parsed.errors = [] → (joinLine line pending).2 = false) ∧
    ∀ (s : Source) (limits : Limits) (parsed : Parsed), s.parse limits = .ok parsed →
      parsed.errors = [] →
      (s.tokens.countP fun t => t.kind.isOpener) = s.tokens.countP fun t => t.kind.isCloser := by
  constructor
  · intro line pending n limits parsed hparse herrors
    have hbalance := Source.balance_tokens_of_parse hparse herrors
    rw [Source.balance_tokens_renumbered _ n 1, ← openBrackets_eq] at hbalance
    show decide (0 < openBrackets (joinLine line pending).1) = false
    rw [hbalance]
    rfl
  · intro s limits parsed hparse herrors
    have hbalance := Source.balance_tokens_of_parse hparse herrors
    unfold balance at hbalance
    omega

/-- The second line closes two brackets; two more stand in a string and in a comment. -/
theorem Session.joinLine_passes_programs_call : ∃ parsed,
    Source.parse { text := (joinLine "\x22)\x22) /* [" "f([1],\n").1.toList, firstLine := 4 }
        Limits.standard = .ok parsed ∧
      parsed.errors = [] ∧ parsed.warnings.length = 1 ∧
      (joinLine "\x22)\x22) /* [" "f([1],\n").2 = false ∧
      ((Source.tokens { text := "f(\x22(\x22)".toList }).countP fun t => t.kind.isOpener) =
        (Source.tokens { text := "f(\x22(\x22)".toList }).countP fun t => t.kind.isCloser := by
  obtain ⟨hpasses, hcounts⟩ := joinLine_passes_programs
  obtain ⟨tree, warnings, hparse, hwarnings⟩ : ∃ tree warnings,
      Source.parse { text := (joinLine "\x22)\x22) /* [" "f([1],\n").1.toList, firstLine := 4 }
        Limits.standard = .ok { program := tree, errors := Diagnostic.inOrder [], warnings } ∧
      warnings.length = 1 :=
    ⟨_, _, rfl, rfl⟩
  obtain ⟨other, hother⟩ : ∃ tree, Source.parse { text := "f(\x22(\x22)".toList } Limits.standard =
      .ok { program := tree, errors := Diagnostic.inOrder [], warnings := [] } :=
    ⟨_, rfl⟩
  exact ⟨_, hparse, List.mergeSort_nil, hwarnings,
    hpasses _ _ _ _ _ hparse List.mergeSort_nil, hcounts _ _ _ hother List.mergeSort_nil⟩

end LimLang
