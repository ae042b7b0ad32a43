import LimLang.Parse.Statement
import Mathlib.Tactic.Common

/-! # Looking at tokens

Two lists of tokens may be told apart token by token, or one may look at kinds and texts only and
overlook where the tokens stand.  A `Sight` is a way of looking at tokens that tells at least their
kinds and texts.  Trees, and what is found wrong, are looked at through the tokens in them; what the
parser asks of a tree, the type of an array by its first element, looks the same.
-/
namespace LimLang

/-- **A way of looking at tokens** that tells their kinds and texts. -/
structure Sight where
  /-- What is seen of a token. -/
  see : Token → Token
  kind_see : ∀ t, (see t).kind = t.kind
  text_see : ∀ t, (see t).text = t.text
  /-- A word made up at the place of a token looks the same if the token does. -/
  see_at : ∀ t u kind text, see t = see u →
    see { kind, text, line := t.line, col := t.col } =
      see { kind, text, line := u.line, col := u.col }

namespace Sight

/-- Where a token stands is overlooked. -/
def placeless : Sight where
  see t := { kind := t.kind, text := t.text }
  kind_see _ := rfl
  text_see _ := rfl
  see_at _ _ _ _ _ := rfl

variable {v : Sight} {t u : Token}

theorem kind_eq (h : v.see t = v.see u) : t.kind = u.kind := by
  rw [← v.kind_see, h, v.kind_see]

theorem text_eq (h : v.see t = v.see u) : t.text = u.text := by
  rw [← v.text_see, h, v.text_see]

theorem is_eq (h : v.see t = v.see u) (kind : Kind) : t.is kind = u.is kind := by
  rw [Token.is, Token.is, kind_eq h]

end Sight

/-! ## Trees -/

/-- A name with another token. -/
def Ident.mapToken (f : Token → Token) (name : Ident) : Ident :=
  { name with token := f name.token }

namespace Node

mutual

/-- A tree with other tokens. -/
def mapTokens (f : Token → Token) : Node → Node
  | program statements => program (mapTokensIn f statements)
  | ident name => ident (name.mapToken f)
  | int token value => int (f token) value
  | bool token value => bool (f token) value
  | string token value => string (f token) value
  | null token => null (f token)
  | array token elements => array (f token) (mapTokensIn f elements)
  | unary token operator right => unary (f token) operator (right.mapTokens f)
  | binary token left operator right =>
      binary (f token) (left.mapTokens f) operator (right.mapTokens f)
  | call token callee arguments => call (f token) (callee.mapTokens f) (mapTokensIn f arguments)
  | index token left position => index (f token) (left.mapTokens f) (position.mapTokens f)
  | declare token type name value => declare (f token) type (name.mapToken f) (value.mapTokens f)
  | declareArray token kind name value =>
      declareArray (f token) kind (name.mapToken f) (value.mapTokens f)
  | declareLoose token form name value =>
      declareLoose (f token) form (name.mapTokens f) (value.mapTokens f)
  | bareReturn token => bareReturn (f token)
  | returnValue token value => returnValue (f token) (value.mapTokens f)
  | expression token value => expression (f token) (value.mapTokens f)
  | block token statements => block (f token) (mapTokensIn f statements)
  | ifThen token condition body => ifThen (f token) (condition.mapTokens f) (body.mapTokens f)
  | ifElse token condition body next =>
      ifElse (f token) (condition.mapTokens f) (body.mapTokens f) (next.mapTokens f)
  | otherwise token body => otherwise (f token) (body.mapTokens f)
  | otherwiseElse token body next => otherwiseElse (f token) (body.mapTokens f) (next.mapTokens f)
  | function token name parameters result body =>
      function (f token) name (parameters.map (Ident.mapToken f)) result (body.mapTokens f)
  | datum d => datum d
  | listing items => listing (mapTokensIn f items)

/-- Trees with other tokens. -/
def mapTokensIn (f : Token → Token) : List Node → List Node
  | [] => []
  | node :: nodes => node.mapTokens f :: mapTokensIn f nodes

end

mutual

theorem mapTokens_id (node : Node) : node.mapTokens (fun t => t) = node := by
  cases node with
  | program statements => rw [mapTokens, mapTokensIn_id statements]
  | array token elements => rw [mapTokens, mapTokensIn_id elements]
  | unary token operator right => rw [mapTokens, mapTokens_id right]
  | binary token left operator right => rw [mapTokens, mapTokens_id left, mapTokens_id right]
  | call token callee arguments => rw [mapTokens, mapTokens_id callee, mapTokensIn_id arguments]
  | index token left position => rw [mapTokens, mapTokens_id left, mapTokens_id position]
  | declare token type name value => rw [mapTokens, mapTokens_id value, Ident.mapToken]
  | declareArray token kind name value => rw [mapTokens, mapTokens_id value, Ident.mapToken]
  | declareLoose token form name value => rw [mapTokens, mapTokens_id name, mapTokens_id value]
  | returnValue token value => rw [mapTokens, mapTokens_id value]
  | expression token value => rw [mapTokens, mapTokens_id value]
  | block token statements => rw [mapTokens, mapTokensIn_id statements]
  | ifThen token condition body => rw [mapTokens, mapTokens_id condition, mapTokens_id body]
  | ifElse token condition body next =>
    rw [mapTokens, mapTokens_id condition, mapTokens_id body, mapTokens_id next]
  | otherwise token body => rw [mapTokens, mapTokens_id body]
  | otherwiseElse token body next => rw [mapTokens, mapTokens_id body, mapTokens_id next]
  | function token name parameters result body =>
    rw [mapTokens, mapTokens_id body]
    exact congrArg (function token name · result body) (List.map_id parameters)
  | listing items => rw [mapTokens, mapTokensIn_id items]
  | _ => rfl

theorem mapTokensIn_id (nodes : List Node) : mapTokensIn (fun t => t) nodes = nodes := by
  cases nodes with
  | nil => rfl
  | cons node nodes => rw [mapTokensIn, mapTokens_id node, mapTokensIn_id nodes]

end

theorem exists_of_mapTokens_eq_array {f : Token → Token} {node : Node} {token : Token}
    {elements : List Node} (h : node.mapTokens f = array token elements) :
    ∃ token elements, node = array token elements := by
  cases node with
  | array token elements => exact ⟨token, elements, rfl⟩
  | _ => cases h

theorem leftmost_mapTokens (f : Token → Token) (node : Node) :
    (node.mapTokens f).leftmost = node.leftmost.mapTokens f := by
  fun_induction leftmost node with
  | case1 token left operator right ih => exact ih
  | case2 token left position ih => exact ih
  | case3 token callee arguments ih => exact ih
  | case4 node hbinary hindex hcall =>
    cases node with
    | binary token left operator right => exact absurd rfl (hbinary token left operator right)
    | index token left position => exact absurd rfl (hindex token left position)
    | call token callee arguments => exact absurd rfl (hcall token callee arguments)
    | _ => rfl

theorem kind_token_mapTokens (v : Sight) (node : Node) :
    (node.mapTokens v.see).token.kind = node.token.kind := by
  cases node <;> first | rfl | exact v.kind_see _

end Node

/-- The type of an array is judged by what is seen of it. -/
theorem BasicType.ofElements_mapTokensIn (v : Sight) (elements : List Node) :
    ofElements (Node.mapTokensIn v.see elements) = ofElements elements := by
  cases elements with
  | nil => rfl
  | cons first rest =>
    rw [Node.mapTokensIn, ofElements, ofElements, Node.leftmost_mapTokens,
      Node.kind_token_mapTokens]

/-! ## What is found wrong -/

/-- A violation with other tokens. -/
def Violation.mapTokens (f : Token → Token) : Violation → Violation
  | unsupported keyword => unsupported keyword
  | expected what found => expected what (f found)
  | endOfStatement found => endOfStatement (f found)
  | notAnExpression found => notAnExpression (f found)
  | cannotInfer name leading => cannotInfer name (f leading)
  | elseBranch found => elseBranch (f found)
  | resultType found => resultType (f found)
  | parameterType found => parameterType (f found)
  | unclosedBlock => unclosedBlock
  | outOfRange literal => outOfRange literal

/-- A finding with other tokens. -/
def Finding.mapTokens (f : Token → Token) (finding : Finding) : Finding :=
  ⟨finding.violation.mapTokens f, f finding.token⟩

/-! ## What parsers return -/

/-- **What can be looked at** through its tokens. -/
class Visible (α : Type) where
  /-- What is seen of it. -/
  look : Sight → α → α

export Visible (look)

namespace Visible

instance : Visible Unit := ⟨fun _ => id⟩
instance : Visible String := ⟨fun _ => id⟩
instance : Visible Token := ⟨Sight.see⟩
instance : Visible Ident := ⟨fun v => Ident.mapToken v.see⟩
instance : Visible Node := ⟨fun v => Node.mapTokens v.see⟩
instance : Visible (List Ident) := ⟨fun v => List.map (Ident.mapToken v.see)⟩
instance : Visible (List Node) := ⟨fun v => Node.mapTokensIn v.see⟩
instance : Visible (Option String) := ⟨fun _ => id⟩
instance : Visible (Option Node) := ⟨fun v => Option.map (Node.mapTokens v.see)⟩

variable (v : Sight)

@[simp] theorem look_string (text : String) : look v text = text := rfl

@[simp] theorem look_token (token : Token) : look v token = v.see token := rfl

@[simp] theorem look_ident (name : Ident) : look v name = name.mapToken v.see := rfl

@[simp] theorem look_idents (names : List Ident) :
    look v names = names.map (Ident.mapToken v.see) := rfl

@[simp] theorem look_node (node : Node) : look v node = node.mapTokens v.see := rfl

@[simp] theorem look_nodes (nodes : List Node) : look v nodes = Node.mapTokensIn v.see nodes := rfl

@[simp] theorem look_typeName (name : Option String) : look v name = name := rfl

end Visible

end LimLang
