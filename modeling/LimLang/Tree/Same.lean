import LimLang.Tree

/-! # Equality of trees

Two trees are the same if they agree in everything but their tokens.
-/
namespace LimLang

namespace Ident

/-- Names agree if they are spelled alike and declared with the same type. -/
def same (a b : Ident) : Bool :=
  a.name == b.name && a.typeName == b.typeName

/-- Lists of names agree if they are of one length and agree name by name. -/
def sameAll : List Ident → List Ident → Bool
  | [], [] => true
  | a :: as, b :: bs => a.same b && sameAll as bs
  | _, _ => false

end Ident

namespace Node

mutual

/-- **Equality of trees, whatever their tokens.** -/
def same : Node → Node → Bool
  | program xs, program ys => sameAll xs ys
  | ident a, ident b => a.same b
  | int _ a, int _ b => a == b
  | bool _ a, bool _ b => a == b
  | string _ a, string _ b => a == b
  | null _, null _ => true
  | array _ xs, array _ ys => sameAll xs ys
  | unary _ op right, unary _ op' right' => op == op' && right.same right'
  | binary _ left op right, binary _ left' op' right' =>
      left.same left' && op == op' && right.same right'
  | call _ f xs, call _ f' ys => f.same f' && sameAll xs ys
  | index _ left i, index _ left' i' => left.same left' && i.same i'
  | declare _ type name value, declare _ type' name' value' =>
      type == type' && name.same name' && value.same value'
  | declareArray _ kind name value, declareArray _ kind' name' value' =>
      kind == kind' && name.same name' && value.same value'
  | declareLoose _ form name value, declareLoose _ form' name' value' =>
      form == form' && name.same name' && value.same value'
  | bareReturn _, bareReturn _ => true
  | returnValue _ value, returnValue _ value' => value.same value'
  | expression _ value, expression _ value' => value.same value'
  | block _ xs, block _ ys => sameAll xs ys
  | ifThen _ c body, ifThen _ c' body' => c.same c' && body.same body'
  | ifElse _ c body next, ifElse _ c' body' next' =>
      c.same c' && body.same body' && next.same next'
  | otherwise _ body, otherwise _ body' => body.same body'
  | otherwiseElse _ body next, otherwiseElse _ body' next' => body.same body' && next.same next'
  | function _ name ps result body, function _ name' ps' result' body' =>
      name == name' && Ident.sameAll ps ps' && result == result' && body.same body'
  | datum a, datum b => a.same b
  | listing xs, listing ys => sameAll xs ys
  | _, _ => false

/-- Equality of lists of trees. -/
def sameAll : List Node → List Node → Bool
  | [], [] => true
  | x :: xs, y :: ys => x.same y && sameAll xs ys
  | _, _ => false

end

end Node

end LimLang
