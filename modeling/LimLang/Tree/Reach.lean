import LimLang.Tree

/-! # How far a tree reaches

Going through a tree takes room: a step from a node to a node inside it is paid for until the way back.
What a step costs depends on what is done with the tree and on the kind of step.  The *reach* of a tree is
the cost of the dearest way from its root to a leaf.
-/
namespace LimLang

/-- **What steps into a tree cost.** -/
structure Stride where
  /-- To a node inside another. -/
  child : Nat
  /-- To an item of a list. -/
  item : Nat
  /-- From a link of a chain of branches to the next. -/
  link : Nat
  deriving DecidableEq, Repr

namespace Stride

/-- Rendering goes through a chain of branches link by link without going deeper. -/
def rendering : Stride := ⟨3, 5, 0⟩

/-- Displaying goes deeper with every link. -/
def displaying : Stride := ⟨1, 3, 1⟩

/-- Comparing goes deeper with every link. -/
def comparing : Stride := ⟨4, 5, 4⟩

/-- Listing the nodes goes deeper with every link. -/
def walking : Stride := ⟨1, 1, 1⟩

end Stride

namespace Node

mutual

/-- **How far a tree reaches.** -/
def reach (s : Stride) : Node → Nat
  | program statements => s.item + reachAll s statements
  | array _ elements => s.item + reachAll s elements
  | unary _ _ right => s.child + right.reach s
  | binary _ left _ right => s.child + max (left.reach s) (right.reach s)
  | call _ callee arguments => max (s.child + callee.reach s) (s.item + reachAll s arguments)
  | index _ left place => s.child + max (left.reach s) (place.reach s)
  | declare _ _ _ value => s.child + value.reach s
  | declareArray _ _ _ value => s.child + value.reach s
  | declareLoose _ _ name value => s.child + max (name.reach s) (value.reach s)
  | returnValue _ value => s.child + value.reach s
  | expression _ value => s.child + value.reach s
  | block _ statements => s.item + reachAll s statements
  | ifThen _ condition body => s.child + max (condition.reach s) (body.reach s)
  | ifElse _ condition body next =>
      max (s.child + max (condition.reach s) (body.reach s)) (s.link + next.reach s)
  | otherwise _ body => s.child + body.reach s
  | otherwiseElse _ body next => max (s.child + body.reach s) (s.link + next.reach s)
  | function _ _ _ _ body => s.child + body.reach s
  | listing items => s.item + reachAll s items
  | ident _ | int _ _ | bool _ _ | string _ _ | null _ | bareReturn _ | datum _ => 1

/-- How far the farthest of several trees reaches. -/
def reachAll (s : Stride) : List Node → Nat
  | [] => 0
  | node :: nodes => max (node.reach s) (reachAll s nodes)

end

end Node

end LimLang
