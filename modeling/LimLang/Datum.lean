import LimLang.Text.Quoted

/-! # Data in trees

A tree that is put together by hand may hold, in the place of a node, something that is none: nothing at
all, a truth value, a number or a text.
-/
namespace LimLang

/-- **Something that stands in the place of a node.** -/
inductive Datum where
  | nothing
  | truth (b : Bool)
  | number (n : Int)
  | text (s : String)
  deriving DecidableEq, Repr

namespace Datum

/-- The name of a datum's class. -/
def label : Datum → String
  | nothing => "NoneType"
  | truth _ => "bool"
  | number _ => "int"
  | text _ => "str"

/-- A datum as a part of a rendered tree. -/
def render : Datum → String
  | nothing => "None"
  | truth b => if b then "True" else "False"
  | number n => toString n
  | text s => s

/-- A datum as a field of a displayed tree. -/
def display : Datum → String
  | text s => Text.quote s
  | datum => datum.render

/-- The number that a datum counts as: the truth values count as zero and one. -/
def number? : Datum → Option Int
  | truth b => some (if b then 1 else 0)
  | number n => some n
  | _ => none

/-- Data agree if they count as the same number, or are equal. -/
def same (a b : Datum) : Bool :=
  match a.number?, b.number? with
  | some m, some n => m == n
  | _, _ => a == b

end Datum

end LimLang
