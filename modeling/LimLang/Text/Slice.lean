/-! # Slices with signed ends

A slice of a text between two offsets.  A negative offset counts from the end of the text, and an
offset outside the text stands for the nearer end, so every pair of integers names a slice.
-/
namespace LimLang.Text

/-- The place in a text of `length` characters that the offset `i` names. -/
def clip (length : Nat) (i : Int) : Nat :=
  if i < 0 then (i + length).toNat else min i.toNat length

/-- The part of `cs` from offset `start` up to offset `stop`. -/
def slice (cs : List Char) (start stop : Int) : List Char :=
  (cs.take (clip cs.length stop)).drop (clip cs.length start)

/-- The part of `cs` before offset `stop`. -/
def sliceTo (cs : List Char) (stop : Int) : List Char :=
  cs.take (clip cs.length stop)

/-- The part of `cs` from offset `start` on. -/
def sliceFrom (cs : List Char) (start : Int) : List Char :=
  cs.drop (clip cs.length start)

end LimLang.Text
