/-! # Integers of 64 bits

Arithmetic of the language is that of a machine word: a result that does not fit into 64 bits is
taken modulo 2 ^ 64 to the one representative between -2 ^ 63 and 2 ^ 63 - 1.  Division goes by the
magnitudes, and the quotient gets its sign afterwards.
-/
namespace LimLang.MachineInt

/-- How many integers there are, 2 ^ 64. -/
def size : Nat := 0x10000000000000000

/-- The first natural number that no word holds, 2 ^ 63. -/
def bound : Nat := 0x8000000000000000

/-- An integer that fits into a word. -/
def InRange (v : Int) : Prop :=
  -(bound : Int) ≤ v ∧ v < bound

instance (v : Int) : Decidable (InRange v) :=
  inferInstanceAs (Decidable (_ ∧ _))

/-- What fits into a word is left alone.  All else is counted from the least integer on, modulo
2 ^ 64. -/
def wrap (v : Int) : Int :=
  if InRange v then v else (v - -bound) % size + -bound

/-- The quotient of the magnitudes, rounded down, is negated where just one of the two is
negative. -/
def quotient (a b : Int) : Int :=
  let magnitude : Int := (a.natAbs / b.natAbs : Nat)
  if decide (a < 0) ≠ decide (b < 0) then -magnitude else magnitude

/-- What is left of `a` when `b` is taken out of it as often as the quotient says. -/
def remainder (a b : Int) : Int :=
  a - b * quotient a b

/-- Every result fits into a word. -/
theorem wrap_inRange (v : Int) : InRange (wrap v) := by
  unfold wrap
  split
  · assumption
  · unfold InRange bound size
    omega

theorem wrap_of_inRange {v : Int} (h : InRange v) : wrap v = v :=
  if_pos h

end LimLang.MachineInt
