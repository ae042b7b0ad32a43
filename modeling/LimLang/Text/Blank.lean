/-! # Blank characters

Which characters count as blank when the ends of a line are trimmed.  The rule is wider than the
blanks that separate tokens: it takes in every separator of the character set, the four
information separators below the space, and the next-line control.
-/
namespace LimLang.Text

/-- Whether the code point of `c` lies in one of the closed ranges of `table`. -/
def inRanges (table : List (Nat × Nat)) (c : Char) : Bool :=
  table.any fun range => range.1 ≤ c.toNat && c.toNat ≤ range.2

/-- The closed ranges of blank code points, in increasing order. -/
def blankRanges : List (Nat × Nat) :=
  [(0x0009, 0x000D), (0x001C, 0x0020), (0x0085, 0x0085), (0x00A0, 0x00A0), (0x1680, 0x1680),
    (0x2000, 0x200A), (0x2028, 0x2029), (0x202F, 0x202F), (0x205F, 0x205F), (0x3000, 0x3000)]

/-- A character that trimming removes. -/
def isBlank (c : Char) : Bool :=
  inRanges blankRanges c

/-- Removes from the end of a text the longest run of characters satisfying `p`. -/
def dropTrailing (p : Char → Bool) (cs : List Char) : List Char :=
  (cs.reverse.dropWhile p).reverse

/-- Removes from both ends of a text the longest runs of characters satisfying `p`. -/
def trimWith (p : Char → Bool) (cs : List Char) : List Char :=
  dropTrailing p (cs.dropWhile p)

/-- Removes the blanks at both ends of a text. -/
def trim (cs : List Char) : List Char :=
  trimWith isBlank cs

end LimLang.Text
