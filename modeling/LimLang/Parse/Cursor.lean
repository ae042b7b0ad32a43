import LimLang.Token

/-! # The cursor over a list of tokens

The parser looks at two tokens: the *current* one and the one *ahead* of it.  Newlines separate
statements, so a newline may stand ahead, where it ends an expression, but it is never current.  Inside
parentheses and brackets newlines mean nothing: the cursor counts the groups that are open, and while
any is, newlines ahead of the current token are dropped.

A list of tokens ends with `eof`.  Once that token is current nothing is ahead, and the cursor stays
where it is.
-/
namespace LimLang

/-- **Where the parser is in a list of tokens.** -/
structure Cursor where
  /-- The current token. -/
  current : Token
  /-- The tokens after it, nearest first. -/
  ahead : List Token
  /-- How many parentheses and brackets are open around the current token. -/
  groups : Nat
  deriving DecidableEq, Repr

namespace Cursor

/-- A token that separates lines. -/
def isNewline (t : Token) : Bool :=
  t.is .endOfLine

/-- The token after the current one; at the end, the current one again. -/
def peek (c : Cursor) : Token :=
  c.ahead.headD c.current

/-- Makes the next token that is no newline the current one. -/
def advance (c : Cursor) : Cursor :=
  match c.ahead.dropWhile isNewline with
  | [] => c
  | t :: ts =>
      { c with
        current := t
        ahead := if c.groups = 0 then ts else ts.dropWhile isNewline }

/-- Opens a group: the newlines ahead lose their meaning. -/
def openGroup (c : Cursor) : Cursor :=
  { c with groups := c.groups + 1, ahead := c.ahead.dropWhile isNewline }

/-- Closes a group. -/
def closeGroup (c : Cursor) : Cursor :=
  { c with groups := c.groups - 1 }

/-- The cursor before a list of tokens that ends with `last`: the first token that is no newline is
current. -/
def ofTokens (tokens : List Token) (last : Token) : Cursor :=
  advance { current := last, ahead := tokens, groups := 0 }

/-- How many braces opened within a malformed statement are still open after a token of this kind, if
`depth` are open before it.  A semicolon ends the statement, and so does a closing brace that was not
opened within it. -/
def depthAfter (depth : Nat) : Kind → Option Nat
  | .eof => none
  | .semicolon => none
  | .rbrace => if depth = 0 then none else some (depth - 1)
  | .lbrace => some (depth + 1)
  | _ => some depth

/-- A token before which a malformed statement ends, if none of its braces is open. -/
def endsBefore : Kind → Bool
  | .endOfLine => true
  | .eof => true
  | .rbrace => true
  | _ => false

/-- Skipping of a malformed statement, by at most `bound` tokens, inside `depth` braces that were
opened within it. -/
def skipWithin : Nat → Nat → Cursor → Cursor
  | 0, _, c => c
  | bound + 1, depth, c =>
      match depthAfter depth c.current.kind with
      | none => c
      | some depth =>
          if depth = 0 && endsBefore c.peek.kind then c
          else skipWithin bound depth c.advance

/-- **Skips the rest of a malformed statement**, with the braces opened within it. -/
def synchronize (c : Cursor) : Cursor :=
  c.skipWithin (c.ahead.length + 1) 0

theorem advance_groups (c : Cursor) : c.advance.groups = c.groups := by
  unfold advance
  split <;> rfl

theorem length_ahead_advance_le (c : Cursor) : c.advance.ahead.length ≤ c.ahead.length := by
  unfold advance
  split
  · exact Nat.le_refl _
  · next t ts hd =>
    have tail := (List.dropWhile_suffix isNewline (l := ts)).length_le
    have all := (List.dropWhile_suffix isNewline (l := c.ahead)).length_le
    simp only [hd, List.length_cons] at all
    dsimp only
    split <;> omega

end Cursor

end LimLang
