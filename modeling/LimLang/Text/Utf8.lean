import LimLang.Text.Quoted

/-! # Reading bytes as text

Files are sequences of bytes that spell characters in UTF-8.  Decoding reads them from left to right
and stops at the first byte that cannot be part of a character.  The decoder is a machine with one
state: the character it is in the middle of, if any, with the bytes it still needs and the range the
next one must lie in.  Overlong forms, surrogates and code points beyond the last plane are ruled out
by the range of the second byte.

A text read from a file has its line ends made uniform: a carriage return, alone or before a line
feed, becomes a line feed.
-/
namespace LimLang.Text

/-- Why a sequence of bytes is not a character. -/
inductive Utf8Reason where
  /-- No character starts with this byte. -/
  | startByte
  /-- The next byte does not continue the character. -/
  | continuationByte
  /-- The text ends inside the character. -/
  | endOfData
  deriving DecidableEq, Repr

/-- The wording of a reason. -/
def Utf8Reason.wording : Utf8Reason → String
  | .startByte => "invalid start byte"
  | .continuationByte => "invalid continuation byte"
  | .endOfData => "unexpected end of data"

/-- The first malformed sequence of a text. -/
structure Utf8Fault where
  /-- Its first byte. -/
  byte : UInt8
  /-- The offset of that byte. -/
  start : Nat
  /-- How many bytes it has; never zero. -/
  count : Nat
  /-- What is wrong with it. -/
  reason : Utf8Reason
  deriving DecidableEq, Repr

/-- The wording of a malformed sequence: one byte is shown, several are given by their offsets. -/
def Utf8Fault.message (f : Utf8Fault) : String :=
  (if f.count = 1 then
    "'utf-8' codec can't decode byte 0x" ++ String.ofList (hex 2 f.byte.toNat) ++ " in position "
      ++ toString f.start
  else
    "'utf-8' codec can't decode bytes in position " ++ toString f.start ++ "-"
      ++ toString (f.start + f.count - 1))
    ++ ": " ++ f.reason.wording

/-- A character of several bytes that has been read in part. -/
structure PartialChar where
  /-- The first byte. -/
  byte : UInt8
  /-- The offset of the first byte. -/
  start : Nat
  /-- How many bytes have been read. -/
  seen : Nat
  /-- The bits read so far. -/
  code : Nat
  /-- How many bytes are missing; never zero. -/
  need : Nat
  /-- The least value of the next byte. -/
  low : Nat
  /-- The greatest value of the next byte. -/
  high : Nat

/-- The character that starts with `b` at offset `start`, if `b` starts one of several bytes. -/
def PartialChar.begin? (start : Nat) (b : UInt8) : Option PartialChar :=
  let n := b.toNat
  if 0xC2 ≤ n ∧ n ≤ 0xDF then some ⟨b, start, 1, n - 0xC0, 1, 0x80, 0xBF⟩
  else if 0xE0 ≤ n ∧ n ≤ 0xEF then
    some ⟨b, start, 1, n - 0xE0, 2, if n = 0xE0 then 0xA0 else 0x80,
      if n = 0xED then 0x9F else 0xBF⟩
  else if 0xF0 ≤ n ∧ n ≤ 0xF4 then
    some ⟨b, start, 1, n - 0xF0, 3, if n = 0xF0 then 0x90 else 0x80,
      if n = 0xF4 then 0x8F else 0xBF⟩
  else none

/-- The machine: `offset` is where the next byte stands, `open?` the character it is inside of. -/
def decodeFrom (offset : Nat) (open? : Option PartialChar) :
    List UInt8 → Except Utf8Fault (List Char)
  | [] =>
      match open? with
      | none => .ok []
      | some p => .error ⟨p.byte, p.start, p.seen, .endOfData⟩
  | b :: bs =>
      match open? with
      | none =>
          if b.toNat < 0x80 then
            (decodeFrom (offset + 1) none bs).map (Char.ofNat b.toNat :: ·)
          else
            match PartialChar.begin? offset b with
            | none => .error ⟨b, offset, 1, .startByte⟩
            | some p => decodeFrom (offset + 1) (some p) bs
      | some p =>
          if p.low ≤ b.toNat ∧ b.toNat ≤ p.high then
            let code := 64 * p.code + b.toNat % 64
            if p.need = 1 then
              (decodeFrom (offset + 1) none bs).map (Char.ofNat code :: ·)
            else
              decodeFrom (offset + 1)
                (some { p with seen := p.seen + 1, code, need := p.need - 1, low := 0x80, high := 0xBF })
                bs
          else .error ⟨p.byte, p.start, p.seen, .continuationByte⟩

/-- The characters that a sequence of bytes spells, or its first malformed part. -/
def decode (bytes : List UInt8) : Except Utf8Fault (List Char) :=
  decodeFrom 0 none bytes

/-- Every line end becomes a line feed. -/
def unifyLineEnds : List Char → List Char
  | [] => []
  | '\r' :: '\n' :: cs => '\n' :: unifyLineEnds cs
  | '\r' :: cs => '\n' :: unifyLineEnds cs
  | c :: cs => c :: unifyLineEnds cs

end LimLang.Text
