/-!
# Texts

`pieces` cuts a text at every separating character and keeps empty pieces;
`words` cuts at blanks and drops them.  A blank is any character with the
Unicode property `White_Space`.  `hexWord` writes a 64-bit word as `0x` and
sixteen lower-case digits.
-/

namespace ChessEngine

namespace Text

/-! ## Words of a text -/

/-- Whether a character has the Unicode property `White_Space`. -/
def isBlank (c : Char) : Bool :=
  let n := c.toNat
  (0x09 ≤ n && n ≤ 0x0D) || n == 0x20 || n == 0x85 || n == 0xA0 || n == 0x1680 ||
    (0x2000 ≤ n && n ≤ 0x200A) || n == 0x2028 || n == 0x2029 || n == 0x202F || n == 0x205F ||
    n == 0x3000

/-- Cuts a text at the characters that satisfy `cut`, which are dropped. -/
def pieces (cut : Char → Bool) : List Char → List (List Char)
  | [] => [[]]
  | c :: rest =>
    if cut c then [] :: pieces cut rest
    else match pieces cut rest with
      | [] => [[c]]
      | piece :: more => (c :: piece) :: more

/-- The maximal runs of characters that are no blanks. -/
def words (text : String) : List String :=
  ((pieces isBlank text.toList).filter (!·.isEmpty)).map String.ofList

/-! ## Hexadecimal digits -/

/-- The lower-case digit of a number below 16. -/
def hexDigit (n : Nat) : Char :=
  if n < 10 then Char.ofNat ('0'.toNat + n) else Char.ofNat ('a'.toNat + (n - 10))

/-- The lowest `width` hexadecimal digits of a number, the highest first. -/
def hexDigits (n : Nat) : (width : Nat) → List Char → List Char
  | 0, digits => digits
  | width + 1, digits => hexDigits (n / 16) width (hexDigit (n % 16) :: digits)

/-- A word as `0x` and sixteen digits. -/
def hexWord (x : UInt64) : String :=
  "0x" ++ String.ofList (hexDigits x.toNat 16 [])

end Text

end ChessEngine
