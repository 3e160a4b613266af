/-!
# A keyed stream of words

The stream that position keys are drawn from: the ChaCha function with twelve
rounds, keyed by a 64-bit seed that is first stretched to eight words.  Each
block of sixteen words depends on the key and on the block's number alone.
-/

namespace ChessEngine

namespace Stream

/-- The sixteen words of a block. -/
abbrev Block := Vector UInt32 16

/-- Rotates a word to the left. -/
def rotateLeft (x : UInt32) (n : UInt32) : UInt32 := (x <<< n) ||| (x >>> (32 - n))

/-! ## Stretching the seed -/

/-- One step of the 64-bit linear congruence behind the key. -/
def advance (state : UInt64) : UInt64 := state * 6364136223846793005 + 11634580027462260723

/-- The key word read off a state: its high bits folded together and rotated right by its top
five. -/
def output (state : UInt64) : UInt32 :=
  let folded := (((state >>> 18) ^^^ state) >>> 27).toUInt32
  let turn := (state >>> 59).toUInt32
  (folded >>> turn) ||| (folded <<< ((32 - turn) &&& 31))

/-- The eight key words of a seed. -/
def keyOfSeed (seed : UInt64) : Vector UInt32 8 :=
  Vector.ofFn fun i => output (Nat.repeat advance (i.val + 1) seed)

/-! ## Blocks -/

/-- The quarter round on four of the sixteen words. -/
def quarterRound (a b c d : Fin 16) (x : Block) : Block :=
  let xa := x[a] + x[b]
  let xd := rotateLeft (x[d] ^^^ xa) 16
  let xc := x[c] + xd
  let xb := rotateLeft (x[b] ^^^ xc) 12
  let xa := xa + xb
  let xd := rotateLeft (xd ^^^ xa) 8
  let xc := xc + xd
  let xb := rotateLeft (xb ^^^ xc) 7
  (((x.set a xa).set b xb).set c xc).set d xd

/-- A round on the columns followed by one on the diagonals. -/
def doubleRound (x : Block) : Block :=
  let x := quarterRound 0 4 8 12 x
  let x := quarterRound 1 5 9 13 x
  let x := quarterRound 2 6 10 14 x
  let x := quarterRound 3 7 11 15 x
  let x := quarterRound 0 5 10 15 x
  let x := quarterRound 1 6 11 12 x
  let x := quarterRound 2 7 8 13 x
  quarterRound 3 4 9 14 x

/-- The words a block starts from: constants, key, block number and a zero nonce. -/
def start (key : Vector UInt32 8) (number : UInt64) : Block :=
  #v[0x61707865, 0x3320646e, 0x79622d32, 0x6b206574,
    key[0], key[1], key[2], key[3], key[4], key[5], key[6], key[7],
    number.toUInt32, (number >>> 32).toUInt32, 0, 0]

/-- The block with the given number: twelve rounds, then the start words added. -/
def block (key : Vector UInt32 8) (number : UInt64) : Block :=
  let first := start key number
  Vector.zipWith (· + ·) (Nat.repeat doubleRound 6 first) first

end Stream

end ChessEngine
