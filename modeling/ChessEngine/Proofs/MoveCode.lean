import ChessEngine.Move.Code
import Mathlib.Algebra.Group.Nat.Defs

/-!
# Packed moves

Packed moves are compared as numbers, so no two moves may share one, and no part of a move may
spill into the next.  As a number a packed move is the sum of its parts, each with the weight of
its first bit (`Move.toNat_pack`), because every part stays below the weight of the next.  A shift
and a mask divide by such a weight and keep the remainder (`Move.toNat_codeField`), which gives
each part back (`Move.Reads.pack`).
-/

namespace ChessEngine

/-! ## Words -/

/-- What is put above all bits of a word is added with the weight of its place. -/
theorem toNat_or_shiftLeft {low high : UInt32} {k : Nat} (inside : k < 32)
    (below : low.toNat < 2 ^ k) (fits : high.toNat * 2 ^ k < 2 ^ 32) :
    (low ||| high <<< UInt32.ofNat k).toNat = low.toNat + high.toNat * 2 ^ k := by
  have place : (UInt32.ofNat k).toNat % 32 = k := by
    rw [UInt32.toNat_ofNat_of_lt' (Nat.lt_trans inside (by decide)), Nat.mod_eq_of_lt inside]
  have shifted : (high <<< UInt32.ofNat k).toNat = high.toNat * 2 ^ k := by
    rw [UInt32.toNat_shiftLeft, place, Nat.shiftLeft_eq, Nat.mod_eq_of_lt fits]
  calc (low ||| high <<< UInt32.ofNat k).toNat
      = 2 ^ k * high.toNat ||| low.toNat := by
        rw [UInt32.toNat_or, shifted, Nat.or_comm, Nat.mul_comm]
    _ = 2 ^ k * high.toNat + low.toNat := (Nat.two_pow_add_eq_or_of_lt below _).symm
    _ = low.toNat + high.toNat * 2 ^ k := by rw [Nat.add_comm, Nat.mul_comm]

/-- Five words of 6, 6, 4, 4 and 4 bits side by side. -/
theorem toNat_joined {a b c d e : UInt32} (first : a.toNat < 64) (second : b.toNat < 64)
    (third : c.toNat < 16) (fourth : d.toNat < 16) (last : e.toNat < 16) :
    (a ||| b <<< 6 ||| c <<< 12 ||| d <<< 16 ||| e <<< 20).toNat =
      a.toNat + b.toNat * 2 ^ 6 + c.toNat * 2 ^ 12 + d.toNat * 2 ^ 16 + e.toNat * 2 ^ 20 := by
  -- from the lowest up, each above all that has been put together so far
  have two : (a ||| b <<< 6).toNat = a.toNat + b.toNat * 2 ^ 6 :=
    toNat_or_shiftLeft (k := 6) (by decide) (by omega) (by omega)
  have three : (a ||| b <<< 6 ||| c <<< 12).toNat = (a ||| b <<< 6).toNat + c.toNat * 2 ^ 12 :=
    toNat_or_shiftLeft (k := 12) (by decide) (by omega) (by omega)
  have four : (a ||| b <<< 6 ||| c <<< 12 ||| d <<< 16).toNat =
      (a ||| b <<< 6 ||| c <<< 12).toNat + d.toNat * 2 ^ 16 :=
    toNat_or_shiftLeft (k := 16) (by decide) (by omega) (by omega)
  have five : (a ||| b <<< 6 ||| c <<< 12 ||| d <<< 16 ||| e <<< 20).toNat =
      (a ||| b <<< 6 ||| c <<< 12 ||| d <<< 16).toNat + e.toNat * 2 ^ 20 :=
    toNat_or_shiftLeft (k := 20) (by decide) (by omega) (by omega)
  rw [five, four, three, two]

/-! ## Flags as numbers -/

namespace MoveFlags

/-- Only the low four bits of a number are flags. -/
theorem bits_ofBits (n : Nat) : (ofBits n).bits = n % 16 := by
  simp only [bits, ofBits, Nat.toNat_testBit]
  omega

theorem ofBits_mod (n : Nat) : ofBits (n % 16) = ofBits n := by
  rw [← bits_ofBits, ofBits_bits]

end MoveFlags

namespace Move

/-! ## Packing -/

theorem toNat_pieceCode_some (piece : Piece) : (pieceCode (some piece)).toNat = piece.index :=
  UInt32.toNat_ofNat_of_lt' (Nat.lt_trans piece.index_lt (by decide))

theorem pieceCode_lt (held : Option Piece) : (pieceCode held).toNat < 16 := by
  cases held with
  | none => decide
  | some piece =>
    rw [toNat_pieceCode_some]
    exact Nat.lt_trans piece.index_lt (by decide)

/-- The code of a piece is its number, and that of no piece is no number of a piece. -/
theorem ofIndex?_pieceCode (held : Option Piece) :
    Piece.ofIndex? (pieceCode held).toNat = held := by
  cases held with
  | none => rfl
  | some piece => rw [toNat_pieceCode_some, Piece.ofIndex?_index]

theorem pieceCode_ne_iff (held : Option Piece) : pieceCode held ≠ 15 ↔ held.isSome = true := by
  cases held with
  | none => exact iff_of_false (fun present => present rfl) nofun
  | some piece =>
    refine iff_of_true (fun absent => ?_) rfl
    have number : piece.index = 15 := by
      rw [← toNat_pieceCode_some, absent]
      rfl
    have bound := piece.index_lt
    omega

/-- A packed move is the sum of its parts with the weights of their first bits. -/
theorem toNat_pack (origin target : Square) (captured promoted : Option Piece) (flags : UInt32) :
    (pack origin target captured promoted flags).toNat =
      origin.val + target.val * 2 ^ 6 + (pieceCode captured).toNat * 2 ^ 12 +
        (pieceCode promoted).toNat * 2 ^ 16 + flags.toNat % 16 * 2 ^ 20 := by
  have originNumber : (UInt32.ofNat origin.val).toNat = origin.val :=
    UInt32.toNat_ofNat_of_lt' (Nat.lt_trans origin.isLt (by decide))
  have targetNumber : (UInt32.ofNat target.val).toNat = target.val :=
    UInt32.toNat_ofNat_of_lt' (Nat.lt_trans target.isLt (by decide))
  have flagsNumber : (flags &&& 0xF).toNat = flags.toNat % 16 :=
    (UInt32.toNat_and ..).trans (Nat.and_two_pow_sub_one_eq_mod flags.toNat 4)
  have originBound := origin.isLt
  have targetBound := target.isLt
  have flagsBound : flags.toNat % 16 < 16 := Nat.mod_lt _ (by decide)
  rw [pack, toNat_joined (by omega) (by omega) (pieceCode_lt captured) (pieceCode_lt promoted)
    (by omega), originNumber, targetNumber, flagsNumber]

/-- All parts at their greatest fill 24 bits. -/
example : pack 63 63 none none 0xFFFFFFFF = 0xFFFFFF := by decide

theorem pack_eq_code (origin target : Square) (captured promoted : Option Piece) (flags : UInt32) :
    pack origin target captured promoted flags =
      (ofParts origin target captured promoted flags).code := by
  have number : (UInt32.ofNat (flags.toNat % 16)).toNat = flags.toNat % 16 :=
    UInt32.toNat_ofNat_of_lt' (Nat.lt_trans (Nat.mod_lt _ (by decide)) (by decide))
  apply UInt32.toNat_inj.1
  rw [ofParts, code, toNat_pack, toNat_pack, MoveFlags.bits_ofBits, number, Nat.mod_mod]

/-! ## Reading -/

theorem toNat_codeField (word : UInt32) {start mask : UInt32} {k w : Nat}
    (place : start.toNat = k) (inside : k < 32) (keeps : mask.toNat = 2 ^ w - 1) :
    (codeField word start mask).toNat = word.toNat / 2 ^ k % 2 ^ w := by
  rw [codeField, UInt32.toNat_and, UInt32.toNat_shiftRight, place, Nat.mod_eq_of_lt inside, keeps,
    Nat.and_two_pow_sub_one_eq_mod, Nat.shiftRight_eq_div_pow]

/-- A word reads as the given parts, and as a promotion if it names a promotion piece. -/
structure Reads (word : UInt32) (origin target : Square) (captured promoted : Option Piece)
    (flags : UInt32) : Prop where
  origin : (ofCode word).origin = origin
  target : (ofCode word).target = target
  captured : (ofCode word).captured = captured
  promoted : (ofCode word).promoted = promoted
  flags : codeField word 20 0xF = flags % 16
  promotes : codePromotes word = true ↔ (ofCode word).promoted.isSome = true

/-- A packed move reads back as what was packed. -/
theorem Reads.pack (origin target : Square) (captured promoted : Option Piece) (flags : UInt32) :
    Reads (pack origin target captured promoted flags) origin target captured promoted flags := by
  have sum := toNat_pack origin target captured promoted flags
  have originBound := origin.isLt
  have targetBound := target.isLt
  have capturedBound := pieceCode_lt captured
  have promotedBound := pieceCode_lt promoted
  generalize Move.pack origin target captured promoted flags = word at sum ⊢
  -- a shift drops the parts below a field, and a mask those above it
  have originField : (codeField word 0 0x3F).toNat = origin.val := by
    rw [toNat_codeField word (k := 0) (w := 6) rfl (by decide) rfl]
    omega
  have targetField : (codeField word 6 0x3F).toNat = target.val := by
    rw [toNat_codeField word (k := 6) (w := 6) rfl (by decide) rfl]
    omega
  have capturedField : codeField word 12 0xF = pieceCode captured := by
    rw [← UInt32.toNat_inj, toNat_codeField word (k := 12) (w := 4) rfl (by decide) rfl]
    omega
  have promotedField : codeField word 16 0xF = pieceCode promoted := by
    rw [← UInt32.toNat_inj, toNat_codeField word (k := 16) (w := 4) rfl (by decide) rfl]
    omega
  have flagsField : codeField word 20 0xF = flags % 16 := by
    rw [← UInt32.toNat_inj, toNat_codeField word (k := 20) (w := 4) rfl (by decide) rfl,
      UInt32.toNat_mod]
    show _ = flags.toNat % 16
    omega
  have promotedPiece : (ofCode word).promoted = promoted := by
    rw [ofCode, promotedField, ofIndex?_pieceCode]
  refine ⟨Fin.ext originField, Fin.ext targetField, ?_, promotedPiece, flagsField, ?_⟩
  · rw [ofCode, capturedField, ofIndex?_pieceCode]
  · rw [promotedPiece, codePromotes, promotedField, bne_iff_ne]
    exact pieceCode_ne_iff promoted

theorem Reads.ofCode_eq {word flags : UInt32} {origin target : Square}
    {captured promoted : Option Piece} (reads : Reads word origin target captured promoted flags) :
    ofCode word = ofParts origin target captured promoted flags := by
  have sameFlags : (ofCode word).flags = .ofBits flags.toNat := by
    rw [ofCode, reads.flags]
    exact MoveFlags.ofBits_mod flags.toNat
  rw [ofParts, ← reads.origin, ← reads.target, ← reads.captured, ← reads.promoted, ← sameFlags]

/-! ## Comparing -/

section

variable {origin target origin' target' : Square}
  {captured promoted captured' promoted' : Option Piece} {flags flags' : UInt32}

/-- Packed moves differ if one of their parts does. -/
theorem pack_eq_pack_iff : pack origin target captured promoted flags =
      pack origin' target' captured' promoted' flags' ↔
    origin = origin' ∧ target = target' ∧ captured = captured' ∧ promoted = promoted' ∧
      flags % 16 = flags' % 16 := by
  have left := Reads.pack origin target captured promoted flags
  have right := Reads.pack origin' target' captured' promoted' flags'
  constructor
  · intro same
    rw [← same] at right
    exact ⟨left.origin.symm.trans right.origin, left.target.symm.trans right.target,
      left.captured.symm.trans right.captured, left.promoted.symm.trans right.promoted,
      left.flags.symm.trans right.flags⟩
  · intro ⟨sameOrigin, sameTarget, sameCaptured, samePromoted, sameFlags⟩
    have numbers : flags.toNat % 16 = flags'.toNat % 16 := congrArg UInt32.toNat sameFlags
    apply UInt32.toNat_inj.1
    rw [toNat_pack, toNat_pack, sameOrigin, sameTarget, sameCaptured, samePromoted, numbers]

/-- To compare packed moves is to compare moves. -/
theorem pack_eq_pack_iff_ofParts : pack origin target captured promoted flags =
      pack origin' target' captured' promoted' flags' ↔
    ofParts origin target captured promoted flags =
      ofParts origin' target' captured' promoted' flags' := by
  constructor
  · intro same
    rw [← (Reads.pack ..).ofCode_eq, same, (Reads.pack ..).ofCode_eq]
  · intro same
    rw [pack_eq_code, same, pack_eq_code]

end

/-- A packed move is the code of the move with these parts.  It reads back as them, with the flags
below 16, and it promotes exactly if it has a promotion piece.  So two packed moves are one word,
and the moves that they stand for are equal, exactly if all five parts are the same. -/
theorem parts_of_pack (origin target : Square) (captured promoted : Option Piece)
    (flags : UInt32) :
    pack origin target captured promoted flags =
        (ofParts origin target captured promoted flags).code ∧
      Reads (pack origin target captured promoted flags) origin target captured promoted flags ∧
      ∀ (origin' target' : Square) (captured' promoted' : Option Piece) (flags' : UInt32),
        (pack origin target captured promoted flags =
            pack origin' target' captured' promoted' flags' ↔
          ofParts origin target captured promoted flags =
            ofParts origin' target' captured' promoted' flags') ∧
        (pack origin target captured promoted flags =
            pack origin' target' captured' promoted' flags' ↔
          origin = origin' ∧ target = target' ∧ captured = captured' ∧ promoted = promoted' ∧
            flags % 16 = flags' % 16) :=
  ⟨pack_eq_code .., .pack .., fun _ _ _ _ _ => ⟨pack_eq_pack_iff_ofParts, pack_eq_pack_iff⟩⟩

end Move

end ChessEngine
