import Fs5600.Format

/-! The block bitmap: one block of 32768 bits, bit `i` being bit `i % 8` of byte `i / 8`. -/

namespace Fs5600

abbrev bitmapBits : Nat := 32768

/-- `1 << (i%8)` -/
def bitMask (i : Nat) : UInt8 := 1 <<< UInt8.ofNat (i % 8)

def bitTest (map : Block) (i : Nat) : Bool := map.byte (i / 8) &&& bitMask i != 0

def bitSet (map : Block) (i : Nat) : Block :=
  Block.ofBytes fun offset => if offset = i / 8 then map.byte offset ||| bitMask i else map.byte offset

def bitClear (map : Block) (i : Nat) : Block :=
  Block.ofBytes fun offset => if offset = i / 8 then map.byte offset &&& ~~~bitMask i else map.byte offset

/-- The mask of a bit has that bit and no other. -/
private theorem getLsbD_bitMask (i k : Nat) (hk : k < 8) :
    (bitMask i).toBitVec.getLsbD k = decide (k = i % 8) := by
  have hi : i % 8 < 8 := Nat.mod_lt _ (by omega)
  generalize hr : i % 8 = r at hi
  simp only [bitMask, hr]
  interval_cases r <;> interval_cases k <;> decide

theorem bitTest_eq_getLsbD (map : Block) (i : Nat) :
    bitTest map i = (map.byte (i / 8)).toBitVec.getLsbD (i % 8) := by
  have hi : i % 8 < 8 := Nat.mod_lt _ (by omega)
  rw [bitTest, Bool.eq_iff_iff, bne_iff_ne, ne_eq, ← UInt8.toBitVec_inj, UInt8.toBitVec_and,
    UInt8.toBitVec_zero]
  constructor
  · intro hne
    by_contra hbit
    refine hne (BitVec.eq_of_getLsbD_eq fun k hk => ?_)
    rw [BitVec.getLsbD_and, getLsbD_bitMask i k hk, BitVec.getLsbD_zero]
    by_cases hki : k = i % 8
    · rw [hki, Bool.eq_false_iff.mpr hbit, Bool.false_and]
    · rw [decide_eq_false hki, Bool.and_false]
  · intro hbit hzero
    have := congrArg (fun v : BitVec 8 => v.getLsbD (i % 8)) hzero
    simp only [BitVec.getLsbD_and, getLsbD_bitMask i (i % 8) hi, hbit, decide_true, Bool.and_true,
      BitVec.getLsbD_zero, Bool.true_eq_false] at this

theorem bitTest_lt {map : Block} {i : Nat} (h : bitTest map i = true) : i < bitmapBits := by
  by_contra hge
  simp only [bitmapBits] at hge
  have hbyte : map.byte (i / 8) = 0 := by
    rw [Block.byte, dif_neg]
    simp only [fsBlockSize]
    omega
  simp [bitTest, hbyte] at h

/-- Setting a bit marks it and leaves every other bit. -/
theorem bitTest_bitSet (map : Block) {i : Nat} (hi : i < bitmapBits) (j : Nat) :
    bitTest (bitSet map i) j = (decide (i = j) || bitTest map j) := by
  simp only [bitmapBits] at hi
  by_cases hj : j / 8 < 4096
  · rw [bitTest_eq_getLsbD, bitTest_eq_getLsbD, bitSet, Block.byte_ofBytes _ hj]
    by_cases hbyte : j / 8 = i / 8
    · rw [if_pos hbyte, UInt8.toBitVec_or, BitVec.getLsbD_or,
        getLsbD_bitMask _ _ (Nat.mod_lt _ (by omega)), Bool.or_comm]
      congr 1
      exact decide_eq_decide.mpr (by omega)
    · rw [if_neg hbyte, decide_eq_false (by omega), Bool.false_or]
  · have hset : bitTest (bitSet map i) j = false := by
      rw [← Bool.not_eq_true]
      intro h
      have := bitTest_lt h
      simp only [bitmapBits] at this
      omega
    have hold : bitTest map j = false := by
      rw [← Bool.not_eq_true]
      intro h
      have := bitTest_lt h
      simp only [bitmapBits] at this
      omega
    rw [hset, hold, decide_eq_false (by omega), Bool.false_or]

/-- Clearing a bit unmarks it and leaves every other bit. -/
theorem bitTest_bitClear (map : Block) (i j : Nat) :
    bitTest (bitClear map i) j = (!decide (i = j) && bitTest map j) := by
  by_cases hj : j / 8 < 4096
  · rw [bitTest_eq_getLsbD, bitTest_eq_getLsbD, bitClear, Block.byte_ofBytes _ hj]
    by_cases hbyte : j / 8 = i / 8
    · have hmod : j % 8 < 8 := Nat.mod_lt _ (by omega)
      rw [if_pos hbyte, UInt8.toBitVec_and, UInt8.toBitVec_not, BitVec.getLsbD_and, BitVec.getLsbD_not,
        getLsbD_bitMask _ _ hmod, decide_eq_true hmod, Bool.true_and, Bool.and_comm]
      congr 2
      exact decide_eq_decide.mpr (by omega)
    · rw [if_neg hbyte, decide_eq_false (by omega), Bool.not_false, Bool.true_and]
  · have hclear : bitTest (bitClear map i) j = false := by
      rw [← Bool.not_eq_true]
      intro h
      have := bitTest_lt h
      simp only [bitmapBits] at this
      omega
    have hold : bitTest map j = false := by
      rw [← Bool.not_eq_true]
      intro h
      have := bitTest_lt h
      simp only [bitmapBits] at this
      omega
    rw [hclear, hold, Bool.and_false]

end Fs5600
