import Mathlib

/-! Little-endian words in a byte string. A byte string is read through a function of the offset, so
that the same lemmas serve fixed-size buffers and parts of them. -/

namespace Words

/-- The two bytes at `offset`, low byte first. -/
def le16 (bytes : Nat → UInt8) (offset : Nat) : Nat :=
  (bytes offset).toNat + 256 * (bytes (offset + 1)).toNat

/-- The four bytes at `offset`, low byte first. -/
def le32 (bytes : Nat → UInt8) (offset : Nat) : Nat :=
  le16 bytes offset + 65536 * le16 bytes (offset + 2)

/-- Byte `index` of a word, counted from the low end. -/
def byteOf (word index : Nat) : UInt8 := UInt8.ofNat (word / 256 ^ index)

theorem toNat_byteOf (word index : Nat) : (byteOf word index).toNat = word / 256 ^ index % 256 := by
  simp [byteOf]

/-- Reading two bytes that hold a word gives the word. -/
theorem le16_of_bytes {bytes : Nat → UInt8} {offset word : Nat} (hword : word < 2 ^ 16)
    (hbytes : ∀ i < 2, bytes (offset + i) = byteOf word i) : le16 bytes offset = word := by
  have h0 : bytes offset = byteOf word 0 := hbytes 0 (by omega)
  have h1 := hbytes 1 (by omega)
  simp only [le16, h0, h1, toNat_byteOf]
  omega

/-- Reading four bytes that hold a word gives the word. -/
theorem le32_of_bytes {bytes : Nat → UInt8} {offset word : Nat} (hword : word < 2 ^ 32)
    (hbytes : ∀ i < 4, bytes (offset + i) = byteOf word i) : le32 bytes offset = word := by
  have h0 : bytes offset = byteOf word 0 := hbytes 0 (by omega)
  have h1 := hbytes 1 (by omega)
  have h2 := hbytes 2 (by omega)
  have h3 : bytes (offset + 2 + 1) = byteOf word 3 := hbytes 3 (by omega)
  simp only [le32, le16, h0, h1, h2, h3, toNat_byteOf]
  omega

theorem le32_congr {bytes bytes' : Nat → UInt8} {offset : Nat}
    (h : ∀ i < 4, bytes (offset + i) = bytes' (offset + i)) :
    le32 bytes offset = le32 bytes' offset := by
  have h0 : bytes offset = bytes' offset := h 0 (by omega)
  have h1 := h 1 (by omega)
  have h2 := h 2 (by omega)
  have h3 : bytes (offset + 2 + 1) = bytes' (offset + 2 + 1) := h 3 (by omega)
  simp only [le32, le16, h0, h1, h2, h3]

end Words
