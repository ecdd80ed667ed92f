import Fs5600.Contents

/-! Reading files. Whatever part of a file `fs_read` is asked for, it delivers the bytes of that part that are in
the file, so that a file read in pieces is the file. -/

namespace Fs5600

open Command

/-- The bytes of a file: the first `size` bytes of its blocks, one after the other. -/
def Inode.file (inode : Inode) (disk : Nat → Block) : List UInt8 :=
  (List.ofFn fun i => List.ofFn (disk (inode.ptrs i).toNat)).flatten.take inode.size.toInt.toNat

/-- Successive reads, each from where the one before ended. -/
def readChunks (env : Env) (fs : Fs) (path : CStr) : Nat → List Nat → Except Stop (List UInt8)
  | _, [] => .ok []
  | offset, len :: rest => do
      let bytes ← (fsRead path len offset env (.start fs)).1
      let others ← readChunks env fs path (offset + bytes.length) rest
      .ok (bytes ++ others)

/-- What `fs_read` does on a file: the bytes it delivers, their number, which it returns, and what reading piece
by piece delivers. -/
structure ReadsFile (env : Env) (fs : Fs) (path : CStr) (inode : Inode) : Prop where
  bytes : ∀ len offset, offset + len < 2 ^ 63 →
    (fsRead path len offset env (.start fs)).1 = .ok (((inode.file fs.disk).drop offset).take len)
  count : ∀ len offset, offset + len < 2 ^ 63 →
    (Op.run (.read path len offset) env fs).1 = .ok (min len (inode.size.toInt.toNat - offset) : Nat)
  chunks : ∀ sizes : List Nat, (∀ len ∈ sizes, 0 < len) → sizes.sum < 2 ^ 63 →
    readChunks env fs path 0 sizes = (fsRead path sizes.sum 0 env (.start fs)).1
  whole : ∀ sizes : List Nat, (∀ len ∈ sizes, 0 < len) → sizes.sum < 2 ^ 63 → inode.size.toInt.toNat ≤ sizes.sum →
    readChunks env fs path 0 sizes = .ok (inode.file fs.disk)

section Reads

variable {env : Env} {fs : Fs} {path : CStr} {inode : Inode} {disk : Nat → Block} {inum : Nat}

/-- The blocks of a file, one after the other, byte by byte. -/
theorem flatten_blocks (inode : Inode) (disk : Nat → Block) :
    (List.ofFn fun i => List.ofFn (disk (inode.ptrs i).toNat)).flatten =
      List.ofFn fun x : Fin (numPtrs * fsBlockSize) => inode.fileByte disk x := by
  rw [List.ofFn_mul]
  refine congrArg List.flatten (congrArg List.ofFn (funext fun i => congrArg List.ofFn (funext fun j => ?_)))
  have hj := j.isLt
  have hi := i.isLt
  have hquot : (i.val * fsBlockSize + j.val) / fsBlockSize = i.val := by
    simp only [fsBlockSize] at hj ⊢
    omega
  have hrem : (i.val * fsBlockSize + j.val) % fsBlockSize = j.val := by
    simp only [fsBlockSize] at hj ⊢
    omega
  unfold Inode.fileByte
  simp only [hquot, hrem]
  rw [Inode.block, dif_pos hi, Block.byte, dif_pos hj]

theorem Inode.file_eq_contents (hfits : inode.size.toInt.toNat ≤ numPtrs * fsBlockSize) :
    inode.file disk = inode.contents disk := by
  rw [Inode.file, flatten_blocks, Inode.contents]
  refine List.ext_getElem ?_ fun x hx hx' => ?_
  · rw [List.length_take, List.length_ofFn, List.length_map, List.length_range]
    exact Nat.min_eq_left hfits
  · rw [List.getElem_take, List.getElem_ofFn, List.getElem_map, List.getElem_range]

theorem fsRead_file (hquiet : env.Quiet) (htranslate : (translate path env (.start fs)).1 = .ok (inum, inode))
    (hreg : S_ISREG inode.mode = true) (hfits : inode.size.toInt ≤ 1019 * 4096) {len offset : Nat}
    (hrange : offset + len < 2 ^ 63) :
    (fsRead path len offset env (.start fs)).1 = .ok (((inode.file fs.disk).drop offset).take len) := by
  have hblocks : inode.numBlocks ≤ numPtrs := by
    unfold Inode.numBlocks
    simp only [fsBlockSize, numPtrs]
    omega
  rw [translate_value hquiet] at htranslate
  rw [fsRead_value hquiet, htranslate, Inode.file_eq_contents (by simp only [numPtrs, fsBlockSize]; omega)]
  exact readIn_eq hreg hblocks (hrange.trans (by decide))

theorem Inode.length_file (hfits : inode.size.toInt ≤ 1019 * 4096) :
    (inode.file disk).length = inode.size.toInt.toNat := by
  rw [Inode.file_eq_contents (by simp only [numPtrs, fsBlockSize]; omega), Inode.length_contents]

/-- Reading piece by piece delivers what one read of all pieces delivers. -/
theorem readChunks_eq (hquiet : env.Quiet) (htranslate : (translate path env (.start fs)).1 = .ok (inum, inode))
    (hreg : S_ISREG inode.mode = true) (hfits : inode.size.toInt ≤ 1019 * 4096) (sizes : List Nat) {offset : Nat}
    (hrange : offset + sizes.sum < 2 ^ 63) :
    readChunks env fs path offset sizes = .ok (((inode.file fs.disk).drop offset).take sizes.sum) := by
  induction sizes generalizing offset with
  | nil => rfl
  | cons len rest ih =>
      rw [List.sum_cons] at hrange
      set file := inode.file fs.disk with hfile
      have hfirst : (fsRead path len offset env (.start fs)).1 = .ok ((file.drop offset).take len) :=
        fsRead_file hquiet htranslate hreg hfits (by omega)
      have hlength : ((file.drop offset).take len).length ≤ len := List.length_take_le _ _
      rw [readChunks, hfirst]
      dsimp only [bind, Except.bind]
      rw [ih (by omega)]
      apply congrArg Except.ok
      rw [List.sum_cons, ← List.drop_drop, List.take_add]
      refine congrArg ((file.drop offset).take len ++ ·) ?_
      -- the next read starts where the first ended: behind its range, or at the end of the file
      rcases Nat.le_total len (file.drop offset).length with hle | hle
      · rw [List.length_take_of_le hle]
      · rw [List.take_of_length_le hle, List.drop_length, List.drop_of_length_le hle]

/-- `fs_read` delivers the part of a file it is asked for, and a file read in pieces is the file. -/
theorem readsFile (hquiet : env.Quiet) (htranslate : (translate path env (.start fs)).1 = .ok (inum, inode))
    (hreg : S_ISREG inode.mode = true) (hfits : inode.size.toInt ≤ 1019 * 4096) : ReadsFile env fs path inode := by
  have hread : ∀ {len offset}, offset + len < 2 ^ 63 →
      (fsRead path len offset env (.start fs)).1 = .ok (((inode.file fs.disk).drop offset).take len) := fun hrange =>
    fsRead_file hquiet htranslate hreg hfits hrange
  refine ⟨fun len offset => hread, fun len offset hrange => ?_, fun sizes _ hrange => ?_, fun sizes _ hrange hall => ?_⟩
  · have hrun := @bind_ok _ _ _ _ _ env (.start fs) (fsRead path len offset)
      (fun bytes => (pure (Int32.ofNat bytes.length).toInt : Call Int)) _ _ (Prod.ext (hread hrange) rfl)
    have hlength : (((inode.file fs.disk).drop offset).take len).length = min len (inode.size.toInt.toNat - offset) := by
      rw [List.length_take, List.length_drop, Inode.length_file hfits]
    have hsmall := inode.size.toInt_le
    have hmax : Int32.maxValue.toInt = 2147483647 := by decide
    refine (congrArg Prod.fst hrun).trans (congrArg Except.ok ?_)
    rw [hlength, Int32.toInt_ofNat_of_lt (by omega)]
  · rw [hread (by omega), readChunks_eq hquiet htranslate hreg hfits sizes (by omega)]
  · rw [readChunks_eq hquiet htranslate hreg hfits sizes (by omega), List.drop_zero,
      List.take_of_length_le ((Inode.length_file hfits).trans_le hall)]

end Reads

/-- The file `/f` of the sample, of 4096 bytes. -/
theorem readsFile_sampleImage :
    ReadsFile (quietEnv 0) sampleImage (joinPath [nameF]) (inodeAt sampleImage.disk 4) :=
  readsFile (quiet_quietEnv 0) translate_sampleImage (by decide +kernel) (by decide +kernel)

end Fs5600
