import Fs5600.Crash
import Fs5600.TreeRuns

/-! An `fs_write` that claims no blocks, cut off after any of its block writes. The data is written before the inode, so
the file keeps its size, and a first part of the bytes stands in it. -/

namespace Fs5600

open Ownership Command

/-! ### The copy loop -/

/-- What a part of the writes of `writeLoop` has done: some of the first bytes are in the blocks. -/
def Tears (fs : Fs) (inode : Inode) (buf : List UInt8) (offset bytesWritten : Nat) (part : List Event) : Prop :=
  ∃ count, bytesWritten ≤ count ∧ count ≤ buf.length ∧ ∀ q, Touches (offset + bytesWritten) (offset + buf.length) q →
    ∀ x < fsBlockSize, ((fs.replay part).disk (inode.block q)).byte x =
      patched (fs.disk (inode.block q)) q (buf.take count) offset bytesWritten x

section Copy

variable {env : Env} {fs : Fs} {inode : Inode} {buf : List UInt8} {offset bytesWritten q x : Nat}

/-- Nothing is written yet. -/
theorem tears_nil (hle : bytesWritten ≤ buf.length) : Tears fs inode buf offset bytesWritten [] := by
  refine ⟨bytesWritten, Nat.le_refl _, hle, fun q _ x _ => ?_⟩
  rw [patched, if_neg (by rw [List.length_take]; omega)]
  rfl

/-- What is written of the first block does not depend on what is written of the others. -/
theorem patched_first {count : Nat} (hlt : bytesWritten < buf.length)
    (hcount : bytesWritten + min (buf.length - bytesWritten) (fsBlockSize - (offset + bytesWritten) % fsBlockSize) ≤ count)
    (hle : count ≤ buf.length) (hx : x < fsBlockSize) (block : Block) :
    patched block ((offset + bytesWritten) / fsBlockSize) (buf.take count) offset bytesWritten x =
      patched block ((offset + bytesWritten) / fsBlockSize) buf offset bytesWritten x := by
  simp only [fsBlockSize] at hcount hx
  have hdiv := Nat.div_add_mod (offset + bytesWritten) 4096
  have hmod : (offset + bytesWritten) % 4096 < 4096 := Nat.mod_lt _ (by omega)
  simp only [patched, fsBlockSize, List.length_take]
  by_cases hin : offset + bytesWritten ≤ 4096 * ((offset + bytesWritten) / 4096) + x ∧
      4096 * ((offset + bytesWritten) / 4096) + x < offset + buf.length
  · rw [if_pos (by omega), if_pos hin, List.getD_eq_getElem?_getD, List.getElem?_take, if_pos (by omega),
      List.getD_eq_getElem?_getD]
  · rw [if_neg (by omega), if_neg hin]

/-- The other blocks are written later. -/
theorem patched_later {count : Nat} (hlt : bytesWritten < buf.length)
    (hq : Touches (offset + bytesWritten) (offset + buf.length) q) (hne : q ≠ (offset + bytesWritten) / fsBlockSize)
    (hx : x < fsBlockSize) (block : Block) :
    patched block q (buf.take count) offset (bytesWritten +
      min (buf.length - bytesWritten) (fsBlockSize - (offset + bytesWritten) % fsBlockSize)) x =
      patched block q (buf.take count) offset bytesWritten x := by
  obtain ⟨y, hy, hlast, hyq⟩ := (touches_next hlt).mpr ⟨hq, hne⟩
  simp only [fsBlockSize] at hy hyq hne hx
  have hdiv := Nat.div_add_mod (offset + bytesWritten) 4096
  have hmod : (offset + bytesWritten) % 4096 < 4096 := Nat.mod_lt _ (by omega)
  simp only [patched, fsBlockSize]
  refine if_congr (and_congr_left fun _ => ?_) rfl rfl
  omega

/-- One turn of the loop, and a part of the next ones. -/
theorem tears_cons {base : Block} {part : List Event} (hlt : bytesWritten < buf.length)
    (hbase : 0 < (offset + bytesWritten) % fsBlockSize ∨
      min (buf.length - bytesWritten) (fsBlockSize - (offset + bytesWritten) % fsBlockSize) < fsBlockSize →
        base = fs.disk (inode.block ((offset + bytesWritten) / fsBlockSize)))
    (hinj : ∀ q, Touches (offset + bytesWritten) (offset + buf.length) q →
      inode.block q = inode.block ((offset + bytesWritten) / fsBlockSize) → q = (offset + bytesWritten) / fsBlockSize)
    {write : Event} (hwrite : write = .blockWrite (inode.block ((offset + bytesWritten) / fsBlockSize))
      (base.overwrite ((offset + bytesWritten) % fsBlockSize) ((buf.drop bytesWritten).take
        (min (buf.length - bytesWritten) (fsBlockSize - (offset + bytesWritten) % fsBlockSize)))))
    (hwrites : WritesTo (fun b => ∃ q, Touches (offset + (bytesWritten +
      min (buf.length - bytesWritten) (fsBlockSize - (offset + bytesWritten) % fsBlockSize))) (offset + buf.length) q ∧
        inode.block q = b) part)
    (htears : Tears (fs.apply write) inode buf offset (bytesWritten +
      min (buf.length - bytesWritten) (fsBlockSize - (offset + bytesWritten) % fsBlockSize)) part) :
    Tears fs inode buf offset bytesWritten (write :: part) := by
  set q₀ := (offset + bytesWritten) / fsBlockSize with hq₀
  obtain ⟨count, hlower, hupper, hbytes⟩ := htears
  refine ⟨count, by omega, hupper, fun q hq x hx => ?_⟩
  rw [Fs.replay_cons]
  by_cases hqq : q = q₀
  · subst hqq
    have hkeep : ¬∃ q, Touches (offset + (bytesWritten +
        min (buf.length - bytesWritten) (fsBlockSize - (offset + bytesWritten) % fsBlockSize))) (offset + buf.length) q ∧
          inode.block q = inode.block q₀ := by
      rintro ⟨q, hq, hb⟩
      obtain ⟨htouch, hne⟩ := (touches_next hlt).mp hq
      exact hne (hinj q htouch hb)
    rw [hwrites.disk hkeep, hq₀, patched_first hlt hlower hupper hx, hwrite]
    dsimp only [Fs.apply]
    rw [← hq₀, Function.update_self]
    exact byte_overwrite_eq_patched _ hlt hx base hbase
  · have hsame : (fs.apply write).disk (inode.block q) = fs.disk (inode.block q) := by
      rw [hwrite]
      exact Function.update_of_ne (fun heq => hqq (hinj q hq heq)) _ _
    rw [hbytes q ((touches_next hlt).mpr ⟨hq, hqq⟩) x hx, hsame]
    exact patched_later hlt hq hqq hx _

/-- The loop writes blocks that the bytes touch, and where it is cut off some of the first bytes are written. -/
theorem does_writeLoop_tears (fs : Fs) {turns : Nat} (hturns : buf.length ≤ bytesWritten + turns)
    (hle : bytesWritten ≤ buf.length)
    (hblock : ∀ q, Touches (offset + bytesWritten) (offset + buf.length) q → q < numPtrs ∧ Writable (inode.block q))
    (hinj : ∀ q q', Touches (offset + bytesWritten) (offset + buf.length) q →
      Touches (offset + bytesWritten) (offset + buf.length) q' → inode.block q = inode.block q' → q = q') :
    ∃ plan, Does env fs (writeLoop inode buf offset turns bytesWritten) (.ok buf.length) plan ∧
      WritesTo (fun b => ∃ q, Touches (offset + bytesWritten) (offset + buf.length) q ∧ inode.block q = b) plan ∧
      ∀ part, part <+: plan → Tears fs inode buf offset bytesWritten part := by
  have hnothing : bytesWritten = buf.length → ∀ part, part <+: [] → Tears fs inode buf offset bytesWritten part :=
    fun _ part hpart => List.prefix_nil.mp hpart ▸ tears_nil hle
  induction turns generalizing fs bytesWritten with
  | zero =>
      obtain rfl : bytesWritten = buf.length := by omega
      exact ⟨[], Follows.pure _, by simp [WritesTo], hnothing rfl⟩
  | succ turns ih =>
      unfold writeLoop
      split
      · rename_i hlt
        have hmod : (offset + bytesWritten) % fsBlockSize < fsBlockSize := Nat.mod_lt _ (by decide)
        have htouch₀ : Touches (offset + bytesWritten) (offset + buf.length) ((offset + bytesWritten) / fsBlockSize) :=
          ⟨offset + bytesWritten, Nat.le_refl _, by omega, rfl⟩
        set blockLen := min (buf.length - bytesWritten) (fsBlockSize - (offset + bytesWritten) % fsBlockSize) with hlen
        have hlen₀ : 0 < blockLen ∧ bytesWritten + blockLen ≤ buf.length := by omega
        have hnext : ∀ {q}, Touches (offset + (bytesWritten + blockLen)) (offset + buf.length) q →
            Touches (offset + bytesWritten) (offset + buf.length) q := fun hq => ((touches_next hlt).mp hq).1
        obtain ⟨hptr, hwritable⟩ := hblock _ htouch₀
        -- the block as it is overwritten, and the loop from the next turn on
        have hturn : ∀ base : Block, (0 < (offset + bytesWritten) % fsBlockSize ∨ blockLen < fsBlockSize →
              base = fs.disk (inode.block ((offset + bytesWritten) / fsBlockSize))) →
            ∃ plan, Does env fs (do
                blockWrite (inode.block ((offset + bytesWritten) / fsBlockSize))
                  (base.overwrite ((offset + bytesWritten) % fsBlockSize) ((buf.drop bytesWritten).take blockLen))
                writeLoop inode buf offset turns (bytesWritten + blockLen)) (.ok buf.length) plan ∧
              WritesTo (fun b => ∃ q, Touches (offset + bytesWritten) (offset + buf.length) q ∧ inode.block q = b) plan ∧
              ∀ part, part <+: plan → Tears fs inode buf offset bytesWritten part := by
          intro base hbase
          set write := Event.blockWrite (inode.block ((offset + bytesWritten) / fsBlockSize))
            (base.overwrite ((offset + bytesWritten) % fsBlockSize) ((buf.drop bytesWritten).take blockLen)) with hwrite
          obtain ⟨plan, hdoes, hwrites, htears⟩ := ih (fs.apply write)
            (show buf.length ≤ bytesWritten + blockLen + turns by omega)
            hlen₀.2 (fun q hq => hblock q (hnext hq)) (fun q q' hq hq' => hinj q q' (hnext hq) (hnext hq'))
            fun _ part hpart => List.prefix_nil.mp hpart ▸ tears_nil hlen₀.2
          refine ⟨write :: plan, does_bind (does_blockWrite hwritable _) hdoes, .cons ⟨_, htouch₀, rfl⟩
            (hwrites.mono fun b hb => hb.imp fun q hq => hq.imp_left hnext), fun part hpart => ?_⟩
          cases part with
          | nil => exact tears_nil hle
          | cons event part =>
              obtain ⟨rfl, hrest⟩ := List.cons_prefix_cons.mp hpart
              exact tears_cons hlt hbase (fun q hq => hinj q _ hq htouch₀) hwrite
                (fun e he => hwrites e (hrest.subset he)) (htears part hrest)
        rw [inode.ptr_eq_ok hptr]
        by_cases hread : 0 < (offset + bytesWritten) % fsBlockSize ∨ blockLen < fsBlockSize
        · obtain ⟨plan, hdoes, hpost⟩ := hturn (fs.disk (inode.block ((offset + bytesWritten) / fsBlockSize))) fun _ => rfl
          refine ⟨plan, does_read_bind (Follows.lift _) ?_, hpost⟩
          dsimp only
          rw [if_pos hread]
          exact does_read_bind (reads_blockRead _) hdoes
        · obtain ⟨plan, hdoes, hpost⟩ := hturn Block.zero fun h => absurd h hread
          refine ⟨plan, does_read_bind (Follows.lift _) ?_, hpost⟩
          dsimp only
          rw [if_neg hread]
          exact does_read_bind (Follows.pure _) hdoes
      · obtain rfl : bytesWritten = buf.length := by omega
        exact ⟨[], Follows.pure _, by simp [WritesTo], hnothing rfl⟩

end Copy

/-! ### The file -/

/-- The bytes of a file, with some of them written and its length kept. -/
def Node.tear (buf : List UInt8) (offset : Nat) (node : Node) : Node :=
  { node with bytes := (splice buf offset node.bytes).take node.bytes.length }

/-- A first part of the bytes is written to a file, and nothing else is changed. -/
structure TornAt (fs fs' : Fs) (inum : Nat) (buf : List UInt8) (offset : Nat) : Prop
    extends Resized fs fs' inum (inodeAt fs.disk inum) where
  keeps : KeepsBut (IsData fs.disk) fs.disk fs'.disk
  marks : fs'.disk 1 = fs.disk 1
  node : ∃ count ≤ buf.length, nodeAt fs'.disk inum = (nodeAt fs.disk inum).tear (buf.take count) offset

section File

variable {fs : Fs} {inode : Inode} {disk disk' : Nat → Block} {buf s : List UInt8} {offset inum q q' x : Nat}
  {part : List Event}

theorem getElem?_splice (hoffset : offset ≤ s.length) :
    (splice buf offset s)[x]? = if offset ≤ x ∧ x < offset + buf.length then buf[x - offset]? else s[x]? := by
  have htake : (s.take offset).length = offset := by rw [List.length_take, Nat.min_eq_left hoffset]
  rw [splice, List.append_assoc]
  by_cases hbefore : x < offset
  · rw [List.getElem?_append_left (by rwa [htake]), List.getElem?_take_of_lt hbefore, if_neg (by omega)]
  · rw [List.getElem?_append_right (by rw [htake]; omega), htake]
    by_cases hinside : x < offset + buf.length
    · rw [List.getElem?_append_left (by omega), if_pos ⟨by omega, hinside⟩]
    · rw [List.getElem?_append_right (by omega), List.getElem?_drop, if_neg (by omega),
        show offset + buf.length + (x - offset - buf.length) = x by omega]

theorem contents_tear (hoffset : offset ≤ inode.size.toInt.toNat) (hbyte : ∀ x < inode.size.toInt.toNat,
      inode.fileByte disk' x = if offset ≤ x ∧ x < offset + buf.length then buf.getD (x - offset) 0
        else inode.fileByte disk x) :
    inode.contents disk' = (splice buf offset (inode.contents disk)).take (inode.contents disk).length := by
  refine List.ext_getElem? fun x => ?_
  rw [List.getElem?_take, Inode.length_contents]
  by_cases hx : x < inode.size.toInt.toNat
  · have hget : ∀ disk, (inode.contents disk)[x]? = some (inode.fileByte disk x) := fun disk => by
      rw [Inode.contents, List.getElem?_map, List.getElem?_range hx, Option.map_some]
    rw [if_pos hx, getElem?_splice (by rwa [Inode.length_contents]), hget, hget, hbyte x hx]
    split_ifs with hin
    · rw [List.getD_eq_getElem _ _ (by omega), List.getElem?_eq_getElem (by omega)]
    · rfl
  · rw [if_neg hx, List.getElem?_eq_none (by rw [Inode.length_contents]; omega)]

theorem cell_block (hfits : (inodeAt disk inum).numBlocks ≤ numPtrs) (hq : q < (inodeAt disk inum).numBlocks) :
    (tree disk).cell inum ⟨q, hq.trans_le hfits⟩ = some ((inodeAt disk inum).block q) :=
  tree_cell_eq_some.mpr ⟨hq, by rw [Inode.block, dif_pos (hq.trans_le hfits)]⟩

/-- The blocks of a file are different blocks. -/
theorem block_inj (hex : (tree disk).Exclusive) (hreach : (tree disk).Reach inum)
    (hfits : (inodeAt disk inum).numBlocks ≤ numPtrs) (hq : q < (inodeAt disk inum).numBlocks)
    (hq' : q' < (inodeAt disk inum).numBlocks) (heq : (inodeAt disk inum).block q = (inodeAt disk inum).block q') :
    q = q' := by
  have hcell' := cell_block hfits hq'
  rw [← heq] at hcell'
  cases hex _ _ _ (.cell hreach (cell_block hfits hq)) (.cell hreach hcell')
  rfl

/-- The bytes of the file after a part of the writes. -/
theorem fileByte_of_tears (hex : (tree fs.disk).Exclusive) (hreach : (tree fs.disk).Reach inum)
    (hfits : (inodeAt fs.disk inum).numBlocks ≤ numPtrs) (hsize : 0 ≤ (inodeAt fs.disk inum).size.toInt)
    (htouch : ∀ q, Touches (offset + 0) (offset + buf.length) q → q < (inodeAt fs.disk inum).numBlocks)
    (hwrites : WritesTo (fun b => ∃ q, Touches (offset + 0) (offset + buf.length) q ∧
      (inodeAt fs.disk inum).block q = b) part)
    (htears : Tears fs (inodeAt fs.disk inum) buf offset 0 part) :
    ∃ count ≤ buf.length, ∀ x < (inodeAt fs.disk inum).size.toInt.toNat,
      (inodeAt fs.disk inum).fileByte (fs.replay part).disk x =
        if offset ≤ x ∧ x < offset + (buf.take count).length then (buf.take count).getD (x - offset) 0
        else (inodeAt fs.disk inum).fileByte fs.disk x := by
  obtain ⟨count, -, hcount, hbytes⟩ := htears
  refine ⟨count, hcount, fun x hx => ?_⟩
  have hq' : x / fsBlockSize < (inodeAt fs.disk inum).numBlocks := by
    rw [numBlocks_of_nonneg hsize]
    simp only [fsBlockSize]
    omega
  by_cases hin : Touches (offset + 0) (offset + buf.length) (x / fsBlockSize)
  · have hmod : x % fsBlockSize < fsBlockSize := Nat.mod_lt _ (by decide)
    rw [Inode.fileByte, hbytes _ hin _ hmod, patched, Nat.div_add_mod]
    rfl
  · have hkeep : (fs.replay part).disk ((inodeAt fs.disk inum).block (x / fsBlockSize)) =
        fs.disk ((inodeAt fs.disk inum).block (x / fsBlockSize)) :=
      hwrites.disk fun hb => hin (hb.elim fun q hq => block_inj hex hreach hfits (htouch q hq.1) hq' hq.2 ▸ hq.1)
    have hout : ¬(offset ≤ x ∧ x < offset + (buf.take count).length) := fun hinside =>
      hin ⟨x, hinside.1, hinside.2.trans_le (by rw [List.length_take]; omega), rfl⟩
    rw [Inode.fileByte, hkeep, if_neg hout]
    rfl

/-- A part of the writes tears the file. -/
theorem tornAt_of_tears (h : Sound fs) (hreach : (tree fs.disk).Reach inum)
    (hfile : S_ISDIR (inodeAt fs.disk inum).mode = false) (hoffset : (offset : Int) ≤ (inodeAt fs.disk inum).size.toInt)
    (hfits : (inodeAt fs.disk inum).numBlocks ≤ numPtrs)
    (htouch : ∀ q, Touches (offset + 0) (offset + buf.length) q → q < (inodeAt fs.disk inum).numBlocks)
    (hwrites : WritesTo (fun b => ∃ q, Touches (offset + 0) (offset + buf.length) q ∧
      (inodeAt fs.disk inum).block q = b) part)
    (htears : Tears fs (inodeAt fs.disk inum) buf offset 0 part) : TornAt fs (fs.replay part) inum buf offset := by
  have hcells : WritesTo (fun b => ∃ i, (tree fs.disk).cell inum i = some b) part :=
    hwrites.mono fun b hb => hb.elim fun q hq => ⟨_, (cell_block hfits (htouch q hq.1)).trans (congrArg some hq.2)⟩
  have hlow : ∀ b < 2, (fs.replay part).disk b = fs.disk b := by
    intro b hb
    refine hcells.disk fun hcell => ?_
    obtain ⟨i, hcell⟩ := hcell
    have hrange := h.range b (Graph.Uses.cell hreach hcell).inUse
    omega
  have hdata : KeepsBut (IsData fs.disk) fs.disk (fs.replay part).disk := fun b _ hnot =>
    hcells.disk fun hcell => hnot (hcell.elim fun i hi => ⟨inum, i, hreach, hfile, hi⟩)
  have hagrees := hdata.agrees h.exclusive
  have hinode := hdata.inodeAt h.exclusive hreach
  have hnode : ∀ disk', inodeAt disk' inum = inodeAt fs.disk inum →
      nodeAt disk' inum = ⟨setstat (inodeAt fs.disk inum), (inodeAt fs.disk inum).contents disk'⟩ := fun disk' heq => by
    rw [nodeAt, heq, if_neg (by simp [hfile])]
  obtain ⟨count, hcount, hbytes⟩ := fileByte_of_tears h.exclusive hreach hfits (by omega) htouch hwrites htears
  refine ⟨⟨hreach, hfile, rfl, ⟨hagrees.root, hagrees.edge, fun n hn _ => hagrees.cell n hn⟩,
    hagrees.exclusive h.exclusive, hinode, fun b _ hnot => hcells.disk fun hcell => hnot (Or.inr hcell),
    hlow 0 (by decide), hcells.diskSize⟩, hdata, hlow 1 (by decide), count, hcount, ?_⟩
  rw [hnode _ hinode, hnode _ rfl, contents_tear (by omega) hbytes]
  rfl

end File

/-! ### The whole request -/

section Request

variable {env : Env} {fs : Fs} {path : CStr} {buf : List UInt8} {offset inum : Nat} {part : List Event}

/-- What `fs_write` does where it needs no more blocks than the file has. -/
theorem does_fsWrite_torn (h : Sound fs) (hat : WriteAt env.limits fs path buf offset inum [])
    (hlen : offset + buf.length < 2 ^ 31)
    (hblocks : (offset + buf.length + 4095) / 4096 = (inodeAt fs.disk inum).numBlocks)
    (hfits : (inodeAt fs.disk inum).numBlocks ≤ numPtrs) :
    ∃ data, Does env fs (fsWrite path buf offset) (.ok (buf.length : Int))
        (data ++ [.blockWrite inum ((inodeAt fs.disk inum).grow [] (offset + buf.length) env.time).toBlock]) ∧
      ∀ part, part <+: data → TornAt fs (fs.replay part) inum buf offset := by
  have hreach := (reach_of_translateIn hat.translate).1
  have htouch : ∀ q, Touches (offset + 0) (offset + buf.length) q → q < (inodeAt fs.disk inum).numBlocks := fun q hq => by
    rw [← hblocks]
    exact lt_of_touches hq
  obtain ⟨data, hdata, hwrites, htears⟩ := @does_writeLoop_tears env (inodeAt fs.disk inum) buf offset 0 fs buf.length
    (Nat.zero_add _).ge (Nat.zero_le _)
    (fun q hq => ⟨(htouch q hq).trans_le hfits,
      h.writable (Graph.Uses.cell hreach (cell_block hfits (htouch q hq))).inUse⟩)
    (fun q q' hq hq' => block_inj h.exclusive hreach hfits (htouch q hq) (htouch q' hq'))
  refine ⟨data, ?_, fun part hpart => tornAt_of_tears h hreach hat.file hat.offset_le hfits htouch
    (fun e he => hwrites e (hpart.subset he)) (htears part hpart)⟩
  have hnewBlocks : blocksFor ((offset + buf.length) % 2 ^ 64) = (inodeAt fs.disk inum).numBlocks := by
    rw [Nat.mod_eq_of_lt (hlen.trans (by decide)), blocksFor_of_lt (hlen.trans (by decide)), hblocks]
  have hneeded : ((inodeAt fs.disk inum).numBlocks + 2 ^ 32 - (inodeAt fs.disk inum).numBlocks) % 2 ^ 32 = 0 := by
    rw [Nat.add_sub_cancel_left, Nat.mod_self]
  have hreturn : (Int32.ofNat buf.length).toInt = buf.length := Int32.toInt_ofNat_of_lt (by omega)
  refine does_read_bind (hat.translate ▸ reads_translate path) ?_
  dsimp only
  rw [if_neg (by simp [hat.file]), if_neg (not_lt.mpr hat.offset_le), hnewBlocks, hneeded,
    Nat.mod_eq_of_lt (hlen.trans (by decide))]
  refine does_read_bind (Follows.pure _) (does_bind hdata (does_read_bind Follows.ask ?_))
  rw [if_neg (Nat.lt_irrefl _), hreturn, Inode.grow, Inode.setPtrs_nil]
  exact does_bind (does_blockWrite (h.writable hreach.inUse) _) (Follows.pure _)

end Request

end Fs5600
