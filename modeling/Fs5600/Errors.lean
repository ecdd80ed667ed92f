import Fs5600.Frames
import Fs5600.Soundness

/-! Failing block accesses. An operation that returns after one leaves a sound state, but where
`fs_truncate` cannot write the emptied inode: it has marked the data blocks free before. -/

namespace Fs5600

open Ownership Command

/-! ### Writing and counting writes -/

/-- No block write is tried from one machine to the other. -/
def SameWrites (m m' : Machine) : Prop := m'.writes = m.writes

instance : Std.Refl SameWrites := ⟨fun _ => rfl⟩

instance : IsTrans Machine SameWrites := ⟨fun _ _ _ h h' => Eq.trans h' h⟩

section Within

variable {env : Env} {fs : Fs}

theorem sameWrites_blockRead (lba : Nat) : Within SameWrites (blockRead lba) := fun _ _ => rfl

theorem sameWrites_bitmapClear (i : Nat) : Within SameWrites (bitmapClear i) := by
  intro env m
  unfold bitmapClear
  split <;> rfl

theorem blockWrite_run (env : Env) {lba : Nat} (hlba : Writable lba) (block : Block) (m : Machine) :
    blockWrite lba block env m =
      if env.writeFails m.writes lba = true then (.error (.errno Errno.EIO), { m with writes := m.writes + 1 })
      else (.ok (), { m.emit (.blockWrite lba block) with writes := m.writes + 1 }) := by
  have hbound : ¬(lba = 0 ∨ 2 ^ 31 ≤ lba) := by have := hlba.1; have := hlba.2; omega
  rw [blockWrite, bind_run, tryBlockWrite, if_neg hbound]
  by_cases hfail : env.writeFails m.writes lba = true
  · rw [if_pos hfail, if_pos hfail]
    rfl
  · rw [if_neg hfail, if_neg hfail]
    rfl

/-- A call that only reads leaves the file system as it was, however it ends. -/
theorem fs_of_reads {α : Type} {call : Call α} {value : Except Stop α} (h : Reads env fs call value) {m : Machine}
    (hm : m.fs = fs) : (call env m).2.fs = fs := by
  obtain ⟨events, hemits, hend⟩ := h m hm
  have hnil : events = [] := by
    rcases hend with ⟨-, rfl⟩ | ⟨reason, -, -, hpre⟩
    · rfl
    · exact List.prefix_nil.mp hpre
  subst hnil
  exact hemits.view.trans hm

/-- The end of a call: the bitmap is written or not, and the call returns. -/
theorem bitmapWrite_end {m : Machine} (hm : m.fs = fs) (h : ¬(tree fs.disk).InUse 1) (value : Int) :
    ((do bitmapWrite; pure value : Call Int) env m).1 ≠ .error .fault ∧
      Keeps (fun _ => False) fs ((do bitmapWrite; pure value : Call Int) env m).2.fs ∧
      ((do bitmapWrite; pure value : Call Int) env m).2.fs.bitmap = fs.bitmap := by
  have hdoes : Does env fs (do bitmapWrite; pure value : Call Int) (.ok value) [.blockWrite 1 fs.bitmap] :=
    does_bind_read does_bitmapWrite (Follows.pure value)
  obtain ⟨events, hemits, hend⟩ := hdoes m hm
  have hfs : ((do bitmapWrite; pure value : Call Int) env m).2.fs = fs.replay events := hm ▸ hemits.view
  have hpre : events <+: [.blockWrite 1 fs.bitmap] :=
    hend.elim (fun hdone => hdone.2 ▸ List.prefix_rfl) fun ⟨_, _, _, hpre⟩ => hpre
  have hsilent : ∀ e ∈ events, Silent fs.disk (fun _ => False) e := by
    intro e he
    obtain rfl := List.mem_singleton.mp (hpre.subset he)
    exact fun huse => absurd huse h
  refine ⟨?_, hfs ▸ keeps_replay hsilent, ?_⟩
  · rcases hend with ⟨hvalue, -⟩ | ⟨reason, hbreaks, hvalue, -⟩
    · rw [hvalue]
      simp
    · rw [hvalue]
      simpa using hbreaks.1
  · rw [hfs]
    rcases events with _ | ⟨event, rest⟩
    · rfl
    · obtain ⟨rfl, hrest⟩ := List.cons_prefix_cons.mp hpre
      rw [List.prefix_nil.mp hrest]
      rfl

end Within

/-! ### `fs_truncate` -/

/-- `fs_truncate` marks data blocks free, and then the first write fails: that of the emptied inode. -/
def LosesTruncate (env : Env) (fs : Fs) (path : CStr) (len : Int) : Prop :=
  len = 0 ∧ ∃ inum inode m, translate path env (.start fs) = (.ok (inum, inode), m) ∧
    S_ISDIR inode.mode = false ∧ inode.numBlocks ≠ 0 ∧ env.writeFails 0 inum = true

section Truncate

variable {env : Env} {fs : Fs} {inum : Nat}

/-- With the bits of its data blocks clear and the inode as it was, the state is not sound. -/
theorem not_sound_of_cleared (h : Sound fs) (hfits : Fits fs.disk) (hreach : (tree fs.disk).Reach inum)
    (hblocks : (inodeAt fs.disk inum).numBlocks ≠ 0) {fs' : Fs} (hdisk : fs'.disk = fs.disk)
    (hbitmap : fs'.bitmap = clearAll fs.bitmap (freed (inodeAt fs.disk inum) (inodeAt fs.disk inum).numBlocks 0)) :
    ¬Sound fs' := by
  intro hsound
  have hpos : (0 : Fin numPtrs).val < (inodeAt fs.disk inum).numBlocks := Nat.pos_of_ne_zero hblocks
  have hcell := tree_cell_eq_some.mpr ⟨hpos, rfl⟩
  have hmem := (mem_freed_iff h hfits hreach).mpr ⟨0, hcell⟩
  have hmark := hsound.marked ((inodeAt fs.disk inum).ptrs 0).toNat
    (by rw [hdisk]; exact (Graph.Uses.cell hreach hcell).inUse)
  rw [hbitmap, bitTest_clearAll, decide_eq_true hmem] at hmark
  cases hmark

/-- What `fs_truncate` does after it found the file. -/
theorem truncate_rest_sound_iff (h : Sound fs) (hfits : Fits fs.disk) (hreach : (tree fs.disk).Reach inum)
    (hfile : S_ISDIR (inodeAt fs.disk inum).mode = false) {m : Machine} (hm : m.fs = fs) (hwrites : m.writes = 0)
    {rest : Call Int} (hrest : rest = (do
      freeLoop (inodeAt fs.disk inum) (inodeAt fs.disk inum).numBlocks 0
      blockWrite inum ((inodeAt fs.disk inum).truncate (← ask).time).toBlock
      bitmapWrite
      pure 0)) :
    ((rest env m).1 ≠ .error .fault → Sound (rest env m).2.fs) ↔
      ¬((inodeAt fs.disk inum).numBlocks ≠ 0 ∧ env.writeFails 0 inum = true) := by
  subst hrest
  have hfree : Follows recorder (fun _ => False) env m.fs (freeLoop (inodeAt fs.disk inum) _ 0) (.ok ()) _ :=
    does_freeLoop_of_sound h hfits hreach m.fs
  obtain ⟨hemits, hvalue⟩ := hfree.complete (fun _ => id) rfl
  have hcount := within_freeLoop sameWrites_bitmapClear (inodeAt fs.disk inum) (inodeAt fs.disk inum).numBlocks 0 env m
  rcases hrun : freeLoop (inodeAt fs.disk inum) (inodeAt fs.disk inum).numBlocks 0 env m with ⟨result, m'⟩
  rw [hrun] at hemits hvalue hcount
  obtain rfl : result = .ok () := hvalue
  have hcleared : m'.fs = fs.replay ((freed (inodeAt fs.disk inum) (inodeAt fs.disk inum).numBlocks 0).map .bitClear) :=
    hm ▸ hemits.view
  have hwrites' : m'.writes = 0 := Eq.trans hcount hwrites
  rw [replay_bitClears] at hcleared
  rw [bind_ok hrun, bind_ok (ask_run env m')]
  by_cases hfail : env.writeFails 0 inum = true
  · have hwrite := blockWrite_run env (h.writable hreach.inUse) ((inodeAt fs.disk inum).truncate env.time).toBlock m'
    rw [hwrites', if_pos hfail] at hwrite
    rw [bind_error hwrite]
    simp only [hfail, and_true, not_not, ne_eq, reduceCtorEq, Except.error.injEq, not_false_eq_true, true_imp_iff,
      hcleared]
    constructor
    · intro hsound
      by_contra hblocks
      refine not_sound_of_cleared h hfits hreach hblocks ?_ ?_ hsound <;> rfl
    · intro hzero
      rw [hzero]
      exact h
  · have hwrite := blockWrite_run env (h.writable hreach.inUse) ((inodeAt fs.disk inum).truncate env.time).toBlock m'
    rw [hwrites', if_neg hfail] at hwrite
    rw [bind_ok hwrite]
    simp only [hfail, and_false, not_false_eq_true, iff_true, Bool.false_eq_true]
    have hmid : Sound (m'.fs.apply (.blockWrite inum ((inodeAt fs.disk inum).truncate env.time).toBlock)) := by
      have hresized : Resized fs (m'.fs.apply (.blockWrite inum ((inodeAt fs.disk inum).truncate env.time).toBlock))
          inum ((inodeAt fs.disk inum).truncate env.time) := by
        rw [hcleared]
        refine resized_of_truncate h hreach hfile (Function.update_self _ _ _)
          (fun b _ hne => Function.update_of_ne hne _ _) (Function.update_of_ne ?_ _ _) rfl
        exact (ne_zero_of_inUse h hreach.inUse).symm
      refine ⟨hresized.exclusive, fun b hb => ?_, fun b hb => ?_⟩
      · rw [hresized.diskSize]
        exact h.range b ((hresized.inUse_truncate h.exclusive b).mp hb).1
      · obtain ⟨hold, hcell⟩ := (hresized.inUse_truncate h.exclusive b).mp hb
        rw [hcleared, Fs.apply, bitTest_clearAll, h.marked b hold,
          decide_eq_false (mt (mem_freed_iff h hfits hreach).mp hcell)]
        rfl
    exact fun _ => hmid.keeps ((bitmapWrite_end (by rfl) (hmid.reserved (by decide)) 0).2.1.mono fun _ => False.elim)

theorem truncate_sound_iff (h : Sound fs) (hfits : Fits fs.disk) (path : CStr) (len : Int) :
    ((fsTruncate path len env (.start fs)).1 ≠ .error .fault → Sound (fsTruncate path len env (.start fs)).2.fs) ↔
      ¬LosesTruncate env fs path len := by
  unfold fsTruncate
  by_cases hlen : len = 0
  · rw [if_neg (not_not.mpr hlen)]
    have hcount := within_translate sameWrites_blockRead path env (.start fs)
    have hread : Reads env fs (translate path) _ := reads_translate path
    have hsame := fs_of_reads hread (m := .start fs) rfl
    rcases hrun : translate path env (.start fs) with ⟨reason | ⟨inum, inode⟩, m⟩ <;> rw [hrun] at hsame hcount
    · rw [bind_error hrun]
      apply iff_of_true (fun _ => hsame ▸ h)
      rintro ⟨-, inum, inode, m', hok, -⟩
      cases hrun.symm.trans hok
    · obtain ⟨hreach, rfl⟩ := reach_of_translateIn (hread.of_ok rfl hrun).1
      have hloses : LosesTruncate env fs path len ↔ S_ISDIR (inodeAt fs.disk inum).mode = false ∧
          (inodeAt fs.disk inum).numBlocks ≠ 0 ∧ env.writeFails 0 inum = true := by
        constructor
        · rintro ⟨-, inum', inode', m', hok, hrest⟩
          obtain ⟨rfl, rfl⟩ := Prod.mk.inj (Except.ok.inj (Prod.mk.inj (hrun.symm.trans hok)).1)
          exact hrest
        · exact fun hrest => ⟨hlen, inum, _, m, hrun, hrest⟩
      rw [bind_ok hrun, hloses]
      dsimp only
      cases hmode : S_ISDIR (inodeAt fs.disk inum).mode with
      | true => exact iff_of_true (fun _ => hsame ▸ h) (by simp)
      | false =>
          rw [if_neg (by simp)]
          simp only [true_and]
          exact truncate_rest_sound_iff h hfits hreach hmode hsame hcount rfl
  · rw [if_pos hlen]
    refine iff_of_true (fun _ => h) fun hloses => hlen hloses.1

end Truncate

/-! ### `fs_rmdir` -/

/-- `fs_rmdir` comes to the point where it marks blocks free, with a directory without data blocks whose
left-over `ptrs[0]` names a block in use. -/
def LosesRmdir (env : Env) (fs : Fs) (path : CStr) : Prop :=
  ∃ inum inode m, rmdirEntry path env (.start fs) = (.ok (inum, inode), m) ∧ inode.numBlocks = 0 ∧
    (inode.ptrs 0).toNat ≠ inum ∧ (tree fs.disk).InUse (inode.ptrs 0).toNat

section Rmdir

variable {env : Env} {fs : Fs} {path : CStr} {inum dir : Nat} {found : Option Hit}

/-- The removal of an entry, done or not, leaves a sound state. -/
theorem sound_of_removal (h : Sound fs) (hat : RmdirAt env.limits fs path inum dir found) {part : List Event}
    (hpart : part <+: removal (inodeAt fs.disk dir) found) : Sound (fs.replay part) := by
  obtain ⟨name, hparent, hsearch⟩ := hat.parent
  obtain ⟨-, -, -, -, -, hmode⟩ := parentDirIn_eq_ok hparent
  rcases found with _ | hit
  · rw [List.prefix_nil.mp hpart]
    exact h
  · rcases part with _ | ⟨event, rest⟩
    · exact h
    · obtain ⟨rfl, hrest⟩ := List.cons_prefix_cons.mp hpart
      rw [List.prefix_nil.mp hrest]
      exact (detached_removal h hat.reach hmode hsearch).sound h rfl fun _ _ hmark => hmark

/-- A directory without data blocks has no entries. -/
theorem edge_of_empty (hempty : (inodeAt fs.disk inum).numBlocks = 0) (slot : Slot) :
    (tree fs.disk).edge inum slot = none :=
  if_neg fun hslot => by
    have hlt := hslot.lt_numBlocks
    omega

/-- What the left-over pointer of an empty directory names stays in use when the directory goes. -/
theorem inUse_of_detached (h : Sound fs) {fs' : Fs} {slot : Slot} {label : List UInt8}
    (hdetached : Detached fs fs' dir slot label inum) (hempty : (inodeAt fs.disk inum).numBlocks = 0) {b : Nat}
    (hne : b ≠ inum) (hb : (tree fs.disk).InUse b) : (tree fs'.disk).InUse b := by
  obtain ⟨use, huse⟩ := hb
  refine ⟨use, (hdetached.removes.uses_iff h.exclusive hdetached.reach hdetached.edge (edge_of_empty hempty)).mpr
    ⟨huse, ?_, ?_⟩⟩
  · rintro rfl
    obtain ⟨-, l, hedge⟩ := Graph.uses_edge_iff.mp huse
    rw [hdetached.edge] at hedge
    exact hne (Prod.mk.inj (Option.some.inj hedge)).2.symm
  · rintro i rfl
    obtain ⟨-, hcell⟩ := Graph.uses_cell_iff.mp huse
    have hlt := (tree_cell_eq_some.mp hcell).1
    omega

/-- What `fs_rmdir` does after the entry is gone. -/
theorem rmdir_rest_sound_iff (h : Sound fs) (hat : RmdirAt env.limits fs path inum dir found) {fs' : Fs} {slot : Slot}
    {label : List UInt8} (hdetached : Detached fs fs' dir slot label inum) (hbitmap : fs'.bitmap = fs.bitmap)
    (hsize : fs'.diskSize = fs.diskSize) {m : Machine} (hm : m.fs = fs') {rest : Call Int} (hrest : rest = (do
      bitmapClear ((inodeAt fs.disk inum).ptrs 0).toNat
      bitmapClear inum
      bitmapWrite
      pure 0)) :
    ((rest env m).1 ≠ .error .fault → Sound (rest env m).2.fs) ↔
      ¬((inodeAt fs.disk inum).numBlocks = 0 ∧ ((inodeAt fs.disk inum).ptrs 0).toNat ≠ inum ∧
        (tree fs.disk).InUse ((inodeAt fs.disk inum).ptrs 0).toNat) := by
  subst hrest
  set ptr := ((inodeAt fs.disk inum).ptrs 0).toNat with hptr
  have hreach := (reach_of_translateIn hat.translate).1
  have hsound : Sound fs' := hdetached.sound h hsize fun _ _ hmark => by rwa [hbitmap]
  by_cases hbit : ptr < bitmapBits
  · have hclear : ∀ {b}, b < bitmapBits → ∀ m : Machine, bitmapClear b env m = (.ok (), m.emit (.bitClear b)) :=
      fun hb m => if_pos hb
    rw [bind_ok (hclear hbit m), bind_ok (hclear (bitTest_lt (h.marked inum hreach.inUse)) _)]
    set cleared := (fs'.apply (.bitClear ptr)).apply (.bitClear inum) with hcleared
    have hbits : ∀ b, bitTest cleared.bitmap b = true ↔ bitTest fs'.bitmap b = true ∧ b ∉ [ptr, inum] := by
      intro b
      rw [hcleared]
      simp only [Fs.apply, bitTest_bitClear, Bool.and_eq_true, Bool.not_eq_true', decide_eq_false_iff_not,
        List.mem_cons, List.not_mem_nil, or_false, not_or]
      constructor
      · exact fun hb => ⟨hb.2.2, Ne.symm hb.2.1, Ne.symm hb.1⟩
      · exact fun hb => ⟨Ne.symm hb.2.2, Ne.symm hb.2.1, hb.1⟩
    have hfs : ((m.emit (.bitClear ptr)).emit (.bitClear inum)).fs = cleared := by
      rw [hcleared, ← hm]
      rfl
    obtain ⟨hvalue, hkeep, hmap⟩ := @bitmapWrite_end env _ _ hfs (hsound.reserved Nat.one_lt_two) 0
    have hagrees := (hkeep.disk.mono fun _ => False.elim).agrees (show (tree cleared.disk).Exclusive from hsound.exclusive)
    constructor
    · rintro hfinal ⟨hempty, hne, huse⟩
      have huse' := hagrees.inUse_iff.mpr (inUse_of_detached h hdetached hempty hne huse)
      have hmark := (hfinal hvalue).marked ptr huse'
      rw [hmap, hbits] at hmark
      exact hmark.2 List.mem_cons_self
    · intro hgood _
      have hnot : ∀ b ∈ [ptr, inum], ¬(tree fs'.disk).InUse b := by
        refine not_inUse_of_rmdir h hat ?_ hdetached
        rintro ⟨inum', dir', found', hat', hempty, hne, huse⟩
        obtain ⟨rfl, -, -⟩ := hat'.unique hat
        exact hgood ⟨hempty, hne, huse⟩
      have hcleared' : Sound cleared := ⟨hsound.exclusive, hsound.range, fun b hb =>
        (hbits b).mpr ⟨hsound.marked b hb, fun hmem => hnot b hmem hb⟩⟩
      exact hcleared'.keeps (hkeep.mono fun _ => False.elim)
  · have hclear : bitmapClear ptr env m = (.error .fault, m) := if_neg hbit
    rw [bind_error hclear]
    apply iff_of_true (fun hne => absurd rfl hne)
    rintro ⟨-, -, huse⟩
    exact hbit (bitTest_lt (h.marked _ huse))

theorem rmdir_sound_iff (h : Sound fs) (hpath : Plain path) :
    ((fsRmdir path env (.start fs)).1 ≠ .error .fault → Sound (fsRmdir path env (.start fs)).2.fs) ↔
      ¬LosesRmdir env fs path := by
  have hacts : Acts env fs (rmdirEntry path) _ := acts_rmdirEntry h path
  obtain ⟨value, plan, hdoes, hpost⟩ := hacts
  unfold fsRmdir
  rcases hrun : rmdirEntry path env (.start fs) with ⟨reason | ⟨inum, inode⟩, m⟩
  · rw [bind_error hrun]
    obtain ⟨events, hemits, hend⟩ := hdoes (.start fs) rfl
    rw [hrun] at hemits
    have hfs : m.fs = fs.replay events := hemits.view
    have hpre : events <+: plan := hend.elim (fun hdone => hdone.2 ▸ List.prefix_rfl) fun ⟨_, _, _, hp⟩ => hp
    refine iff_of_true (fun _ => ?_) ?_
    · rw [hfs]
      cases hpost with
      | stops reason hnot => exact (List.prefix_nil.mp hpre) ▸ h
      | done hat => exact sound_of_removal h hat hpre
    · rintro ⟨inum, inode, m', hok, -⟩
      cases hrun.symm.trans hok
  · rw [bind_ok hrun]
    obtain ⟨hvalue, hemits⟩ := hdoes.of_ok rfl hrun
    have hfs : m.fs = fs.replay plan := hemits.view
    cases hpost with
    | stops reason hnot => cases hvalue
    | @done inum' dir found hat =>
        obtain ⟨rfl, rfl⟩ := Prod.mk.inj (Except.ok.inj hvalue)
        obtain ⟨name, hit, rfl, rfl, hmode, hsearch⟩ := hat.hit hpath
        have hloses : LosesRmdir env fs path ↔ _ :=
          ⟨fun ⟨_, _, _, hok, hrest⟩ => by
            obtain ⟨rfl, rfl⟩ := Prod.mk.inj (Except.ok.inj (Prod.mk.inj (hrun.symm.trans hok)).1)
            exact hrest, fun hrest => ⟨_, _, m, hrun, hrest⟩⟩
        rw [hloses]
        exact rmdir_rest_sound_iff h hat (detached_removal h hat.reach hmode hsearch) rfl rfl hfs rfl

end Rmdir

/-! ### All requests -/

/-- Whatever block accesses fail, a request that returns leaves a sound state, exactly unless `fs_truncate`
loses the write of the emptied inode or `fs_rmdir` frees a block that is in use elsewhere. -/
theorem returns_sound_iff {env : Env} {fs : Fs} {op : Op} (h : Sound fs) (hsize : fs.diskSize ≤ 1020)
    (hop : op.Changes) :
    ((op.run env fs).1 ≠ .error .fault → Sound (op.run env fs).2.fs) ↔
      ¬((∃ path len, op = .truncate path len ∧ LosesTruncate env fs path len) ∨
        ∃ path, op = .rmdir path ∧ LosesRmdir env fs path) := by
  have hfits := h.fits hsize
  by_cases htruncate : ∃ path len, op = .truncate path len
  · obtain ⟨path, len, rfl⟩ := htruncate
    refine (truncate_sound_iff h hfits path len).trans (not_congr ?_)
    simp
  · by_cases hrmdir : ∃ path, op = .rmdir path
    · obtain ⟨path, rfl⟩ := hrmdir
      refine (rmdir_sound_iff h hop).trans (not_congr ?_)
      simp
    · refine iff_of_true (fun _ => ?_) ?_
      · exact (leaves_of_run (attempts_phases h hfits hop (fun path len heq => htruncate ⟨path, len, heq⟩)
          fun path heq => absurd ⟨path, heq⟩ hrmdir)).sound h
      · rintro (⟨path, len, rfl, -⟩ | ⟨path, rfl, -⟩)
        · exact htruncate ⟨path, len, rfl⟩
        · exact hrmdir ⟨path, rfl⟩

def failingEnv : Env := { quietEnv 0 with writeFails := fun count _ => count == 0 }

/-- A failing write in the middle of making a file in the directory `d` of the sample disk leaves a sound state. -/
theorem returns_sound_sampleImage :
    (Op.run (.create (joinPath [nameD, nameF]) (S_IFREG ||| 0o666)) failingEnv sampleImage).1 = .error (.errno Errno.EIO) ∧
      Sound (Op.run (.create (joinPath [nameD, nameF]) (S_IFREG ||| 0o666)) failingEnv sampleImage).2.fs := by
  have hvalue : (Op.run (.create (joinPath [nameD, nameF]) (S_IFREG ||| 0o666)) failingEnv sampleImage).1 =
      .error (.errno Errno.EIO) := by
    decide +kernel
  have hop : (Op.create (joinPath [nameD, nameF]) (S_IFREG ||| 0o666)).Changes :=
    plain_joinPath (by decide) (by decide) (by decide)
  refine ⟨hvalue, (@returns_sound_iff failingEnv _ _ sound_sampleImage (by decide) hop).mpr ?_ (by rw [hvalue]; simp)⟩
  rintro (⟨path, len, hop, -⟩ | ⟨path, hop, -⟩) <;> cases hop

/-- Not every request that returns leaves a sound state: with a failing first write, emptying the file `f`
returns `-EIO` and leaves its data block marked free. -/
theorem returns_sound_false :
    ¬∀ env fs op, Mounted fs → Sound fs → fs.diskSize ≤ 1020 → Op.Changes op →
      (op.run env fs).1 ≠ .error .fault → Sound (op.run env fs).2.fs := by
  intro h
  have heval : (Op.run (.truncate (joinPath [nameF]) 0) failingEnv sampleImage).1 = .error (.errno Errno.EIO) ∧
      (tree (Op.run (.truncate (joinPath [nameF]) 0) failingEnv sampleImage).2.fs.disk).edge 2 (0, 1) =
        some (nameF.bytes, 4) ∧
      (tree (Op.run (.truncate (joinPath [nameF]) 0) failingEnv sampleImage).2.fs.disk).cell 4 0 = some 5 ∧
      bitTest (Op.run (.truncate (joinPath [nameF]) 0) failingEnv sampleImage).2.fs.bitmap 5 = false := by
    decide +kernel
  obtain ⟨hvalue, hedge, hcell, hfree⟩ := heval
  have hsound := h failingEnv sampleImage (.truncate (joinPath [nameF]) 0) mounted_sampleImage sound_sampleImage
    (by decide) plain_nameF (by rw [hvalue]; simp)
  exact hsound.not_inUse hfree (Graph.Uses.cell (Graph.Reach.root.step hedge) hcell).inUse

end Fs5600
