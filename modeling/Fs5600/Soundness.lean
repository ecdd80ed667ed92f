import Fs5600.Check

/-! Allocation over whole runs: no request makes two objects share a block or leaves a block in use
unmarked, but an `fs_rmdir` that frees the block a directory without data blocks still names. -/

namespace Fs5600

open Ownership Command Run

/-- `fs_rmdir` marks a block free that is not the directory's own: `ptrs[0]` of a directory without data
blocks names the superblock, the bitmap or a block of another object. -/
def FreesOther (limits : Limits) (fs : Fs) (path : CStr) : Prop :=
  FreesLive limits fs path ∨ FreesReserved limits fs path

/-- A changing request with all block accesses succeeding. -/
def CalmStep (fs : Fs) (request : Request) (fs' : Fs) : Prop :=
  request.env.Quiet ∧ request.op.Changes ∧ fs.Step request fs'

/-- Such a request, that does not free a block of something else. -/
def SparingStep (fs : Fs) (request : Request) (fs' : Fs) : Prop :=
  CalmStep fs request fs' ∧ ∀ path, request.op = .rmdir path → ¬FreesOther request.env.limits fs path

section Runs

variable {fs fs' : Fs} {request : Request}

/-- What a request in a run leaves. -/
theorem SparingStep.leaves (h : Sound fs) (hfits : Fits fs.disk) (hstep : SparingStep fs request fs') :
    Leaves request.env fs request.op fs' := by
  obtain ⟨⟨hquiet, hop, -, rfl⟩, hother⟩ := hstep
  exact leaves_run h hfits hop (fun _ _ _ => hquiet) fun path hrmdir hlive => hother path hrmdir (Or.inl hlive)

/-- A request in a run keeps the file system sound, the size of the disk, and the marks of the first
three blocks. -/
theorem SparingStep.sound (h : Sound fs) (hsize : fs.diskSize ≤ 1020) (hstep : SparingStep fs request fs') :
    Sound fs' ∧ fs'.diskSize ≤ 1020 ∧ ∀ b < 3, bitTest fs.bitmap b = true → bitTest fs'.bitmap b = true := by
  have hleaves := hstep.leaves h (h.fits hsize)
  have hsound := hleaves.sound h
  refine ⟨hsound, by rwa [hleaves.diskSize], fun b hb hmark => ?_⟩
  rcases Nat.lt_succ_iff_lt_or_eq.mp hb with hlt | rfl
  · exact hleaves.reserved (fun path hrmdir hres => hstep.2 path hrmdir (Or.inr hres)) b hlt hmark
  · exact hsound.marked 2 Graph.Reach.root.inUse

/-- In every state of a run no block is used twice, and all blocks in use are marked. -/
theorem sound_of_run (h : Sound fs) (hsize : fs.diskSize ≤ 1020) (hmarks : ∀ b < 3, bitTest fs.bitmap b = true)
    (hrun : Reaches SparingStep fs fs') : Sound fs' ∧ ∀ b < 3, bitTest fs'.bitmap b = true := by
  have hinv := @Reaches.invariant _ _ SparingStep
    (fun state => Sound state ∧ state.diskSize ≤ 1020 ∧ ∀ b < 3, bitTest state.bitmap b = true) _ _ hrun
    (fun state request state' hinv hstep => ?_) ⟨h, hsize, hmarks⟩
  · exact ⟨hinv.1, hinv.2.2⟩
  · obtain ⟨hsound, hsize, hkeep⟩ := hstep.sound hinv.1 hinv.2.1
    exact ⟨hsound, hsize, fun b hb => hkeep b hb (hinv.2.2 b hb)⟩

end Runs

/-- Removing the directory `d` of the sample disk is such a run. -/
theorem sound_of_run_sampleImage :
    Sound (Op.run (.rmdir (joinPath [nameD])) (quietEnv 0) sampleImage).2.fs ∧
      ∀ b < 3, bitTest (Op.run (.rmdir (joinPath [nameD])) (quietEnv 0) sampleImage).2.fs.bitmap b = true := by
  have hdirs : DirBlocks (1 ≤ ·) sampleImage.disk := fun n hn hmode =>
    of_decide_eq_true (allInodes_of_inodeCheck (P := fun inode => decide (S_ISDIR inode.mode = true → 1 ≤ inode.numBlocks))
      (by decide +kernel) n hn) hmode
  have hstep : SparingStep sampleImage ⟨quietEnv 0, .rmdir (joinPath [nameD]), _⟩ _ :=
    ⟨⟨quiet_quietEnv 0, plain_nameD, rfl, rfl⟩, fun path _ hother =>
      hother.elim (not_freesLive hdirs _ path) (not_freesReserved sound_sampleImage hdirs _ path)⟩
  exact sound_of_run sound_sampleImage (by decide) (by decide +kernel) (.single hstep)

/-- The blocks in use do not all stay marked in every run: on the disk with the left-over `ptrs[0]`,
removing the directory `d` marks the data block of the file `f` free. -/
theorem sound_of_calm_run_false :
    ¬∀ fs fs', Mounted fs → Sound fs → fs.diskSize ≤ 1020 → (∀ b < 3, bitTest fs.bitmap b = true) →
      Reaches CalmStep fs fs' → Sound fs' := by
  intro h
  have hstep : CalmStep staleImage ⟨quietEnv 0, .rmdir (joinPath [nameD]), _⟩ _ :=
    ⟨quiet_quietEnv 0, plain_nameD, rfl, rfl⟩
  have hsound := h _ _ mounted_staleImage sound_staleImage (by decide) (by decide +kernel) (.single hstep)
  have heval : (tree (Op.run (.rmdir (joinPath [nameD])) (quietEnv 0) staleImage).2.fs.disk).edge 2 (0, 1) =
        some (nameF.bytes, 4) ∧
      (tree (Op.run (.rmdir (joinPath [nameD])) (quietEnv 0) staleImage).2.fs.disk).cell 4 0 = some 5 ∧
      bitTest (Op.run (.rmdir (joinPath [nameD])) (quietEnv 0) staleImage).2.fs.bitmap 5 = false := by
    decide +kernel
  obtain ⟨hedge, hcell, hfree⟩ := heval
  exact hsound.not_inUse hfree (Graph.Uses.cell (Graph.Reach.root.step hedge) hcell).inUse

end Fs5600
