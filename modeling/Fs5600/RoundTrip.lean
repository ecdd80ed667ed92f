import Fs5600.Renaming

/-! Renaming there and back. The tree is the one before, unless the first name had 27 bytes: then it comes
back cut. -/

namespace Fs5600

open Ownership Command

/-! ### Equal trees -/

section Walks

variable {limits : Limits} {disk disk' : Nat → Block} {dir : Nat} {name : CStr} {names : List CStr} {st : WalkState}

/-- A step of a walk into a directory, in terms of its entries. -/
theorem walkStepIn_eq (hdot : name ≠ dot) (hdotdot : name ≠ dotdot) :
    walkStepIn limits disk st name = childIn disk st.current name >>= fun next =>
      if st.stackPos + 1 < limits.parentStack then
        .ok
          { parentStack := Function.update st.parentStack (st.stackPos + 1) st.current
            stackPos := st.stackPos + 1
            current := next }
      else
        .error .fault := by
  rw [walkStepIn, if_neg hdot, if_neg hdotdot, childIn]
  split
  · rfl
  · rcases searchDirIn (hasName name) (inodeAt disk st.current) disk with reason | (_ | hit) <;> rfl

/-- What a name leads to depends on the entries of the directory. -/
theorem childIn_congr (h : WellNamed disk) (h' : WellNamed disk') (hdir : (tree disk).Reach dir)
    (hdir' : (tree disk').Reach dir) (hinode : inodeAt disk' dir = inodeAt disk dir)
    (hedge : (tree disk').edge dir = (tree disk).edge dir) (name : CStr) :
    childIn disk' dir name = childIn disk dir name := by
  cases hmode : S_ISDIR (inodeAt disk dir).mode with
  | false =>
      rw [childIn, childIn, hinode, hmode]
      rfl
  | true =>
      by_cases hfound : ∃ inum slot, (tree disk).edge dir slot = some (name.bytes, inum)
      · obtain ⟨inum, slot, hslot⟩ := hfound
        rw [(h.childIn_eq_ok_iff hdir).mpr ⟨slot, hslot⟩, (h'.childIn_eq_ok_iff hdir').mpr ⟨slot, hedge ▸ hslot⟩]
      · have hnone : ∀ slot inum, (tree disk).edge dir slot ≠ some (name.bytes, inum) := fun slot inum hslot =>
          hfound ⟨inum, slot, hslot⟩
        have hsearch' := h'.search_of_not_edge hdir' (hinode ▸ hmode) (hedge ▸ hnone)
        rw [hinode] at hsearch'
        rw [childIn, childIn, hinode, h.search_of_not_edge hdir hmode hnone, hsearch']

/-- Walks go the same way on disks where all names lead to the same. -/
theorem walkLoopIn_congr
    (hchild : ∀ n name, (tree disk).Reach n → childIn disk' n name = childIn disk n name)
    (hstart : (tree disk).Reach st.current) (hstack : ∀ i, (tree disk).Reach (st.parentStack i)) :
    walkLoopIn limits disk' names st = walkLoopIn limits disk names st := by
  induction names generalizing st with
  | nil => rfl
  | cons name rest ih =>
      have hsame : walkStepIn limits disk' st name = walkStepIn limits disk st name := by
        by_cases hdot : name = dot
        · rw [walkStepIn, walkStepIn, if_pos hdot, if_pos hdot]
        · by_cases hdotdot : name = dotdot
          · rw [walkStepIn, walkStepIn, if_neg hdot, if_neg hdot, if_pos hdotdot, if_pos hdotdot]
          · rw [walkStepIn_eq hdot hdotdot, walkStepIn_eq hdot hdotdot, hchild _ _ hstart]
      rw [walkLoopIn, walkLoopIn, hsame]
      rcases hstep : walkStepIn limits disk st name with reason | next
      · simp only [bind, Except.bind]
      · simp only [bind, Except.bind]
        cases walkStep_of_eq_ok hstep with
        | stay => exact ih hstart hstack
        | top => exact ih hstart hstack
        | pop => exact @ih ⟨st.parentStack, st.stackPos - 1, st.parentStack (st.stackPos - 1)⟩ (hstack _) hstack
        | push _ hfound =>
            refine ih (reach_of_childIn hstart hfound) fun i => ?_
            by_cases hi : i = st.stackPos + 1
            · rw [hi]
              simpa using hstart
            · simpa only [Function.update_of_ne hi] using hstack i

end Walks

/-- A path resolves, lists and reads as before. -/
structure SamePath (env : Env) (fs fs' : Fs) (path : CStr) : Prop where
  translate : (translate path env (.start fs')).1 = (translate path env (.start fs)).1
  getattr : (fsGetattr path env (.start fs')).1 = (fsGetattr path env (.start fs)).1
  readdir : (fsReaddir path env (.start fs')).1 = (fsReaddir path env (.start fs)).1
  read : ∀ len offset, offset + len < 2 ^ 64 →
    (fsRead path len offset env (.start fs')).1 = (fsRead path len offset env (.start fs)).1

section Same

variable {env : Env} {fs fs' : Fs}

/-- Every path leads where it led, where the trees and the blocks of the files are the same. -/
theorem samePath_of_agrees (hquiet : env.Quiet) (h : WellNamed fs.disk) (h' : WellNamed fs'.disk)
    (hagrees : (tree fs.disk).Agrees (tree fs'.disk))
    (hinodes : ∀ n, (tree fs.disk).Reach n → inodeAt fs'.disk n = inodeAt fs.disk n)
    (hdata : ∀ n, (tree fs.disk).Reach n → S_ISREG (inodeAt fs.disk n).mode = true → ∀ i : Fin numPtrs,
      i.val < (inodeAt fs.disk n).numBlocks →
        fs'.disk ((inodeAt fs.disk n).ptrs i).toNat = fs.disk ((inodeAt fs.disk n).ptrs i).toNat) (path : CStr) :
    SamePath env fs fs' path := by
  have hchild : ∀ n name, (tree fs.disk).Reach n → childIn fs'.disk n name = childIn fs.disk n name :=
    fun n name hn => childIn_congr h h' hn (hagrees.reach_iff.mpr hn) (hinodes n hn) (hagrees.edge n hn) name
  have hwalk : walkLoopIn env.limits fs'.disk (pathparse path) .start =
      walkLoopIn env.limits fs.disk (pathparse path) .start :=
    walkLoopIn_congr hchild .root fun _ => .root
  rcases hfound : translateIn env.limits fs.disk path with reason | ⟨n, inode⟩
  · have hsame : translateIn env.limits fs'.disk path = .error reason := by
      rw [translateIn] at hfound ⊢
      rw [hwalk]
      rcases hloop : walkLoopIn env.limits fs.disk (pathparse path) .start with reason' | st
      · rw [hloop] at hfound
        exact hfound
      · rw [hloop] at hfound
        cases hfound
    refine ⟨?_, ?_, ?_, fun len offset _ => ?_⟩
    · rw [translate_value hquiet, translate_value hquiet, hfound, hsame]
    · rw [fsGetattr_value hquiet, fsGetattr_value hquiet, hfound, hsame]
    · rw [fsReaddir_value hquiet h, fsReaddir_value hquiet h', readdirIn, readdirIn, hfound, hsame]
      simp only [bind, Except.bind]
    · rw [(run_of_does (reads_fsRead path len offset) hquiet).1, (run_of_does (reads_fsRead path len offset) hquiet).1,
        hfound, hsame]
      simp only [bind, Except.bind]
  · obtain ⟨hn, rfl⟩ := reach_of_translateIn hfound
    have hsame : translateIn env.limits fs'.disk path = .ok (n, inodeAt fs.disk n) := by
      rw [translateIn_mono (fun k name m hk hm => (hchild k name hk).trans hm) hfound, hinodes n hn]
    obtain ⟨htranslate, hgetattr, hread⟩ := sameFile_of_translateIn hquiet hfound hsame (hdata n hn)
    refine ⟨htranslate, hgetattr, ?_, hread⟩
    rw [fsReaddir_value hquiet h, fsReaddir_value hquiet h', readdirIn, readdirIn, hfound, hsame]
    simp only [bind, Except.bind]
    rw [listing_congr (hagrees.edge n hn) fun slot label m hedge => hinodes m (hn.step hedge)]

end Same

/-! ### There and back -/

/-- An object `a` of a directory, and a name `b` of at most 26 bytes that the directory does not have. -/
structure BackAt (fs : Fs) (pathA pathB a b : CStr) (dir inum : Nat) : Prop where
  first : ParentAt fs.disk pathA a dir
  second : ParentAt fs.disk pathB b dir
  entry : ∃ slot, (tree fs.disk).edge dir slot = some (a.bytes, inum)
  unused : NameFree fs.disk dir b
  short : b.bytes.length ≤ 26

/-- Two renamings, there and back, that succeed leave every path as it was. -/
def RoundTrip (env env' : Env) (fs : Fs) (pathA pathB : CStr) : Prop :=
  (Op.run (.rename pathA pathB) env fs).1 = .ok 0 →
    (Op.run (.rename pathB pathA) env' (Op.run (.rename pathA pathB) env fs).2.fs).1 = .ok 0 →
      ∀ path, SamePath env fs
        (Op.run (.rename pathB pathA) env' (Op.run (.rename pathA pathB) env fs).2.fs).2.fs path

section RoundTrip

variable {env env' : Env} {fs fs' fs'' : Fs} {pathA pathB src dst a b : CStr} {dir inum : Nat} {slot : Slot}

theorem Renamed.hasSlot (h : Renamed fs fs' dir slot src dst inum) : HasSlot fs.disk dir slot :=
  (tree_edge_eq_some.mp h.before).1

/-- The old name is free after a renaming to another name. -/
theorem Renamed.nameFree (h : Renamed fs fs' dir slot src dst inum) (huniq : (tree fs.disk).UniqueLabels)
    (hne : dst.bytes.take 26 ≠ src.bytes) : NameFree fs'.disk dir src := by
  intro s m hedge
  by_cases hs : s = slot
  · subst hs
    exact hne (Prod.mk.inj (Option.some.inj (h.after.symm.trans hedge))).1
  · rw [h.edge dir s h.reach fun hhere => hs hhere.2] at hedge
    exact hs (huniq _ _ _ _ _ _ h.reach hedge h.before)

/-- Renaming there and back to a name that is not cut gives the tree that was there. -/
theorem Renamed.back (h : Renamed fs fs' dir slot a b inum) (h' : Renamed fs' fs'' dir slot b a inum)
    (hle : a.bytes.length ≤ 26) : (tree fs.disk).Agrees (tree fs''.disk) where
  root := rfl
  edge n hn := by
    funext s
    by_cases hhere : n = dir ∧ s = slot
    · obtain ⟨rfl, rfl⟩ := hhere
      rw [h'.after, h.before, List.take_of_length_le hle]
    · rw [h'.edge n s (h.relabels.reach_iff.mpr hn) hhere, h.edge n s hn hhere]
  cell n hn := by
    rw [h'.relabels.cell n (h.relabels.reach_iff.mpr hn), h.relabels.cell n hn]

/-- Renaming there and back changes nothing exactly where the first name has at most 26 bytes. -/
theorem roundTrip_iff (h : WellFormed fs) (hlimits : Roomy env.limits) (hlimits' : Roomy env'.limits)
    (hquiet : env.Quiet) (hquiet' : env'.Quiet) (hA : Plain pathA) (hB : Plain pathB)
    (hat : BackAt fs pathA pathB a b dir inum) : RoundTrip env env' fs pathA pathB ↔ a.bytes.length ≤ 26 := by
  obtain ⟨slot, hedge⟩ := hat.entry
  have hunused : ¬NamedBefore fs.disk dir a b (slot.1.val + 1) := fun ⟨_, s, m, _, hedge'⟩ => hat.unused s m hedge'
  obtain ⟨hvalue, hthere, -⟩ := renamed_of_run h hlimits hquiet hA hB hat.first hat.second hedge hunused
  unfold RoundTrip
  generalize (Op.run (.rename pathA pathB) env fs).2.fs = fs' at hthere ⊢
  -- between the renamings the directory has `b` and not `a`
  have hne : b.bytes ≠ a.bytes := fun heq => hat.unused slot inum (heq ▸ hedge)
  have hcut : b.bytes.take 26 = b.bytes := List.take_of_length_le hat.short
  have hform : WellFormed fs' :=
    ⟨hthere.sound h.toSound, hthere.wellNamed h.toWellNamed (Or.inr hat.unused) hat.short⟩
  have hfree : NameFree fs'.disk dir a := hthere.nameFree h.unique (by rwa [hcut])
  have hunused' : ¬NamedBefore fs'.disk dir b a (slot.1.val + 1) := fun ⟨_, s, m, _, hedge'⟩ => hfree s m hedge'
  have hA' := hthere.parentAt h.exclusive hat.first
  obtain ⟨hvalue', hback, -⟩ := renamed_of_run hform hlimits' hquiet' hB hA (hthere.parentAt h.exclusive hat.second) hA'
    (hcut ▸ hthere.after) hunused'
  generalize (Op.run (.rename pathB pathA) env' fs').2.fs = fs'' at hback ⊢
  constructor
  · intro hround
    by_contra hlong
    have hsame := (hround hvalue hvalue' pathA).translate
    rw [translate_value hquiet, translate_value hquiet,
      (hA.translateIn_eq_ok_iff hlimits h.toWellNamed).mpr ⟨hat.first.leads_of_edge hedge, rfl⟩] at hsame
    refine hback.not_found hform.exclusive hform.unique hA hA' (fun heq => ?_) (fun s m _ => hfree s m) _ _ hsame
    rw [← heq, List.length_take] at hlong
    omega
  · intro hle _ _
    have hinodes : ∀ n, (tree fs.disk).Reach n → inodeAt fs''.disk n = inodeAt fs.disk n := by
      intro n hn
      calc inodeAt fs''.disk n = inodeAt fs'.disk n := hback.inodes n (hthere.relabels.reach_iff.mpr hn)
        _ = inodeAt fs.disk n := hthere.inodes n hn
    refine samePath_of_agrees hquiet h.toWellNamed (hback.wellNamed hform.toWellNamed (Or.inr hfree) hle)
      (hthere.back hback hle) hinodes fun n hn hreg i hi => ?_
    have hn' := hthere.relabels.reach_iff.mpr hn
    have hinode := hthere.inodes n hn
    have hfirst := data_of_keepsBut h.exclusive hat.first.reach hthere.hasSlot hthere.disk hn hreg i hi
    have hsecond := data_of_keepsBut hform.exclusive hA'.reach hback.hasSlot hback.disk hn' (hinode ▸ hreg) i (hinode ▸ hi)
    rw [hinode] at hsecond
    exact hsecond.trans hfirst

end RoundTrip

theorem parentAt_sampleImage {name : CStr} (h : ∀ c ∈ [name], IsComponent c) :
    ParentAt sampleImage.disk (joinPath [name]) name 2 :=
  ⟨⟨[], pathparse_joinPath h, rfl⟩, by decide +kernel⟩

/-- Renaming the file `f` of the sample disk to `g` and back. -/
theorem roundTrip_iff_sampleImage :
    RoundTrip (quietEnv 0) (quietEnv 1) sampleImage (joinPath [nameF]) (joinPath [nameG]) := by
  have hone : (inodeAt sampleImage.disk 2).dirBlocks = 1 := by decide +kernel
  have hnames : ∀ s, (direntAt sampleImage.disk 2 (0, s)).storedName ≠ nameG.bytes := by decide +kernel
  have hat : BackAt sampleImage (joinPath [nameF]) (joinPath [nameG]) nameF nameG 2 4 :=
    ⟨parentAt_sampleImage (by decide), parentAt_sampleImage (by decide), ⟨(0, 1), by decide +kernel⟩,
      nameFree_of_oneBlock hone hnames, by decide⟩
  exact (roundTrip_iff wellFormed_sampleImage (roomy_quietEnv 0) (roomy_quietEnv 1) (quiet_quietEnv 0)
    (quiet_quietEnv 1) plain_nameF plain_nameG hat).mpr (by decide)

theorem letterA_ne_nul : (97 : UInt8) ≠ 0 := by decide

/-- A disk with an empty file whose entry stores a name of 27 bytes. -/
def fullNameImage : Fs :=
  imageOf 16 [2, 3, 4]
    [(2, (inodeOf (S_IFDIR ||| 0o777) 4096 [3]).toBlock),
      (3, Block.zero.setDirent 0 ⟨true, 4, fun i => (longName 97 letterA_ne_nul).bytes.getD i 0⟩),
      (4, (inodeOf (S_IFREG ||| 0o666) 0 []).toBlock)]

/-- Renaming there and back does not always change nothing: a name of 27 bytes comes back cut. -/
theorem roundTrip_false :
    ¬∀ env env' fs pathA pathB a b dir inum, env.Quiet → env'.Quiet → Mounted fs → WellFormed fs →
      DirBlocks (· = 1) fs.disk → Plain pathA → Plain pathB → BackAt fs pathA pathB a b dir inum →
        RoundTrip env env' fs pathA pathB := by
  intro h
  have hform : WellFormed fullNameImage := wellFormed_of_check (by decide +kernel)
  have hlayout : AllInodes (Layout (· = 1)) fullNameImage.disk := fun n hn => of_decide_eq_true
    (allInodes_of_inodeCheck (P := fun inode => decide (Layout (· = 1) inode)) (by decide +kernel) n hn)
  have hone : (inodeAt fullNameImage.disk 2).dirBlocks = 1 := by decide +kernel
  have hnames : ∀ s, (direntAt fullNameImage.disk 2 (0, s)).storedName ≠ nameG.bytes := by decide +kernel
  have hmode : S_ISDIR (inodeAt fullNameImage.disk 2).mode = true := by decide +kernel
  have hat : BackAt fullNameImage (joinPath [longName 97 letterA_ne_nul]) (joinPath [nameG]) (longName 97 letterA_ne_nul)
      nameG 2 4 :=
    ⟨⟨⟨[], pathparse_joinPath (by decide), rfl⟩, hmode⟩, ⟨⟨[], pathparse_joinPath (by decide), rfl⟩, hmode⟩,
      ⟨(0, 0), by decide +kernel⟩, nameFree_of_oneBlock hone hnames, by decide⟩
  have hround := h (quietEnv 0) (quietEnv 0) fullNameImage _ _ _ _ 2 4 (quiet_quietEnv 0) (quiet_quietEnv 0)
    (mounted_of_disk (by decide) (by decide) rfl) hform (dirBlocks_of_layout hlayout)
    (plain_longName 97 letterA_ne_nul (by decide)) plain_nameG hat (by decide +kernel) (by decide +kernel)
    (joinPath [longName 97 letterA_ne_nul])
  have hbefore : (fsGetattr (joinPath [longName 97 letterA_ne_nul]) (quietEnv 0) (.start fullNameImage)).1.isOk = true := by
    decide +kernel
  rw [← hround.getattr] at hbefore
  revert hbefore
  decide +kernel

end Fs5600
