import Fs5600.Making
import Fs5600.Naming
import Fs5600.Overwrite

/-! What `fs_create` and `fs_mkdir` leave, as the other requests see it. A creation that succeeds adds one
object and changes nothing else, as long as its name is not cut; one that finds no slot for the entry has
already set its bits. -/

namespace Fs5600

open Ownership Command

/-! ### Walks that still succeed -/

section Walks

variable {limits : Limits} {disk disk' : Nat → Block} {names : List CStr} {name : CStr} {st st' : WalkState}

theorem walkStepIn_of_walkStep (h : WalkStep limits disk st name st') :
    walkStepIn limits disk st name = .ok st' := by
  have hdots : dotdot ≠ dot := by decide
  cases h with
  | stay => rw [walkStepIn, if_pos rfl]
  | top hpos => rw [walkStepIn, if_neg hdots, if_pos rfl, if_neg (by omega)]
  | pop hpos => rw [walkStepIn, if_neg hdots, if_pos rfl, if_pos hpos]
  | push hname hchild hstack => exact walkStepIn_eq_ok_of_childIn hname hstack hchild

/-- A walk goes the same way on a disk where all lookups that succeeded still do. -/
theorem walkLoopIn_mono
    (hchild : ∀ n name m, (tree disk).Reach n → childIn disk n name = .ok m → childIn disk' n name = .ok m)
    (hstart : (tree disk).Reach st.current) (hstack : ∀ i, (tree disk).Reach (st.parentStack i))
    (h : walkLoopIn limits disk names st = .ok st') : walkLoopIn limits disk' names st = .ok st' := by
  induction names generalizing st with
  | nil => exact h
  | cons name rest ih =>
      obtain ⟨next, hstep, hloop⟩ := exceptBind_eq_ok h
      have hwalk := walkStep_of_eq_ok hstep
      have hsame : walkStepIn limits disk' st name = .ok next := by
        cases hwalk with
        | stay => exact walkStepIn_of_walkStep .stay
        | top hpos => exact walkStepIn_of_walkStep (.top hpos)
        | pop hpos => exact walkStepIn_of_walkStep (.pop hpos)
        | push hname hfound hroom => exact walkStepIn_of_walkStep (.push hname (hchild _ _ _ hstart hfound) hroom)
      rw [walkLoopIn, hsame]
      cases hwalk with
      | stay => exact ih hstart hstack hloop
      | top => exact ih hstart hstack hloop
      | pop =>
          exact @ih ⟨st.parentStack, st.stackPos - 1, st.parentStack (st.stackPos - 1)⟩ (hstack _) hstack hloop
      | push _ hfound =>
          refine ih (reach_of_childIn hstart hfound) (fun i => ?_) hloop
          by_cases hi : i = st.stackPos + 1
          · rw [hi]
            simpa using hstart
          · simpa only [Function.update_of_ne hi] using hstack i

theorem translateIn_mono
    (hchild : ∀ n name m, (tree disk).Reach n → childIn disk n name = .ok m → childIn disk' n name = .ok m)
    {path : CStr} {inum : Nat} {inode : Inode} (h : translateIn limits disk path = .ok (inum, inode)) :
    translateIn limits disk' path = .ok (inum, inodeAt disk' inum) := by
  obtain ⟨st, hwalk, hfound⟩ := exceptBind_eq_ok h
  obtain ⟨rfl, -⟩ := Prod.mk.inj (Except.ok.inj hfound)
  rw [translateIn, walkLoopIn_mono hchild .root (fun _ => .root) hwalk]
  rfl

end Walks

/-! ### The new object -/

/-- A request that makes an object of `need` blocks can succeed. -/
def CanCreate (fs : Fs) (path : CStr) (need : Nat) : Prop :=
  ∃ name dir, ParentAt fs.disk path name dir ∧ NameFree fs.disk dir name ∧ need ≤ (freeBits fs).card ∧
    HasUnused fs.disk dir

/-- The parent of the path is a directory that has the name already. -/
def AlreadyThere (fs : Fs) (path : CStr) : Prop :=
  ∃ name dir, ParentAt fs.disk path name dir ∧ ¬NameFree fs.disk dir name

/-- The parent of the path is a directory without the name, there are clear bits enough, but no unused slot. -/
def FullParent (fs : Fs) (path : CStr) (need : Nat) : Prop :=
  ∃ name dir, ParentAt fs.disk path name dir ∧ NameFree fs.disk dir name ∧ need ≤ (freeBits fs).card ∧
    ¬HasUnused fs.disk dir

/-- The path leads to a fresh object, its bits are set in both bitmaps, and whatever a path led to before is
as it was, but for the new name in the listing of the parent. -/
structure NewObject (need : Nat) (isNew : Inode → Prop) (env : Env) (fs fs' : Fs) (path : CStr) : Prop where
  fresh : ∃ inum, (translate path env (.start fs')).1 = .ok (inum, inodeAt fs'.disk inum) ∧
    isNew (inodeAt fs'.disk inum) ∧ bitTest fs.bitmap inum = false ∧ ¬(tree fs.disk).InUse inum ∧
    (S_ISDIR (inodeAt fs'.disk inum).mode = true → (fsReaddir path env (.start fs')).1 = .ok [])
  bits : ∃ claimed ⊆ freeBits fs, claimed.card = need ∧ ∀ b,
    bitTest fs'.bitmap b = (decide (b ∈ claimed) || bitTest fs.bitmap b) ∧
      bitTest (fs'.disk 1) b = (decide (b ∈ claimed) || bitTest (fs.disk 1) b)
  same : ∀ path' found, (translate path' env (.start fs)).1 = .ok found → SameFile env fs fs' path'
  listings : ∃ name dir, ParentAt fs.disk path name dir ∧
    ∀ path' inum inode, (translate path' env (.start fs)).1 = .ok (inum, inode) →
      (inum ≠ dir → (fsReaddir path' env (.start fs')).1 = (fsReaddir path' env (.start fs)).1) ∧
      (inum = dir → ∃ before after st, (fsReaddir path' env (.start fs)).1 = .ok (before ++ after) ∧
        (fsReaddir path' env (.start fs')).1 = .ok (before ++ (name.bytes, st) :: after))

section Created

variable {env : Env} {fs fs' : Fs} {dir inum : Nat} {slot : Slot} {path name : CStr} {inode : Inode}
  {claimed : List Nat}

theorem Created.terminated (h : Created fs fs' dir slot name inum inode claimed) (hterm : Terminated fs.disk) :
    Terminated fs'.disk := by
  intro n s l m hn he
  rcases h.adds.reach_iff.mp hn with hold | rfl
  · by_cases hhere : n = dir ∧ s = slot
    · obtain ⟨rfl, rfl⟩ := hhere
      obtain ⟨rfl, -⟩ := Prod.mk.inj (Option.some.inj (h.adds.added.symm.trans he))
      rw [List.length_take]
      exact (Nat.min_le_left _ _).trans_lt (by decide)
    · rw [h.adds.edge n s hold hhere] at he
      exact hterm n s l m hold he
  · cases (h.adds.leaf s).symm.trans he

theorem Created.wellNamed (h : Created fs fs' dir slot name inum inode claimed) (hnamed : WellNamed fs.disk)
    (hfits : inode.numBlocks ≤ numPtrs) (hfree : NameFree fs.disk dir name) (hshort : name.bytes.length ≤ 26) :
    WellNamed fs'.disk where
  fits := h.allInodes hnamed.fits hfits
  unique := h.adds.uniqueLabels hnamed.unique fun s m => by
    rw [List.take_of_length_le hshort]
    exact hfree s m
  terminated := h.terminated hnamed.terminated

theorem Created.childIn_eq (h : Created fs fs' dir slot name inum inode claimed) (hnamed : WellNamed fs.disk)
    (hnamed' : WellNamed fs'.disk) (n : Nat) (child : CStr) (m : Nat) (hn : (tree fs.disk).Reach n)
    (hchild : childIn fs.disk n child = .ok m) : childIn fs'.disk n child = .ok m := by
  obtain ⟨s, hedge⟩ := (hnamed.childIn_eq_ok_iff hn).mp hchild
  exact (hnamed'.childIn_eq_ok_iff (h.adds.reach_iff.mpr (Or.inl hn))).mpr ⟨s, h.adds.edge_of_edge hn hedge⟩

theorem Created.listing_of_ne (h : Created fs fs' dir slot name inum inode claimed) {n : Nat}
    (hn : (tree fs.disk).Reach n) (hne : n ≠ dir) : listing fs'.disk n = listing fs.disk n :=
  listing_congr (funext fun s => h.adds.edge n s hn fun hhere => hne hhere.1)
    fun _ _ m hedge => h.inodes m (hn.step hedge)

/-- The listing of the parent shows one entry more. -/
theorem Created.listing_parent (h : Created fs fs' dir slot name inum inode claimed) :
    ∃ before after, listing fs.disk dir = before ++ after ∧
      listing fs'.disk dir = before ++ (name.bytes.take 26, setstat (inodeAt fs'.disk inum)) :: after :=
  listing_insert h.adds.free h.adds.added
    (fun s hs => h.adds.edge dir s h.adds.parent fun hhere => hs hhere.2)
    fun _ _ m hedge => h.inodes m (h.adds.parent.step hedge)

/-- The new object has no entries. -/
theorem Created.listing_new (h : Created fs fs' dir slot name inum inode claimed) : listing fs'.disk inum = [] :=
  List.filterMap_eq_nil_iff.mpr fun s _ => by rw [h.adds.leaf s, Option.map_none]

/-- A name that is not cut is found. -/
theorem Created.translateIn_new (h : Created fs fs' dir slot name inum inode claimed) (hpath : Plain path)
    {limits : Limits} (hlimits : Roomy limits) (hnamed' : WellNamed fs'.disk) (hat : ParentAt fs.disk path name dir)
    (hshort : name.bytes.length ≤ 26) : translateIn limits fs'.disk path = .ok (inum, inodeAt fs'.disk inum) := by
  obtain ⟨init, hsplit, hinit⟩ := hat.leads
  rw [hpath.translateIn_eq_ok_iff hlimits hnamed']
  refine ⟨h.adds.leads_root_iff.mpr (Or.inr ⟨rfl, labels init, ?_, hinit⟩), rfl⟩
  rw [hsplit, labels, List.map_append, List.take_of_length_le hshort]
  rfl

theorem newObject_of_created {need : Nat} {isNew : Inode → Prop} (hquiet : env.Quiet) (hlimits : Roomy env.limits)
    (hpath : Plain path) (h : WellFormed fs) (hsaved : fs.disk 1 = fs.bitmap)
    (hat : ParentAt fs.disk path name dir) (hfree : NameFree fs.disk dir name) (hshort : name.bytes.length ≤ 26)
    (hfits : inode.numBlocks ≤ numPtrs) (hcount : claimed.length = need) (hnew : isNew inode)
    (hcreated : Created fs fs' dir slot name inum inode claimed) : NewObject need isNew env fs fs' path := by
  have hnamed := h.toWellNamed
  have hnamed' := hcreated.wellNamed hnamed hfits hfree hshort
  have hinum : inum ∈ claimed := (hcreated.claimed_iff inum).mpr (Or.inl rfl)
  have htranslate : ∀ {path' : CStr} {n : Nat} {inode' : Inode},
      (translate path' env (.start fs)).1 = .ok (n, inode') → (tree fs.disk).Reach n ∧
        translateIn env.limits fs.disk path' = .ok (n, inodeAt fs.disk n) ∧
        translateIn env.limits fs'.disk path' = .ok (n, inodeAt fs.disk n) := by
    intro path' n inode' hold
    rw [translate_value hquiet] at hold
    obtain ⟨hn, rfl⟩ := reach_of_translateIn hold
    refine ⟨hn, hold, ?_⟩
    rw [translateIn_mono (hcreated.childIn_eq hnamed hnamed') hold, hcreated.inodes n hn]
  have hfound := hcreated.translateIn_new hpath hlimits hnamed' hat hshort
  refine ⟨⟨inum, (translate_value hquiet path).trans hfound, hcreated.new ▸ hnew, hcreated.claimable.clear inum hinum,
      hcreated.claimable.not_inUse h.toSound hinum, fun hmode => ?_⟩,
    ⟨claimed.toFinset, fun b hb => ?_, ?_, fun b => ?_⟩, ?_, ?_⟩
  · rw [fsReaddir_value hquiet hnamed', readdirIn, hfound]
    simp only [bind, Except.bind]
    rw [if_neg (by simp [hmode]), hcreated.listing_new]
  · have hb' := List.mem_toFinset.mp hb
    obtain ⟨hle, hlt, hbits⟩ := hcreated.claimable.range b hb'
    exact mem_freeBits.mpr ⟨hle, hlt, hbits, hcreated.claimable.clear b hb'⟩
  · rw [List.toFinset_card_of_nodup hcreated.claimable.nodup, hcount]
  · rw [hcreated.saved, hsaved, hcreated.bitTest]
    simp only [List.mem_toFinset, and_self]
  · rintro path' ⟨n, inode'⟩ hold
    obtain ⟨hn, hbefore, hafter⟩ := htranslate hold
    exact sameFile_of_translateIn hquiet hbefore hafter
      (data_of_keepsBut h.exclusive hat.reach hcreated.hasSlot hcreated.disk hn)
  · refine ⟨name, dir, hat, fun path' n inode' hold => ?_⟩
    obtain ⟨hn, hbefore, hafter⟩ := htranslate hold
    rw [fsReaddir_value hquiet hnamed, fsReaddir_value hquiet hnamed', readdirIn, readdirIn, hbefore, hafter]
    simp only [bind, Except.bind]
    refine ⟨fun hne => by rw [hcreated.listing_of_ne hn hne], ?_⟩
    rintro rfl
    obtain ⟨before, after, hlist, hlist'⟩ := hcreated.listing_parent
    rw [List.take_of_length_le hshort] at hlist'
    refine ⟨before, after, setstat (inodeAt fs'.disk inum), ?_, ?_⟩
    · rw [if_neg (by simp [hat.mode]), hlist]
    · rw [if_neg (by simp [hat.mode]), hlist']

end Created

/-! ### Success and failure -/

section Making

variable {need : Nat} {full : Errno} {isNew : Inode → Prop} {env : Env} {fs fs' : Fs} {path : CStr}
  {value : Except Stop Int}

/-- A creation succeeds where it can, and nowhere else. -/
theorem Making.ok_iff (h : Making need full isNew fs path value fs') (huniq : (tree fs.disk).UniqueLabels) :
    value = .ok 0 ↔ CanCreate fs path need := by
  cases h with
  | noParent _ hnot => exact iff_of_false (by simp) fun ⟨name, dir, hat, _⟩ => hnot name dir hat
  | there hat hname =>
      refine iff_of_false (by simp) fun ⟨name', dir', hat', hfree, _⟩ => ?_
      obtain ⟨rfl, rfl⟩ := hat.unique hat' huniq
      exact hname hfree
  | noSpace _ _ hspace _ => exact iff_of_false (by simp) fun ⟨_, _, _, _, henough, _⟩ => absurd henough (by omega)
  | full hat _ _ _ hfull _ =>
      refine iff_of_false (by simp) fun ⟨name', dir', hat', _, _, hunused⟩ => ?_
      obtain ⟨rfl, rfl⟩ := hat.unique hat' huniq
      exact hfull hunused
  | done hat hname hcount hunused _ hcreated =>
      exact iff_of_true rfl ⟨_, _, hat, hname, hcount ▸ hcreated.claimable.length_le_freeBits, hunused⟩

/-- The error for a name that is there is returned for nothing else. -/
theorem Making.there_iff (h : Making need full isNew fs path value fs') (hfull : full ≠ .EEXIST)
    (huniq : (tree fs.disk).UniqueLabels) : value = .error (.errno .EEXIST) ↔ AlreadyThere fs path := by
  have hnot : ∀ name dir, ParentAt fs.disk path name dir → NameFree fs.disk dir name → ¬AlreadyThere fs path := by
    rintro name dir hat hfree ⟨name', dir', hat', hname⟩
    obtain ⟨rfl, rfl⟩ := hat.unique hat' huniq
    exact hname hfree
  cases h with
  | noParent hreason hnone =>
      refine iff_of_false (fun heq => ?_) fun ⟨name, dir, hat, _⟩ => hnone name dir hat
      rcases hreason with rfl | rfl | rfl <;> cases heq
  | there hat hname => exact iff_of_true rfl ⟨_, _, hat, hname⟩
  | noSpace hat hname _ hreason =>
      refine iff_of_false (fun heq => ?_) (hnot _ _ hat hname)
      rcases hreason with rfl | rfl <;> cases heq
  | full hat hname => exact iff_of_false (by simpa using hfull) (hnot _ _ hat hname)
  | done hat hname => exact iff_of_false (by simp) (hnot _ _ hat hname)

theorem Making.created (h : Making need full isNew fs path value fs') (hvalue : value = .ok 0) :
    ∃ name dir inum slot inode claimed, ParentAt fs.disk path name dir ∧ NameFree fs.disk dir name ∧
      claimed.length = need ∧ isNew inode ∧ Created fs fs' dir slot name inum inode claimed := by
  cases h with
  | done hat hname hcount _ hnew hcreated => exact ⟨_, _, _, _, _, _, hat, hname, hcount, hnew, hcreated⟩
  | _ => cases hvalue

theorem ShortName.length_le {name : CStr} {dir : Nat} (hshort : ShortName path) (hpath : Plain path)
    (hat : ParentAt fs.disk path name dir) : name.bytes.length ≤ 26 := by
  obtain ⟨init, hsplit, -⟩ := hat.leads
  exact hshort init name (hpath.resolvePath.trans hsplit)

/-- A creation succeeds exactly where it can, fails with `-EEXIST` exactly where the name is there, and adds
one object and nothing else. -/
structure CreatesExactly (need : Nat) (isNew : Inode → Prop) (env : Env) (fs : Fs) (path : CStr) (op : Op) :
    Prop where
  success : (op.run env fs).1 = .ok 0 ↔ CanCreate fs path need
  there : (op.run env fs).1 = .error (.errno .EEXIST) ↔ AlreadyThere fs path
  object : (op.run env fs).1 = .ok 0 → NewObject need isNew env fs (op.run env fs).2.fs path

theorem Making.createsExactly {op : Op} (h : Making need full isNew fs path (op.run env fs).1 (op.run env fs).2.fs)
    (hfull : full ≠ .EEXIST) (hform : WellFormed fs) (hsaved : fs.disk 1 = fs.bitmap) (hlimits : Roomy env.limits)
    (hquiet : env.Quiet) (hpath : Plain path) (hshort : ShortName path)
    (hfits : ∀ inode, isNew inode → inode.numBlocks ≤ numPtrs) : CreatesExactly need isNew env fs path op := by
  refine ⟨h.ok_iff hform.unique, h.there_iff hfull hform.unique, fun hvalue => ?_⟩
  obtain ⟨name, dir, inum, slot, inode, claimed, hat, hname, hcount, hnew, hcreated⟩ := h.created hvalue
  exact newObject_of_created hquiet hlimits hpath hform hsaved hat hname (hshort.length_le hpath hat)
    (hfits inode hnew) hcount hnew hcreated

end Making

section Requests

variable {env : Env} {fs : Fs} {path : CStr}

/-- `fs_create` and `fs_mkdir` create exactly. -/
theorem creates_exactly (h : WellFormed fs) (hsaved : fs.disk 1 = fs.bitmap) (hlimits : Roomy env.limits)
    (hquiet : env.Quiet) (hpath : Plain path) (hshort : ShortName path) (mode : UInt32) :
    CreatesExactly 1 (· = newInode env mode) env fs path (.create path mode) ∧
      CreatesExactly 2 (fun inode => ∃ block, inode = newDirInode env mode block) env fs path (.mkdir path mode) ∧
      (S_ISDIR (S_IFDIR ||| mode) = true → (Op.run (.mkdir path mode) env fs).1 = .ok 0 →
        (fsReaddir path env (.start (Op.run (.mkdir path mode) env fs).2.fs)).1 = .ok []) := by
  have hmkdir : CreatesExactly 2 (fun inode => ∃ block, inode = newDirInode env mode block) env fs path
      (.mkdir path mode) := by
    refine (making_mkdir h hlimits hquiet hpath mode).createsExactly (by decide) h hsaved hlimits hquiet hpath hshort ?_
    rintro inode ⟨block, rfl⟩
    rw [numBlocks_newDirInode]
    decide
  refine ⟨?_, hmkdir, fun hmode hvalue => ?_⟩
  · refine (making_create h hlimits hquiet hpath mode).createsExactly (by decide) h hsaved hlimits hquiet hpath
      hshort ?_
    rintro inode rfl
    rw [numBlocks_newInode]
    decide
  · obtain ⟨inum, -, ⟨block, hinode⟩, -, -, hempty⟩ := (hmkdir.object hvalue).fresh
    exact hempty (hinode ▸ hmode)

end Requests

/-- Creating `g` on the sample disk. -/
theorem creates_exactly_sampleImage :
    CreatesExactly 1 (· = newInode (quietEnv 0) 0o777) (quietEnv 0) sampleImage (joinPath [nameG])
      (.create (joinPath [nameG]) 0o777) :=
  (creates_exactly wellFormed_sampleImage rfl (roomy_quietEnv 0) (quiet_quietEnv 0) plain_nameG shortName_nameG
    0o777).1

/-! ### Creations that fail -/

/-- The bitmap, the stored bitmap and the blocks in use are as they were. -/
structure Untouched (fs fs' : Fs) : Prop where
  bitmap : fs'.bitmap = fs.bitmap
  saved : fs'.disk 1 = fs.disk 1
  disk : ∀ b, (tree fs.disk).InUse b → fs'.disk b = fs.disk b

/-- A request that returns an error changes nothing. -/
def FailsClean (env : Env) (fs : Fs) (op : Op) : Prop :=
  ∀ errno, (op.run env fs).1 = .error (.errno errno) → Untouched fs (op.run env fs).2.fs

section Failure

variable {need : Nat} {full : Errno} {isNew : Inode → Prop} {env : Env} {fs : Fs} {path : CStr} {op : Op}

/-- A failed creation changes nothing exactly where the parent is not full: a full parent is noticed when the
bits are set. -/
theorem Making.clean_iff (h : Making need full isNew fs path (op.run env fs).1 (op.run env fs).2.fs)
    (hneed : 0 < need) (huniq : (tree fs.disk).UniqueLabels) :
    FailsClean env fs op ↔ ¬FullParent fs path need := by
  unfold FailsClean
  generalize (op.run env fs).1 = value at h
  generalize (op.run env fs).2.fs = fs' at h
  cases h with
  | noParent hreason hnot =>
      exact iff_of_true (fun _ _ => ⟨rfl, rfl, fun _ _ => rfl⟩) fun ⟨name, dir, hat, _⟩ => hnot name dir hat
  | there hat hname =>
      refine iff_of_true (fun _ _ => ⟨rfl, rfl, fun _ _ => rfl⟩) fun ⟨name', dir', hat', hfree, _⟩ => ?_
      obtain ⟨rfl, rfl⟩ := hat.unique hat' huniq
      exact hname hfree
  | noSpace hat hname hspace hreason =>
      exact iff_of_true (fun _ _ => ⟨rfl, rfl, fun _ _ => rfl⟩) fun ⟨_, _, _, _, henough, _⟩ =>
        absurd henough (by omega)
  | @full name dir claimed _ hat hname hclaim hcount hfull hbitmap =>
      have hnonempty : claimed ≠ [] := List.ne_nil_of_length_pos (hcount ▸ hneed)
      refine iff_of_false (fun hclean => ?_) fun hnot => ?_
      · exact setAll_ne hclaim hnonempty (hbitmap.symm.trans (hclean _ rfl).bitmap)
      · exact hnot ⟨name, dir, hat, hname, hcount ▸ hclaim.length_le_freeBits, hfull⟩
  | done hat hname hcount hunused hnew hcreated =>
      refine iff_of_true (fun _ herror => by cases herror) fun ⟨name', dir', hat', _, _, hfull⟩ => ?_
      obtain ⟨rfl, rfl⟩ := hat.unique hat' huniq
      exact hfull hunused

/-- Failed creations change nothing exactly where the parent is not full. -/
theorem failsClean_iff (h : WellFormed fs) (hlimits : Roomy env.limits) (hquiet : env.Quiet) (hpath : Plain path)
    (mode : UInt32) :
    (FailsClean env fs (.create path mode) ↔ ¬FullParent fs path 1) ∧
      (FailsClean env fs (.mkdir path mode) ↔ ¬FullParent fs path 2) :=
  ⟨(making_create h hlimits hquiet hpath mode).clean_iff (by decide) h.unique,
    (making_mkdir h hlimits hquiet hpath mode).clean_iff (by decide) h.unique⟩

end Failure

/-- Creating the file `f` of the sample disk once more fails, and changes nothing: the root directory is not full. -/
theorem failsClean_iff_sampleImage :
    (Op.run (.create (joinPath [nameF]) 0o777) (quietEnv 0) sampleImage).1 = .error (.errno .EEXIST) ∧
      Untouched sampleImage (Op.run (.create (joinPath [nameF]) 0o777) (quietEnv 0) sampleImage).2.fs := by
  have hvalue : (Op.run (.create (joinPath [nameF]) 0o777) (quietEnv 0) sampleImage).1 = .error (.errno .EEXIST) := by
    decide +kernel
  have hfull : ¬FullParent sampleImage (joinPath [nameF]) 1 := by
    rintro ⟨name, dir, hat, -, -, hnot⟩
    obtain ⟨init, hsplit, hleads⟩ := hat.leads
    rw [pathparse_nameF] at hsplit
    have hsplit' : [] ++ [nameF] = init ++ [name] := hsplit
    obtain ⟨rfl, -⟩ := List.append_inj' hsplit' rfl
    obtain rfl : 2 = dir := hleads
    exact hnot ⟨(0, 5), ⟨hat.mode, by decide +kernel⟩, by decide +kernel⟩
  exact ⟨hvalue, (failsClean_iff wellFormed_sampleImage (roomy_quietEnv 0) (quiet_quietEnv 0) plain_nameF 0o777).1.mpr hfull
    _ hvalue⟩

/-- A block of 128 valid entries: entry `i` has a name of one byte and leads to inode `4 + i`. -/
def fullBlock : Block := Block.ofBytes fun offset =>
  if offset % 32 < 4 then Words.byteOf (2 * (4 + offset / 32) + 1) (offset % 32)
  else if offset % 32 = 4 then UInt8.ofNat (128 + offset / 32)
  else 0

def fullMap : Block := Block.ofBytes fun offset => if offset < 17 then 255 else 0

/-- A disk whose root directory has 128 empty files and no unused slot. -/
def fullImage : Fs where
  diskSize := 256
  bitmap := fullMap
  disk lba :=
    if lba = 0 then superOf 256
    else if lba = 1 then fullMap
    else if lba = 2 then (inodeOf (S_IFDIR ||| 0o777) 4096 [3]).toBlock
    else if lba = 3 then fullBlock
    else if lba < 132 then (inodeOf (S_IFREG ||| 0o666) 0 []).toBlock
    else Block.zero

theorem fullParent_fullImage : FullParent fullImage (joinPath [nameF]) 1 := by
  have hvalid : ∀ s, (direntAt fullImage.disk 2 (0, s)).valid = true := by decide +kernel
  have hnames : ∀ s, (direntAt fullImage.disk 2 (0, s)).storedName ≠ nameF.bytes := by decide +kernel
  have hone : (inodeAt fullImage.disk 2).dirBlocks = 1 := by decide +kernel
  refine ⟨nameF, 2, ⟨⟨[], pathparse_nameF, rfl⟩, by decide +kernel⟩, nameFree_of_oneBlock hone hnames,
    by decide +kernel, fun ⟨slot, hslot, hnone⟩ => ?_⟩
  rw [edge_eq_none_iff hslot, slot_of_oneBlock hone hslot, hvalid] at hnone
  cases hnone

/-- Failed creations do not always change nothing: `fs_create` in a full directory leaves a bit set. -/
theorem failsClean_false :
    ¬∀ env fs path mode, env.Quiet → Mounted fs → WellFormed fs → fs.disk 1 = fs.bitmap → Plain path →
      FailsClean env fs (.create path mode) := by
  intro h
  have hform : WellFormed fullImage := wellFormed_of_check (by decide +kernel)
  have hclean := h (quietEnv 0) fullImage (joinPath [nameF]) (S_IFREG ||| 0o666) (quiet_quietEnv 0)
    (mounted_of_disk (by decide +kernel) (by decide +kernel) rfl) hform rfl plain_nameF
  exact ((making_create hform (roomy_quietEnv 0) (quiet_quietEnv 0) plain_nameF _).clean_iff (by decide)
    hform.unique).mp hclean fullParent_fullImage

/-! ### What a new object shows -/

/-- The path leads to an object of the caller's user and group, with this mode and size. -/
def Shows (env : Env) (fs : Fs) (path : CStr) (mode : UInt32) (size : Int) : Prop :=
  ∃ st, (fsGetattr path env (.start fs)).1 = .ok st ∧ st.uid.toNat = env.uid.toNat ∧ st.gid.toNat = env.gid.toNat ∧
    st.mode = mode ∧ st.size = size

/-- A creation that succeeds is seen under its path. -/
def ShowsNew (env : Env) (fs : Fs) (path : CStr) (mode : UInt32) (size : Int) (op : Op) : Prop :=
  (op.run env fs).1 = .ok 0 → Shows env (op.run env fs).2.fs path mode size

/-- The inode has the attributes of a new object, with user and group cut to 16 bits. -/
structure Stamped (env : Env) (mode : UInt32) (size : Int) (inode : Inode) : Prop where
  uid : inode.uid = env.uid.toUInt16
  gid : inode.gid = env.gid.toUInt16
  mode : inode.mode = mode
  size : inode.size.toInt = size

section Shows

variable {need : Nat} {full : Errno} {isNew : Inode → Prop} {env : Env} {fs fs' : Fs} {path name : CStr} {op : Op}
  {dir inum : Nat} {slot : Slot} {inode : Inode} {claimed : List Nat} {mode : UInt32} {size : Int}

theorem toNat_toUInt16_eq_iff (n : UInt32) : n.toUInt16.toNat = n.toNat ↔ n.toNat < 65536 := by
  rw [UInt32.toNat_toUInt16]
  omega

/-- A name that was cut is not found. -/
theorem Created.not_leads_of_long (h : Created fs fs' dir slot name inum inode claimed) (hnamed : WellNamed fs.disk)
    (hpath : Plain path) (hat : ParentAt fs.disk path name dir) (hfree : NameFree fs.disk dir name)
    (hlong : 26 < name.bytes.length) (limits : Limits) (m : Nat) (inode' : Inode) :
    translateIn limits fs'.disk path ≠ .ok (m, inode') := by
  intro hfound
  obtain ⟨init, hsplit, hinit⟩ := hat.leads
  have hleads := leads_of_descend (translateIn_eq_ok hpath.names hfound).1
  have hlabels : labels (pathparse path) = labels init ++ [name.bytes] := by
    rw [hsplit, labels, List.map_append]
    rfl
  rw [hlabels] at hleads
  rcases h.adds.leads_root_iff.mp hleads with hold | ⟨-, init', heq, -⟩
  · obtain ⟨dir', s, hdir', hedge⟩ := Graph.leads_snoc.mp hold
    obtain rfl := hnamed.unique.leads_unique .root hdir' hinit
    exact hfree s m hedge
  · have hcut : name.bytes = name.bytes.take 26 := by simpa using (List.append_inj' heq rfl).2
    rw [hcut, List.length_take] at hlong
    omega

theorem shows_iff (hquiet : env.Quiet) (hstamped : Stamped env mode size inode)
    (hfound : translateIn env.limits fs'.disk path = .ok (inum, inode)) :
    Shows env fs' path mode size ↔ env.uid.toNat < 65536 ∧ env.gid.toNat < 65536 := by
  rw [← toNat_toUInt16_eq_iff, ← toNat_toUInt16_eq_iff, ← hstamped.uid, ← hstamped.gid]
  have hget : (fsGetattr path env (.start fs')).1 = .ok (setstat inode) := by
    rw [fsGetattr_value hquiet, hfound]
    rfl
  constructor
  · rintro ⟨st, hst, huid, hgid, -, -⟩
    obtain rfl := Except.ok.inj (hget.symm.trans hst)
    exact ⟨huid, hgid⟩
  · rintro ⟨huid, hgid⟩
    exact ⟨_, hget, huid, hgid, hstamped.mode, hstamped.size⟩

/-- A new object shows exactly where its name is not cut and the caller's ids fit the inode. -/
theorem Making.seen_iff (h : Making need full isNew fs path (op.run env fs).1 (op.run env fs).2.fs)
    (hform : WellFormed fs) (hlimits : Roomy env.limits) (hquiet : env.Quiet) (hpath : Plain path)
    (hfits : ∀ inode, isNew inode → inode.numBlocks ≤ numPtrs)
    (hstamped : ∀ inode, isNew inode → Stamped env mode size inode) :
    ShowsNew env fs path mode size op ↔
      (CanCreate fs path need → ShortName path ∧ env.uid.toNat < 65536 ∧ env.gid.toNat < 65536) := by
  by_cases hcan : CanCreate fs path need
  swap
  · exact iff_of_true (fun hvalue => absurd ((h.ok_iff hform.unique).mp hvalue) hcan) fun hcan' => absurd hcan' hcan
  have hvalue := (h.ok_iff hform.unique).mpr hcan
  obtain ⟨name, dir, inum, slot, inode, claimed, hat, hfree, -, hnew, hcreated⟩ := h.created hvalue
  have hfound : name.bytes.length ≤ 26 →
      translateIn env.limits (op.run env fs).2.fs.disk path = .ok (inum, inode) := fun hle => by
    rw [hcreated.translateIn_new hpath hlimits
      (hcreated.wellNamed hform.toWellNamed (hfits inode hnew) hfree hle) hat hle, hcreated.new]
  constructor
  · intro hshow _
    obtain ⟨st, hget, hst⟩ := hshow hvalue
    have hle : name.bytes.length ≤ 26 := by
      by_contra hlong
      rw [fsGetattr_value hquiet] at hget
      obtain ⟨⟨m, inode'⟩, hmap, -⟩ := exceptBind_eq_ok hget
      exact hcreated.not_leads_of_long hform.toWellNamed hpath hat hfree (not_le.mp hlong) _ m inode' hmap
    refine ⟨fun init last hsplit => ?_, (shows_iff hquiet (hstamped inode hnew) (hfound hle)).mp ⟨st, hget, hst⟩⟩
    obtain ⟨init', hsplit', -⟩ := hat.leads
    rw [hpath.resolvePath] at hsplit
    obtain ⟨-, hlast⟩ := List.append_inj' (hsplit.symm.trans hsplit') rfl
    obtain rfl : last = name := by simpa using hlast
    exact hle
  · intro hcond _
    obtain ⟨hshort, hids⟩ := hcond hcan
    exact (shows_iff hquiet (hstamped inode hnew) (hfound (hshort.length_le hpath hat))).mpr hids

/-- New objects show exactly where their names are not cut and the caller's ids fit the inode. -/
theorem showsNew_iff (h : WellFormed fs) (hlimits : Roomy env.limits) (hquiet : env.Quiet) (hpath : Plain path)
    (mode : UInt32) :
    (ShowsNew env fs path mode 0 (.create path mode) ↔
        (CanCreate fs path 1 → ShortName path ∧ env.uid.toNat < 65536 ∧ env.gid.toNat < 65536)) ∧
      (ShowsNew env fs path (S_IFDIR ||| mode) 4096 (.mkdir path mode) ↔
        (CanCreate fs path 2 → ShortName path ∧ env.uid.toNat < 65536 ∧ env.gid.toNat < 65536)) := by
  constructor
  · refine (making_create h hlimits hquiet hpath mode).seen_iff h hlimits hquiet hpath ?_ ?_ <;> rintro inode rfl
    · rw [numBlocks_newInode]
      decide
    · exact ⟨rfl, rfl, rfl, rfl⟩
  · refine (making_mkdir h hlimits hquiet hpath mode).seen_iff h hlimits hquiet hpath ?_ ?_ <;>
      rintro inode ⟨block, rfl⟩
    · rw [numBlocks_newDirInode]
      decide
    · exact ⟨rfl, rfl, rfl, rfl⟩

end Shows

/-- Creating `g` on the sample disk shows. -/
theorem showsNew_iff_sampleImage :
    ShowsNew (quietEnv 0) sampleImage (joinPath [nameG]) 0o777 0 (.create (joinPath [nameG]) 0o777) :=
  (showsNew_iff wellFormed_sampleImage (roomy_quietEnv 0) (quiet_quietEnv 0) plain_nameG 0o777).1.mpr
    fun _ => ⟨shortName_nameG, by decide, by decide⟩

/-- New objects do not always show: a name of 27 bytes is cut, and `fs_getattr` does not find it. -/
theorem showsNew_false :
    ¬∀ env fs path mode, env.Quiet → Mounted fs → WellFormed fs → Plain path →
      ShowsNew env fs path mode 0 (.create path mode) := by
  intro h
  have hplain := plain_longName 98 (by decide) (by decide)
  have hshow := h (quietEnv 0) sampleImage _ (S_IFREG ||| 0o666) (quiet_quietEnv 0) mounted_sampleImage wellFormed_sampleImage hplain
  have hvalue : (createLong.run (quietEnv 0) sampleImage).1 = .ok 0 := by
    decide +kernel
  have hget : (fsGetattr (joinPath [longName 98 (by decide)]) (quietEnv 0)
      (.start (createLong.run (quietEnv 0) sampleImage).2.fs)).1 =
        .error (.errno .ENOENT) := by decide +kernel
  obtain ⟨st, hst, -⟩ := hshow hvalue
  cases hget.symm.trans hst

end Fs5600
