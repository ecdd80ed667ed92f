import Fs5600.Crash

/-! Names of entries. `strncpy` cuts a name to 26 bytes, but the operations look for an entry with the whole
name before they store it: two long names with the same first 26 bytes become two equal entries. -/

namespace Fs5600

open Ownership Command Run

/-- A request that adds, removes or renames an entry. -/
def Op.EditsEntries : Op → Prop
  | .create _ _ | .mkdir _ _ | .rename _ _ | .unlink _ | .rmdir _ => True
  | _ => False

/-- There are clear bits and an unused slot for a new name, the name is cut, and what is left of it is the name of an
entry of the directory. -/
def CreateClashes (limits : Limits) (fs : Fs) (path : CStr) (need : Nat) : Prop :=
  ∃ name dir slot inum, CreateAt limits fs path name dir ∧
    (∃ claimed, Claimable fs claimed ∧ claimed.length = need) ∧
    (∃ unused, HasSlot fs.disk dir unused ∧ (tree fs.disk).edge dir unused = none) ∧
    26 < name.bytes.length ∧ (tree fs.disk).edge dir slot = some (name.bytes.take 26, inum)

/-- Both paths lie in one directory, which has the source and is not seen to have the destination; the new name is cut,
and what is left of it is the name of another entry of the directory. -/
def RenameClashes (fs : Fs) (srcPath dstPath : CStr) : Prop :=
  ∃ initSrc initDst src dst dir slot slot' inum inum', resolvePath (pathparse srcPath) = initSrc ++ [src] ∧
    resolvePath (pathparse dstPath) = initDst ++ [dst] ∧ descend fs.disk 2 initSrc = .ok dir ∧
    descend fs.disk 2 initDst = .ok dir ∧ (tree fs.disk).edge dir slot = some (src.bytes, inum) ∧
    Unnamed fs.disk dir src dst (slot.1.val + 1) ∧ 26 < dst.bytes.length ∧ slot' ≠ slot ∧
    (tree fs.disk).edge dir slot' = some (dst.bytes.take 26, inum')

/-- The request gives an entry the name that another entry of its directory has. -/
def Op.Clashes (limits : Limits) (fs : Fs) : Op → Prop
  | .create path _ => CreateClashes limits fs path 1
  | .mkdir path _ => CreateClashes limits fs path 2
  | .rename srcPath dstPath => RenameClashes fs srcPath dstPath
  | _ => False

section Labels

variable {env : Env} {fs fs' : Fs} {op : Op}

/-- The name that `fs_create` or `fs_mkdir` stores is not in the directory, unless it clashes. -/
theorem CreateAt.edge_ne {limits : Limits} {path name : CStr} {dir new : Nat} {unused : Slot} {inode : Inode}
    {claimed : List Nat} (hat : CreateAt limits fs path name dir)
    (hcreated : Created fs fs' dir unused name new inode claimed)
    (hclash : ¬CreateClashes limits fs path claimed.length) (slot : Slot) (inum : Nat) :
    (tree fs.disk).edge dir slot ≠ some (name.bytes.take 26, inum) := by
  intro hedge
  by_cases hlong : 26 < name.bytes.length
  · have hslot : HasSlot fs.disk dir unused := by
      have hslot' := (tree_edge_eq_some.mp hcreated.adds.added).1
      rw [HasSlot, hcreated.inodes dir hat.reach] at hslot'
      exact hslot'
    exact hclash ⟨name, dir, slot, inum, hat, ⟨claimed, hcreated.claimable, rfl⟩, ⟨unused, hslot, hcreated.adds.free⟩,
      hlong, hedge⟩
  · rw [List.take_of_length_le (not_lt.mp hlong)] at hedge
    exact edge_ne_of_search hat.search slot inum hedge

/-- The name that `fs_rename` stores is that of no other entry of the directory, unless it clashes. -/
theorem Renamed.edge_ne {srcPath dstPath src dst : CStr} {initSrc initDst : List CStr} {dir inum : Nat} {slot : Slot}
    (hrenamed : Renamed fs fs' dir slot src dst inum) (huniq : (tree fs.disk).UniqueLabels)
    (hdirs : DirBlocks (· = 1) fs.disk) (hsrc : resolvePath (pathparse srcPath) = initSrc ++ [src])
    (hdst : resolvePath (pathparse dstPath) = initDst ++ [dst]) (hsrcParent : descend fs.disk 2 initSrc = .ok dir)
    (hparent : descend fs.disk 2 initDst = .ok dir)
    (hfree : Unnamed fs.disk dir src dst (slot.1.val + 1)) (hclash : ¬RenameClashes fs srcPath dstPath)
    (slot' : Slot) (inum' : Nat) (hne : slot' ≠ slot) :
    (tree fs.disk).edge dir slot' ≠ some (dst.bytes.take 26, inum') := by
  intro hedge
  by_cases hlong : 26 < dst.bytes.length
  · exact hclash ⟨initSrc, initDst, src, dst, dir, slot, slot', inum, inum', hsrc, hdst, hsrcParent, hparent,
      hrenamed.before, hfree, hlong, hne, hedge⟩
  · rw [List.take_of_length_le (not_lt.mp hlong)] at hedge
    obtain ⟨⟨hmode, hslot⟩, hentry⟩ := tree_edge_eq_some.mp hedge
    obtain ⟨hvalid, hname, -⟩ := Dirent.edge_eq_some.mp hentry
    have hone : (inodeAt fs.disk dir).numBlocks = 1 := hdirs dir hrenamed.reach hmode
    have hfirst : slot'.1.val < slot.1.val + 1 := by
      have := hslot.trans_le (Inode.dirBlocks_le_numBlocks _)
      omega
    rcases hfree slot' hfirst hvalid with hsame | hother
    · rw [hname.symm.trans hsame] at hedge
      exact hne (huniq _ _ _ _ _ _ hrenamed.reach hedge hrenamed.before)
    · exact hother hname

/-- The write that takes effect keeps the names unique, unless they clash. -/
theorem Commit.uniqueLabels (h : Commit env fs fs' op)
    (hdirs : (∃ srcPath dstPath, op = .rename srcPath dstPath) → DirBlocks (· = 1) fs.disk)
    (hclash : ¬op.Clashes env.limits fs) (huniq : (tree fs.disk).UniqueLabels) : (tree fs'.disk).UniqueLabels := by
  cases h with
  | create hat hcreated hcount => exact hcreated.adds.uniqueLabels huniq (hat.edge_ne hcreated (hcount ▸ hclash))
  | mkdir hat hcreated hcount => exact hcreated.adds.uniqueLabels huniq (hat.edge_ne hcreated (hcount ▸ hclash))
  | unlink hnames hfile hdetached hbitmap hsize => exact hdetached.removes.uniqueLabels huniq
  | rmdir hat hnames hdetached hbitmap hsize => exact hdetached.removes.uniqueLabels huniq
  | rename hdst hparent hfree hrenamed hsrc hsrcParent =>
      exact hrenamed.relabels.uniqueLabels huniq hrenamed.after hrenamed.edge
        (hrenamed.edge_ne huniq (hdirs ⟨_, _, rfl⟩) hsrc hdst hsrcParent hparent hfree hclash)
  | chmod hnames hreset => exact hreset.agrees.uniqueLabels huniq
  | utime hnames hreset => exact hreset.agrees.uniqueLabels huniq
  | truncate hnames hresized hmarks => exact hresized.changes.uniqueLabels huniq
  | write hnames hat hwritten => exact hwritten.changes.uniqueLabels huniq

theorem uniqueLabels_of_leaves (h : Leaves env fs op fs') (hsound : Sound fs)
    (hdirs : (∃ srcPath dstPath, op = .rename srcPath dstPath) → DirBlocks (· = 1) fs.disk)
    (hclash : ¬op.Clashes env.limits fs) (huniq : (tree fs.disk).UniqueLabels) : (tree fs'.disk).UniqueLabels := by
  rcases h.tree with hkeep | ⟨mid, hcommit, hkeep⟩
  · exact (hkeep.disk.agrees hsound.exclusive).uniqueLabels huniq
  · have hagrees := (hkeep.disk.mono fun _ => False.elim).agrees (hcommit.sound hsound).exclusive
    exact hagrees.uniqueLabels (hcommit.uniqueLabels hdirs hclash huniq)

end Labels

/-- The last name of a path has at most 26 bytes. -/
def ShortName (path : CStr) : Prop :=
  ∀ init name, resolvePath (pathparse path) = init ++ [name] → name.bytes.length ≤ 26

/-- The names that a request stores have at most 26 bytes. -/
def Op.ShortNames : Op → Prop
  | .create path _ | .mkdir path _ => ShortName path
  | .rename _ dstPath => ShortName dstPath
  | _ => True

/-- Names of at most 26 bytes do not clash. -/
theorem not_clashes_of_shortNames {op : Op} (h : op.ShortNames) (limits : Limits) (fs : Fs) :
    ¬op.Clashes limits fs := by
  have hcreate : ∀ path need, ShortName path → ¬CreateClashes limits fs path need := by
    rintro path need hshort ⟨name, dir, slot, inum, hat, -, -, hlong, -⟩
    obtain ⟨init, -, hsplit, -⟩ := parentDirIn_eq_ok hat.parent
    exact absurd (hshort init name hsplit) (not_le.mpr hlong)
  cases op with
  | create path mode => exact hcreate path 1 h
  | mkdir path mode => exact hcreate path 2 h
  | rename srcPath dstPath =>
      rintro ⟨-, initDst, -, dst, -, -, -, -, -, -, hdst, -, -, -, -, hlong, -⟩
      exact absurd (h initDst dst hdst) (not_le.mpr hlong)
  | _ => exact id

/-! ### Runs -/

/-- A request that edits entries, whichever block accesses fail. -/
def EditStep (fs : Fs) (request : Request) (fs' : Fs) : Prop :=
  request.op.EditsEntries ∧ request.op.Changes ∧ request.op.RegularFiles ∧ fs.Step request fs'

/-- Such a request, where no name clashes. -/
def DistinctStep (fs : Fs) (request : Request) (fs' : Fs) : Prop :=
  EditStep fs request fs' ∧ ¬request.op.Clashes request.env.limits fs

section Runs

variable {fs fs' : Fs} {request : Request}

theorem EditStep.leaves (h : Sound fs) (hlayout : AllInodes (Layout (· = 1)) fs.disk)
    (hstep : EditStep fs request fs') : Leaves request.env fs request.op fs' := by
  obtain ⟨hedits, hop, -, -, rfl⟩ := hstep
  refine leaves_run h (fits_of_layout hlayout) hop (fun path len htruncate => ?_) fun path _ => ?_
  · rw [htruncate] at hedits
    exact hedits.elim
  · exact not_freesLive (fun n hn hmode => (dirBlocks_of_layout hlayout n hn hmode).ge) _ path

/-- In every state of a run no directory has two entries with the same name. -/
theorem uniqueLabels_of_run (h : Sound fs) (hlayout : AllInodes (Layout (· = 1)) fs.disk)
    (huniq : (tree fs.disk).UniqueLabels) (hrun : Reaches DistinctStep fs fs') : (tree fs'.disk).UniqueLabels := by
  have hinv := @Reaches.invariant _ _ DistinctStep
    (fun state => Sound state ∧ AllInodes (Layout (· = 1)) state.disk ∧ (tree state.disk).UniqueLabels) _ _ hrun
    (fun state request state' hinv hstep => ?_) ⟨h, hlayout, huniq⟩
  · exact hinv.2.2
  · obtain ⟨hsound, hlayout, huniq⟩ := hinv
    have hleaves := hstep.1.leaves hsound hlayout
    exact ⟨hleaves.sound hsound, hleaves.layout hsound hstep.1.2.2.1 rfl hlayout,
      uniqueLabels_of_leaves hleaves hsound (fun _ => dirBlocks_of_layout hlayout) hstep.2 huniq⟩

end Runs

theorem layout_sampleImage : AllInodes (Layout (· = 1)) sampleImage.disk := fun n hn =>
  of_decide_eq_true (allInodes_of_inodeCheck (P := fun inode => decide (Layout (· = 1) inode)) (by decide +kernel) n hn)

theorem uniqueLabels_sampleImage : (tree sampleImage.disk).UniqueLabels :=
  uniqueLabels_of_nameCheck (by decide +kernel)

def nameG : CStr := ⟨[103], by decide⟩

theorem plain_nameG : Plain (joinPath [nameG]) := plain_joinPath (by decide) (by decide) (by decide)

theorem shortName_nameG : ShortName (joinPath [nameG]) := by
  intro init name hsplit
  rw [plain_nameG.resolvePath, pathparse_joinPath (by decide)] at hsplit
  have hsplit' : [] ++ [nameG] = init ++ [name] := hsplit
  obtain ⟨-, hname⟩ := List.append_inj' hsplit' rfl
  obtain rfl : nameG = name := by simpa using hname
  decide

/-- Renaming the file `f` of the sample disk to `g` is such a run. -/
theorem uniqueLabels_of_run_sampleImage :
    (tree (Op.run (.rename (joinPath [nameF]) (joinPath [nameG])) (quietEnv 0) sampleImage).2.fs.disk).UniqueLabels := by
  have hnames : (Op.rename (joinPath [nameF]) (joinPath [nameG])).ShortNames := shortName_nameG
  have hstep : DistinctStep sampleImage ⟨quietEnv 0, .rename (joinPath [nameF]) (joinPath [nameG]), _⟩ _ :=
    ⟨⟨trivial, ⟨plain_nameF, plain_nameG⟩, trivial, .of_run _ _ _⟩, not_clashes_of_shortNames hnames _ _⟩
  exact uniqueLabels_of_run sound_sampleImage layout_sampleImage uniqueLabels_sampleImage (.single hstep)

/-- A name of 27 bytes: 26 times `x`, and a last byte. -/
def longName (last : UInt8) (hlast : last ≠ 0) : CStr :=
  ⟨List.replicate 26 120 ++ [last], by simpa using hlast.symm⟩

/-- A disk with an empty file, of whose name the entry stores the first 26 bytes. -/
def longImage : Fs :=
  imageOf 16 [2, 3, 4]
    [(2, (inodeOf (S_IFDIR ||| 0o777) 4096 [3]).toBlock), (3, entriesOf [(longName 97 (by decide), 4)]),
      (4, (inodeOf (S_IFREG ||| 0o666) 0 []).toBlock)]

def createLong : Op := .create (joinPath [longName 98 (by decide)]) (S_IFREG ||| 0o666)

theorem plain_longName (last : UInt8) (hlast : last ≠ 0) (hslash : last ≠ slash) :
    Plain (joinPath [longName last hlast]) := by
  refine plain_joinPath ?_ (by simp) (by simp [maxPathLen])
  simp only [List.mem_singleton, forall_eq]
  refine ⟨⟨by simp [longName], ?_⟩, ?_⟩
  · simp only [longName, List.mem_append, List.mem_replicate, List.mem_singleton, not_or, not_and]
    exact ⟨fun _ => by decide, hslash.symm⟩
  · constructor <;> intro heq <;> simpa [longName, dot, dotdot] using congrArg (fun c : CStr => c.bytes.length) heq

theorem changes_createLong : createLong.Changes := plain_longName 98 (by decide) (by decide)

/-- Not every run keeps the names unique: the two names are cut to the same 26 bytes. -/
theorem uniqueLabels_of_edits_false :
    ¬∀ fs fs', Mounted fs → Sound fs → AllInodes (Layout (· = 1)) fs.disk → (tree fs.disk).UniqueLabels →
      Reaches EditStep fs fs' → (tree fs'.disk).UniqueLabels := by
  intro h
  have hmounted : Mounted longImage := mounted_of_disk (by decide) (by decide) rfl
  have hlayout : AllInodes (Layout (· = 1)) longImage.disk := fun n hn => of_decide_eq_true
    (allInodes_of_inodeCheck (P := fun inode => decide (Layout (· = 1) inode)) (by decide +kernel) n hn)
  have hstep : EditStep longImage ⟨quietEnv 0, createLong, _⟩ _ :=
    ⟨trivial, changes_createLong, (by decide : S_ISREG (S_IFREG ||| 0o666) = true), .of_run _ _ _⟩
  have huniq := h _ _ hmounted (sound_of_fsck (by decide +kernel)) hlayout
    (uniqueLabels_of_nameCheck (by decide +kernel)) (.single hstep)
  have heval : (tree (createLong.run (quietEnv 0) longImage).2.fs.disk).edge 2 (0, 0) =
        some (List.replicate 26 120, 4) ∧
      (tree (createLong.run (quietEnv 0) longImage).2.fs.disk).edge 2 (0, 1) = some (List.replicate 26 120, 5) := by
    decide +kernel
  have hslot := huniq _ _ _ _ _ _ .root heval.1 heval.2
  simp at hslot

end Fs5600
