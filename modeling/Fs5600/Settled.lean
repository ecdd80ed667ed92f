import Fs5600.Renaming

/-! What requests keep where no block access fails and every name is stored whole: a well-formed file system
whose directories have one data block each. -/

namespace Fs5600

open Ownership Command Run

/-- A well-formed file system in which every directory has one data block. -/
structure Settled (fs : Fs) : Prop extends WellFormed fs where
  layout : AllInodes (Layout (· = 1)) fs.disk

/-- A request that changes the file system, where no block access fails, the new names have at most 26 bytes
and the local arrays have their declared lengths. -/
structure QuietStep (fs : Fs) (request : Request) (fs' : Fs) : Prop where
  changes : request.op.Changes
  files : request.op.RegularFiles
  names : request.op.ShortNames
  quiet : request.env.Quiet
  limits : Roomy request.env.limits
  step : fs.Step request fs'

section Names

variable {env : Env} {fs fs' : Fs} {op : Op} {disk disk' : Nat → Block}

theorem Terminated.agrees (h : Terminated disk) (hagrees : (tree disk).Agrees (tree disk')) :
    Terminated disk' := by
  intro n s l m hn he
  have hn' := hagrees.reach_iff.mp hn
  exact h n s l m hn' (hagrees.edge n hn' ▸ he)

theorem Terminated.changes {inum : Nat} (h : Terminated disk)
    (hchanges : (tree disk).ChangesCells (tree disk') inum) : Terminated disk' := by
  intro n s l m hn he
  have hn' := hchanges.reach_iff.mp hn
  exact h n s l m hn' (hchanges.edge n hn' ▸ he)

theorem Commit.terminated (h : Commit env fs fs' op) (hterm : Terminated fs.disk) : Terminated fs'.disk := by
  cases h with
  | create hat hcreated => exact hcreated.terminated hterm
  | mkdir hat hcreated => exact hcreated.terminated hterm
  | unlink hnames hfile hdetached hbitmap hsize => exact hdetached.terminated hterm
  | rmdir hat hnames hdetached hbitmap hsize => exact hdetached.terminated hterm
  | rename hdst hparent hfree hrenamed => exact hrenamed.terminated hterm
  | chmod hnames hreset => exact hterm.agrees hreset.agrees
  | utime hnames hreset => exact hterm.agrees hreset.agrees
  | truncate hnames hresized hmarks => exact hterm.changes hresized.changes
  | write hnames hat hwritten => exact hterm.changes hwritten.changes

theorem Leaves.terminated (h : Leaves env fs op fs') (hsound : Sound fs) (hterm : Terminated fs.disk) :
    Terminated fs'.disk := by
  rcases h.tree with hkeep | ⟨mid, hcommit, hkeep⟩
  · exact hterm.agrees (hkeep.disk.agrees hsound.exclusive)
  · have hagrees := (hkeep.disk.mono fun _ => False.elim).agrees (hcommit.sound hsound).exclusive
    exact (hcommit.terminated hterm).agrees hagrees

end Names

/-- A new object is what its path names. -/
theorem Created.names {fs fs' : Fs} {dir inum : Nat} {slot : Slot} {path name : CStr} {inode : Inode}
    {claimed : List Nat} (h : Created fs fs' dir slot name inum inode claimed) (hpath : Plain path)
    (hat : ParentAt fs.disk path name dir) (hshort : ShortName path) : Names fs'.disk path inum := by
  obtain ⟨init, hsplit, hinit⟩ := hat.leads
  have hlen : name.bytes.length ≤ 26 := hshort init name (hpath.resolvePath.trans hsplit)
  have hlabels : labels (pathparse path) = labels init ++ [name.bytes.take 26] := by
    rw [hsplit, labels, List.map_append, List.take_of_length_le hlen]
    rfl
  exact h.adds.leads_root_iff.mpr (Or.inr ⟨rfl, labels init, hlabels, hinit⟩)

section Settled

variable {env : Env} {fs fs' : Fs} {op : Op}

/-- What comes after the write that takes effect leaves the tree and the inodes. -/
theorem Keeps.same {mid : Fs} (h : Keeps (fun _ => False) mid fs') (hex : (tree mid.disk).Exclusive) :
    (tree mid.disk).Agrees (tree fs'.disk) ∧
      ∀ n, (tree mid.disk).Reach n → inodeAt fs'.disk n = inodeAt mid.disk n := by
  have hdisk : KeepsBut (IsData mid.disk) mid.disk fs'.disk := h.disk.mono fun _ => False.elim
  exact ⟨hdisk.agrees hex, fun n hn => hdisk.inodeAt hex hn⟩

theorem Settled.dirBlocks (h : Settled fs) : DirBlocks (1 ≤ ·) fs.disk :=
  fun n hn hmode => (dirBlocks_of_layout h.layout n hn hmode).ge

theorem Leaves.settled (hleaves : Leaves env fs op fs') (h : Settled fs) (hfiles : op.RegularFiles)
    (hshort : op.ShortNames) : Settled fs' := by
  have hlayout : AllInodes (Layout (· = 1)) fs'.disk := hleaves.layout h.toSound hfiles rfl h.layout
  refine ⟨⟨hleaves.sound h.toSound, fits_of_layout hlayout, ?_, hleaves.terminated h.toSound h.terminated⟩, hlayout⟩
  exact uniqueLabels_of_leaves hleaves h.toSound (fun _ => dirBlocks_of_layout h.layout)
    (not_clashes_of_shortNames hshort _ _) h.unique

/-- Every request keeps a settled file system settled. -/
theorem Settled.run (h : Settled fs) (hop : op.Changes) (hfiles : op.RegularFiles) (hshort : op.ShortNames)
    (hquiet : env.Quiet) : Settled (op.run env fs).2.fs :=
  (leaves_run h.toSound h.fits hop (fun _ _ _ => hquiet) fun path _ => not_freesLive h.dirBlocks _ path).settled h
    hfiles hshort

theorem Settled.step {request : Request} (h : Settled fs) (hstep : QuietStep fs request fs') : Settled fs' := by
  obtain ⟨hop, hfiles, hshort, hquiet, -, -, rfl⟩ := hstep
  exact h.run hop hfiles hshort hquiet

theorem QuietStep.outcome {request : Request} (hstep : QuietStep fs request fs') (h : Settled fs) :
    Outcome request.env fs request.op request.value fs' := by
  obtain ⟨hop, -, -, hquiet, -, hvalue, rfl⟩ := hstep
  exact hvalue ▸ outcome_run h.toSound h.fits hop hquiet fun _ _ => h.dirBlocks

end Settled

end Fs5600
