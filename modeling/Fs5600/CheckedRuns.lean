import Fs5600.Checked
import Fs5600.TreeRuns
import Fs5600.Accounting

/-! `read-img.py` on the disk of a file system in use: in every state of a run of successful requests it finds nothing
wrong, and shows the hierarchy that the requests have made. -/

namespace Fs5600.ReadImg

open Traverse Ownership Run

/-! ### Names and types -/

def AsciiNames : Op → Prop
  | .create path _ | .mkdir path _ | .rename _ path => ∀ c ∈ pathparse path, ∀ b ∈ c.bytes, b < 128
  | _ => True

/-- The inode of a regular file or a directory. -/
def HasKind (inode : Inode) : Prop := S_ISREG inode.mode = true ∨ S_ISDIR inode.mode = true

instance (inode : Inode) : Decidable (HasKind inode) := inferInstanceAs (Decidable (_ ∨ _))

section Names

variable {env : Env} {fs fs' : Fs} {op : Op} {dir inum : Nat} {slot : Slot} {name src dst : CStr} {inode : Inode}
  {claimed : List Nat} {disk disk' : Nat → Block}

theorem Ascii.agrees (h : Ascii disk) (hagrees : (tree disk).Agrees (tree disk')) : Ascii disk' := by
  intro n s l m hn he
  have hn' := hagrees.reach_iff.mp hn
  exact h n s l m hn' (hagrees.edge n hn' ▸ he)

theorem Ascii.changes (h : Ascii disk) (hchanges : (tree disk).ChangesCells (tree disk') inum) : Ascii disk' := by
  intro n s l m hn he
  have hn' := hchanges.reach_iff.mp hn
  exact h n s l m hn' (hchanges.edge n hn' ▸ he)

theorem Ascii.created (h : Ascii fs.disk) (hcreated : Created fs fs' dir slot name inum inode claimed)
    (hname : ∀ b ∈ name.bytes, b < 128) : Ascii fs'.disk := by
  intro n s l m hn he
  rcases hcreated.adds.reach_iff.mp hn with hold | rfl
  · by_cases hhere : n = dir ∧ s = slot
    · obtain ⟨rfl, rfl⟩ := hhere
      obtain ⟨rfl, -⟩ := Prod.mk.inj (Option.some.inj (hcreated.adds.added.symm.trans he))
      exact fun b hb => hname b (List.mem_of_mem_take hb)
    · rw [hcreated.adds.edge n s hold hhere] at he
      exact h n s l m hold he
  · cases (hcreated.adds.leaf s).symm.trans he

theorem Ascii.detached {label : List UInt8} (h : Ascii fs.disk) (hdetached : Detached fs fs' dir slot label inum) :
    Ascii fs'.disk := by
  intro n s l m hn he
  have hn' := hdetached.removes.reach hn
  exact h n s l m hn' (hdetached.removes.edge_of_edge hn' he).2

theorem Ascii.renamed (h : Ascii fs.disk) (hrenamed : Renamed fs fs' dir slot src dst inum)
    (hname : ∀ b ∈ dst.bytes, b < 128) : Ascii fs'.disk := by
  intro n s l m hn he
  have hn' := hrenamed.relabels.reach_iff.mp hn
  by_cases hhere : n = dir ∧ s = slot
  · obtain ⟨rfl, rfl⟩ := hhere
    obtain ⟨rfl, -⟩ := Prod.mk.inj (Option.some.inj (hrenamed.after.symm.trans he))
    exact fun b hb => hname b (List.mem_of_mem_take hb)
  · rw [hrenamed.edge n s hn' hhere] at he
    exact h n s l m hn' he

/-- The write that takes effect stores names in ASCII only. -/
theorem Ascii.commit (h : Ascii fs.disk) (hcommit : Commit env fs fs' op) (hsound : Sound fs) (hop : op.Changes)
    (hnames : AsciiNames op) : Ascii fs'.disk := by
  cases hcommit with
  | @create path name mode dir inum slot claimed hat hcreated =>
      obtain ⟨init, hsplit, -⟩ := (hat.parentAt hop hsound.exclusive hcreated.hasSlot).leads
      exact h.created hcreated (hnames name (hsplit ▸ List.mem_concat_self))
  | @mkdir path name mode dir inum block slot claimed hat hcreated =>
      obtain ⟨init, hsplit, -⟩ := (hat.parentAt hop hsound.exclusive hcreated.hasSlot).leads
      exact h.created hcreated (hnames name (hsplit ▸ List.mem_concat_self))
  | unlink _ hfile hdetached hbitmap hsize => exact h.detached hdetached
  | rmdir hat _ hdetached hbitmap hsize => exact h.detached hdetached
  | @rename srcPath dstPath src dst initSrc initDst dir inum slot hdst hparent hfree hrenamed =>
      exact h.renamed hrenamed (hnames dst (mem_resolvePath (hdst ▸ List.mem_concat_self)).1)
  | chmod _ hreset => exact h.agrees hreset.agrees
  | utime _ hreset => exact h.agrees hreset.agrees
  | truncate _ hresized hmarks => exact h.changes hresized.changes
  | write _ hat hwritten => exact h.changes hwritten.changes

/-- The write that takes effect keeps every object a file or a directory. -/
theorem kinds_of_commit (hcommit : Commit env fs fs' op) (hsound : Sound fs) (hfiles : op.RegularFiles)
    (hstorable : op.Storable) (h : AllInodes HasKind fs.disk) : AllInodes HasKind fs'.disk := by
  cases hcommit with
  | create hat hcreated => exact hcreated.allInodes h (Or.inl hfiles)
  | mkdir hat hcreated => exact hcreated.allInodes h (Or.inr hstorable.2)
  | unlink hnames hmode hdetached hbitmap hsize => exact hdetached.allInodes h
  | rmdir hat hnames hdetached hbitmap hsize => exact hdetached.allInodes h
  | rename hdst hparent hfree hrenamed => exact hrenamed.allInodes h
  | @chmod path mode inum hnames hreset =>
      refine hreset.allInodes h ?_
      rw [HasKind, isReg_chmod, isDir_chmod]
      exact h inum hreset.reach
  | @utime path modtime inum hnames hreset => exact hreset.allInodes h (h inum hreset.reach)
  | truncate hnames hresized hmarks => exact hresized.allInodes hsound h (h _ hresized.reach)
  | write hnames hat hwritten =>
      exact hwritten.toResized.allInodes hsound h (h _ hwritten.reach)

end Names

/-! ### The disk of a file system -/

/-- What the program needs beside a file system that shows a hierarchy: exact bits on the disk, no other objects than
files and directories, and names that it can print. -/
structure Inspectable (fs : Fs) : Prop where
  exact : Exact fs
  kinds : AllInodes HasKind fs.disk
  ascii : Ascii fs.disk

/-- A request that succeeds, and stores no names that the program cannot print. -/
structure PrintableStep (fs : Fs) (request : Request) (fs' : Fs) : Prop extends TreeStep fs request fs' where
  ascii : AsciiNames request.op
  success : ∃ value, request.value = .ok value

/-- What a report says of a file system and its hierarchy. -/
structure Tells (report : Report) (fs : Fs) (t : Hierarchy) : Prop where
  clean : report.Clean
  used : ∀ b < fs.diskSize, b ∈ report.used ↔ b < 2 ∨ (tree fs.disk).InUse b
  found : ∀ n, n ∈ report.found ↔ (tree fs.disk).Reach n
  objects : ∀ name uid gid mode size, (∃ n, .inode n name uid gid mode size true ∈ report.lines) ↔
    ∃ ls node, t ls = some node ∧ name = (if ls = [] then [slash] else pathText ls) ∧ node.stat.uid = uid ∧
      node.stat.gid = gid ∧ node.stat.mode = mode ∧ node.stat.size = size

theorem pathText_eq_nil {ls : List (List UInt8)} : pathText ls = [] ↔ ls = [] := by
  cases ls with
  | nil => exact iff_of_true rfl rfl
  | cons l ls => exact iff_of_false (by simp [pathText]) (by simp)

section Inspect

variable {fs fs' : Fs} {t : Hierarchy}

theorem PrintableStep.inspectable {request : Request} (hstep : PrintableStep fs request fs') (hhosts : Hosts fs t)
    (h : Inspectable fs) : Inspectable fs' := by
  obtain ⟨⟨hop, hfiles, hstorable, hquiet, hlimits, hvalue, rfl⟩, hascii, value, hok⟩ := hstep
  have hsound := hhosts.toSound
  rw [hok] at hvalue
  have hsuccess := hvalue.symm
  have hleaves := leaves_of_success hsound hhosts.layout hop hvalue
  refine ⟨h.exact.books (books_of_success hsound hhosts.layout hop hvalue), ?_, ?_⟩
  · rcases hleaves.tree with hkeep | ⟨mid, hcommit, hkeep⟩
    · exact h.kinds.keeps hsound.exclusive hkeep.disk
    · exact (kinds_of_commit hcommit hsound hfiles hstorable h.kinds).keeps (hcommit.sound hsound).exclusive
        (hkeep.disk.mono fun _ => False.elim)
  · rcases hleaves.tree with hkeep | ⟨mid, hcommit, hkeep⟩
    · exact h.ascii.agrees (hkeep.disk.agrees hsound.exclusive)
    · exact (h.ascii.commit hcommit hsound hop hascii).agrees (hkeep.same (hcommit.sound hsound).exclusive).1

/-- The program can go through the image. -/
theorem Inspectable.readable (h : Inspectable fs) (hhosts : Hosts fs t) : Readable (imageFile fs) where
  length := Nat.mul_mod_left _ _
  bits := by
    rw [nblks_imageFile]
    exact hhosts.size.trans (by decide)
  exclusive := hhosts.exclusive
  range b hb := by
    rw [nblks_imageFile]
    exact (hhosts.range b hb).2
  inodes n hn := by
    refine ⟨h.kinds n hn, hhosts.fits n hn, fun hdir => ?_⟩
    exact (hhosts.measured n hn).numBlocks hdir |>.trans ((hhosts.measured n hn).dirBlocks hdir).symm
  ascii := h.ascii

/-- A report that shows the tree has nothing wrong where the marks on the disk are those of the blocks in use. -/
theorem Shown.tells {report : Report} (h : Shown (imageFile fs) report) (hfile : Inspectable fs) (hhosts : Hosts fs t) :
    Tells report fs t := by
  obtain ⟨hmagic, hsize, hsaved⟩ := hfile.exact.mounted.fields
  have hmark : ∀ b, (tree fs.disk).InUse b → bitTest (fs.disk 1) b = true := fun b hb => by
    rw [hsaved]
    exact hhosts.marked b hb
  refine ⟨⟨?_, ?_, fun b m hb => ?_, h.modes⟩, fun b hb => ?_, h.found, fun name uid gid mode size => ?_⟩
  · rw [h.badMagic]
    exact decide_eq_false (not_not.mpr hmagic)
  · rw [h.badSize, nblks_imageFile]
    exact decide_eq_false (not_not.mpr hsize)
  · obtain ⟨huse, rfl⟩ := (h.marks b m).mp hb
    exact hmark b huse
  · rw [h.used, nblks_imageFile, and_iff_right hb]
    have hcounted := hfile.exact.counted b hb
    rwa [Counted, ← hsaved] at hcounted
  · have hobject : ∀ ls n, (tree fs.disk).Leads 2 ls n → objectLine (imageFile fs) (pathText ls) n =
        .inode n (if ls = [] then [slash] else pathText ls) (nodeAt fs.disk n).stat.uid (nodeAt fs.disk n).stat.gid
          (nodeAt fs.disk n).stat.mode (nodeAt fs.disk n).stat.size true := by
      intro ls n hleads
      rw [objectLine, if_congr pathText_eq_nil rfl rfl]
      rw [show bitTest ((imageFile fs).blks 1) n = true from hmark n (hleads.reach .root).inUse]
      rfl
    constructor
    · rintro ⟨n, hline⟩
      obtain ⟨ls, hleads, heq⟩ := (h.objects _ n).mp ⟨hline, rfl⟩
      rw [hobject ls n hleads] at heq
      obtain ⟨-, hname, huid, hgid, hmode, hsize, -⟩ := Line.inode.inj heq
      exact ⟨ls, _, hhosts.shows.of_leads hleads, hname, huid.symm, hgid.symm, hmode.symm, hsize.symm⟩
    · rintro ⟨ls, node, hnode, rfl, rfl, rfl, rfl, rfl⟩
      obtain ⟨n, hleads, rfl⟩ := (hhosts.shows ls node).mp hnode
      exact ⟨n, ((h.objects _ n).mpr ⟨ls, hleads, (hobject ls n hleads).symm⟩).1⟩

/-- In every state of a run of successful requests the program finds nothing wrong on the disk. It prints the objects
of the hierarchy with their attributes, and as used the blocks in use and the first two. -/
theorem readImg_of_run (h : WellFormed fs) (hmeasured : AllInodes Measured fs.disk) (hsize : fs.diskSize ≤ 1020)
    (hinspectable : Inspectable fs)
    (hrun : Reaches (Along PrintableStep Followed) (fs, hierarchyOf fs.disk) (fs', t)) {depth : Nat}
    (hdepth : fs'.diskSize ≤ depth) : ∃ report, readImg (imageFile fs') depth = .ok report ∧ Tells report fs' t := by
  obtain ⟨hhosts, hinspectable⟩ := @Reaches.invariant _ _ (Along PrintableStep Followed)
    (fun state => Hosts state.1 state.2 ∧ Inspectable state.1) _ _ hrun
    (fun state request state' hstate hstep => by
      obtain ⟨hstep, hfollowed⟩ := hstep
      have hhosts := (hstep.toTreeStep.hosts hstate.1).2
      rw [← hfollowed] at hhosts
      exact ⟨hhosts, hstep.inspectable hstate.1 hstate.2⟩)
    ⟨hosts_of_run h hmeasured hsize .refl, hinspectable⟩
  have hreadable := hinspectable.readable hhosts
  obtain ⟨report, hreport⟩ := hreadable.reports ((nblks_imageFile fs').le.trans hdepth)
  exact ⟨report, hreport, (hreadable.shown (reported_of_readImg hreport)).tells hinspectable hhosts⟩

end Inspect

theorem wellFormed_emptyImage : WellFormed emptyImage := wellFormed_of_check (by decide +kernel)

theorem measured_emptyImage : AllInodes Measured emptyImage.disk := fun n hn =>
  of_decide_eq_true (allInodes_of_inodeCheck (P := fun inode => decide (Measured inode)) (by decide +kernel) n hn)

theorem inspectable_emptyImage : Inspectable emptyImage where
  exact := exact_emptyImage
  kinds n hn :=
    of_decide_eq_true (allInodes_of_inodeCheck (P := fun inode => decide (HasKind inode)) (by decide +kernel) n hn)
  ascii := ascii_of_asciiCheck (by decide +kernel)

/-- Creating the file `f` on the empty disk is such a request. -/
theorem printableStep_emptyImage : PrintableStep emptyImage ⟨quietEnv 0, .create (joinPath [nameF]) (S_IFREG ||| 0o666),
      (Op.run (.create (joinPath [nameF]) (S_IFREG ||| 0o666)) (quietEnv 0) emptyImage).1⟩
    (Op.run (.create (joinPath [nameF]) (S_IFREG ||| 0o666)) (quietEnv 0) emptyImage).2.fs where
  changes := plain_nameF
  files := (by decide : S_ISREG (S_IFREG ||| 0o666) = true)
  storable := by
    change ∀ c ∈ pathparse (joinPath [nameF]), c.bytes.length ≤ 26
    rw [pathparse_nameF]
    decide
  quiet := quiet_quietEnv 0
  limits := roomy_quietEnv 0
  step := .of_run _ _ _
  ascii := by
    change ∀ c ∈ pathparse (joinPath [nameF]), ∀ b ∈ c.bytes, b < 128
    rw [pathparse_nameF]
    decide +kernel
  success := ⟨0, by decide +kernel⟩

theorem readImg_of_run_emptyImage : ∃ report,
    readImg (imageFile (Op.run (.create (joinPath [nameF]) (S_IFREG ||| 0o666)) (quietEnv 0) emptyImage).2.fs) 16 =
      .ok report ∧
    Tells report (Op.run (.create (joinPath [nameF]) (S_IFREG ||| 0o666)) (quietEnv 0) emptyImage).2.fs
      (Request.after ⟨quietEnv 0, .create (joinPath [nameF]) (S_IFREG ||| 0o666),
        (Op.run (.create (joinPath [nameF]) (S_IFREG ||| 0o666)) (quietEnv 0) emptyImage).1⟩
        (hierarchyOf emptyImage.disk)) :=
  readImg_of_run wellFormed_emptyImage measured_emptyImage (by decide) inspectable_emptyImage
    (.single ⟨printableStep_emptyImage, followed_after _ _ _ _⟩) (by decide +kernel)

end Fs5600.ReadImg
