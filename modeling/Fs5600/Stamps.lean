import Fs5600.Settled

/-! Modification times over runs. Beside the file system goes a note of the time that the last request
stamped every object with. `fs_getattr` reports this time, as long as no `fs_chmod` takes another one: its
time reaches the inode in memory only. -/

namespace Fs5600

open Ownership Command Run

/-- The path of the object that a request stamps, if it succeeds. -/
def Op.target : Op → Option CStr
  | .create path _ | .mkdir path _ | .chmod path _ | .utime path _ | .truncate path _ | .write path _ _ => some path
  | _ => none

/-- The time that a request stamps: the one it takes, or the one that `fs_utime` is given. -/
def Op.stamp (env : Env) : Op → Int
  | .utime _ modtime => modtime
  | _ => env.time.toNat

/-- The request succeeds, and the object is what its path names then. -/
def Stamps (request : Request) (fs' : Fs) (inum : Nat) : Prop :=
  (∃ value, request.value = .ok value) ∧ ∃ path, request.op.target = some path ∧ Names fs'.disk path inum

open Classical in
/-- The note of modification times after a request. -/
noncomputable def note (request : Request) (fs' : Fs) (stamps : Nat → Int) (inum : Nat) : Int :=
  if Stamps request fs' inum then request.op.stamp request.env else stamps inum

/-- The note goes along with a request. -/
def Noted (request : Request) (_ fs' : Fs) (stamps stamps' : Nat → Int) : Prop := stamps' = note request fs' stamps

theorem noted_note (request : Request) (fs fs' : Fs) (stamps : Nat → Int) :
    Noted request fs fs' stamps (note request fs' stamps) := rfl

/-- `fs_getattr` reports the noted time of every object. -/
def ReportsStamps (fs : Fs) (stamps : Nat → Int) : Prop :=
  ∀ env path inum, env.Quiet → Roomy env.limits → Plain path → Names fs.disk path inum →
    ∃ stat, (fsGetattr path env (.start fs)).1 = .ok stat ∧ (stat.mtime.toNat : Int) = stamps inum

/-- The inode that a request holds in memory when it returns, with all that it has set in it. -/
inductive InMemory (env : Env) (disk : Nat → Block) (inum : Nat) : Op → Inode → Prop
  | create (path : CStr) (mode : UInt32) : InMemory env disk inum (.create path mode) (newInode env mode)
  | mkdir (path : CStr) (mode : UInt32) (block : Nat) :
      InMemory env disk inum (.mkdir path mode) (newDirInode env mode block)
  | chmod (path : CStr) (mode : UInt32) :
      InMemory env disk inum (.chmod path mode) { (inodeAt disk inum).chmod mode with mtime := env.time }
  | utime (path : CStr) (modtime : Int) :
      InMemory env disk inum (.utime path modtime) ((inodeAt disk inum).utime modtime)
  | truncate (path : CStr) (len : Int) :
      InMemory env disk inum (.truncate path len) ((inodeAt disk inum).truncate env.time)
  | write (path : CStr) (buf : List UInt8) (offset : Nat) (claimed : List Nat) :
      InMemory env disk inum (.write path buf offset)
        ((inodeAt disk inum).grow claimed (offset + buf.length) env.time)

/-- What a successful request has set in an inode is on the disk. -/
def Stores (request : Request) (fs fs' : Fs) : Prop :=
  (∃ value, request.value = .ok value) → ∀ path, request.op.target = some path →
    ∃ inum, Names fs'.disk path inum ∧ InMemory request.env fs.disk inum request.op (inodeAt fs'.disk inum)

/-- The request sets a time that does not reach the disk: `fs_chmod` takes a time other than the one that is
there, or the time for `fs_utime` is longer than its field. -/
def Op.LosesStamp (env : Env) (fs : Fs) : Op → Prop
  | .chmod path _ => ∃ inum, Names fs.disk path inum ∧ (inodeAt fs.disk inum).mtime ≠ env.time
  | .utime path modtime => (∃ inum, Names fs.disk path inum) ∧ ¬(0 ≤ modtime ∧ modtime < 2 ^ 32)
  | _ => False

section Commit

variable {env : Env} {fs fs' : Fs} {op : Op} {path name : CStr} {dir inum : Nat} {slot : Slot} {inode : Inode}
  {claimed : List Nat}

/-- The object that a request sets an inode of, and the objects it leaves. -/
structure SetsAt (env : Env) (fs fs' : Fs) (op : Op) (path : CStr) (inum : Nat) : Prop where
  names : Names fs'.disk path inum
  inMemory : InMemory env fs.disk inum op (inodeAt fs'.disk inum)
  stamp : ((inodeAt fs'.disk inum).mtime.toNat : Int) = op.stamp env
  others : ∀ n, (tree fs'.disk).Reach n → n ≠ inum →
    (tree fs.disk).Reach n ∧ inodeAt fs'.disk n = inodeAt fs.disk n

theorem Created.setsAt (h : Created fs fs' dir slot name inum inode claimed) (hex : (tree fs.disk).Exclusive)
    (hpath : Plain path) (hat : CreateAt env.limits fs path name dir) (hshort : ShortName path)
    (hinMemory : InMemory env fs.disk inum op inode) (hstamp : (inode.mtime.toNat : Int) = op.stamp env) :
    SetsAt env fs fs' op path inum where
  names := h.names hpath (hat.parentAt hpath hex h.hasSlot) hshort
  inMemory := h.new.symm ▸ hinMemory
  stamp := h.new.symm ▸ hstamp
  others n hn hne := by
    have hold := (h.adds.reach_iff.mp hn).resolve_right hne
    exact ⟨hold, h.inodes n hold⟩

theorem Reset.setsAt (h : Reset fs fs' inum inode) (hnames : Names fs.disk path inum)
    (hinMemory : InMemory env fs.disk inum op inode) (hstamp : (inode.mtime.toNat : Int) = op.stamp env) :
    SetsAt env fs fs' op path inum where
  names := h.agrees.leads_root_iff.mpr hnames
  inMemory := h.new.symm ▸ hinMemory
  stamp := h.new.symm ▸ hstamp
  others n hn hne := by
    have hold := h.agrees.reach_iff.mp hn
    exact ⟨hold, h.inodes hold hne⟩

theorem Resized.setsAt (h : Resized fs fs' inum inode) (hex : (tree fs.disk).Exclusive)
    (hnames : Names fs.disk path inum) (hinMemory : InMemory env fs.disk inum op inode)
    (hstamp : (inode.mtime.toNat : Int) = op.stamp env) : SetsAt env fs fs' op path inum where
  names := (h.changes.leads_iff .root).mpr hnames
  inMemory := h.new.symm ▸ hinMemory
  stamp := h.new.symm ▸ hstamp
  others n hn hne := by
    have hold := h.changes.reach_iff.mp hn
    exact ⟨hold, h.inodes hex hold hne⟩

/-- A request that stamps an object has written its inode as it holds it in memory. -/
theorem Commit.setsAt (h : Commit env fs fs' op) (hsound : Sound fs) (hop : op.Changes) (hshort : op.ShortNames)
    (hkeeps : ¬op.LosesStamp env fs) (htarget : op.target = some path) :
    ∃ inum, SetsAt env fs fs' op path inum := by
  have hex := hsound.exclusive
  cases h with
  | @create _ _ _ _ inum _ _ hat hcreated =>
      cases htarget
      exact ⟨inum, hcreated.setsAt hex hop hat hshort (.create _ _) rfl⟩
  | @mkdir _ _ _ _ inum _ _ _ hat hcreated =>
      cases htarget
      exact ⟨inum, hcreated.setsAt hex hop hat hshort (.mkdir _ _ _) rfl⟩
  | unlink => cases htarget
  | rmdir => cases htarget
  | rename => cases htarget
  | @chmod _ mode inum hnames hreset =>
      cases htarget
      have htime : (inodeAt fs.disk inum).mtime = env.time := not_not.mp fun hne => hkeeps ⟨inum, hnames, hne⟩
      have hinMemory : InMemory env fs.disk inum (.chmod path mode)
          { (inodeAt fs.disk inum).chmod mode with mtime := env.time } := .chmod path mode
      rw [← htime] at hinMemory
      exact ⟨inum, hreset.setsAt hnames hinMemory (congrArg (fun time => (time.toNat : Int)) htime)⟩
  | @utime _ modtime inum hnames hreset =>
      cases htarget
      have hrange : 0 ≤ modtime ∧ modtime < 2 ^ 32 := not_not.mp fun hout => hkeeps ⟨⟨inum, hnames⟩, hout⟩
      refine ⟨inum, hreset.setsAt hnames (.utime _ _) ?_⟩
      change ((UInt32.ofInt modtime).toNat : Int) = modtime
      rw [UInt32.ofInt, UInt32.toNat_ofNat']
      omega
  | @truncate _ _ inum hnames hresized hmarks =>
      cases htarget
      exact ⟨inum, hresized.setsAt hex hnames (.truncate _ _) rfl⟩
  | @write _ _ _ inum _ hnames hat hwritten =>
      cases htarget
      exact ⟨inum, hwritten.toResized.setsAt hex hnames (.write _ _ _ _) rfl⟩

/-- A request that stamps no object leaves all inodes. -/
theorem Commit.inodes (h : Commit env fs fs' op) (htarget : op.target = none) {n : Nat}
    (hn : (tree fs'.disk).Reach n) : (tree fs.disk).Reach n ∧ inodeAt fs'.disk n = inodeAt fs.disk n := by
  cases h with
  | unlink hnames hfile hdetached hbitmap hsize =>
      exact ⟨hdetached.removes.reach hn, hdetached.inodes n (hdetached.removes.reach hn)⟩
  | rmdir hat hnames hdetached hbitmap hsize =>
      exact ⟨hdetached.removes.reach hn, hdetached.inodes n (hdetached.removes.reach hn)⟩
  | rename hdst hparent hfree hrenamed =>
      have hold := hrenamed.relabels.reach_iff.mp hn
      exact ⟨hold, hrenamed.inodes n hold⟩
  | create => cases htarget
  | mkdir => cases htarget
  | chmod => cases htarget
  | utime => cases htarget
  | truncate => cases htarget
  | write => cases htarget

end Commit

section Runs

variable {request : Request} {fs fs' : Fs} {path : CStr} {stamps stamps' : Nat → Int}

/-- The inodes on the disk have the noted times. -/
def Dated (fs : Fs) (stamps : Nat → Int) : Prop :=
  ∀ n, (tree fs.disk).Reach n → ((inodeAt fs.disk n).mtime.toNat : Int) = stamps n

theorem Dated.reports (hdated : Dated fs stamps) (h : Settled fs) : ReportsStamps fs stamps := by
  intro env path inum hquiet hlimits hpath hnames
  have htranslate := (hpath.translateIn_eq_ok_iff hlimits h.toWellNamed).mpr ⟨hnames, rfl⟩
  refine ⟨setstat (inodeAt fs.disk inum), ?_, hdated inum (hnames.reach .root)⟩
  rw [fsGetattr_value hquiet, htranslate]
  rfl

/-- A successful request that stamps an object leaves its inode on the disk, and all other inodes. -/
theorem QuietStep.setsAt (hstep : QuietStep fs request fs') (h : Settled fs)
    (hkeeps : ¬request.op.LosesStamp request.env fs) (hvalue : ∃ value, request.value = .ok value)
    (htarget : request.op.target = some path) : ∃ inum, SetsAt request.env fs fs' request.op path inum := by
  obtain ⟨env, op, result⟩ := request
  obtain ⟨value, rfl⟩ := hvalue
  have houtcome : Outcome env fs op (.ok value) fs' := hstep.outcome h
  cases houtcome with
  | done hcommit hkeep =>
      obtain ⟨inum, hsets⟩ := hcommit.setsAt h.toSound hstep.changes hstep.names hkeeps htarget
      obtain ⟨hagrees, hsame⟩ := hkeep.same (hcommit.sound h.toSound).exclusive
      have hinum := hsame inum (hsets.names.reach .root)
      refine ⟨inum, hagrees.leads_root_iff.mpr hsets.names, hinum ▸ hsets.inMemory, hinum ▸ hsets.stamp, ?_⟩
      intro n hn hne
      have hmid := hagrees.reach_iff.mp hn
      obtain ⟨hreach, hinode⟩ := hsets.others n hmid hne
      refine ⟨hreach, ?_⟩
      calc _ = _ := hsame n hmid
        _ = _ := hinode

/-- A request that fails, or that stamps no object, leaves all inodes. -/
theorem QuietStep.inodes (hstep : QuietStep fs request fs') (h : Settled fs)
    (hnone : ¬((∃ value, request.value = .ok value) ∧ ∃ path, request.op.target = some path)) {n : Nat}
    (hn : (tree fs'.disk).Reach n) : (tree fs.disk).Reach n ∧ inodeAt fs'.disk n = inodeAt fs.disk n := by
  obtain ⟨env, op, result⟩ := request
  have houtcome : Outcome env fs op result fs' := hstep.outcome h
  cases houtcome with
  | idle reason hkeep =>
      obtain ⟨hagrees, hsame⟩ := hkeep.same h.exclusive
      have hold := hagrees.reach_iff.mp hn
      exact ⟨hold, hsame n hold⟩
  | done hcommit hkeep =>
      have htarget : op.target = none := by
        rw [Option.eq_none_iff_forall_ne_some]
        exact fun path htarget => hnone ⟨⟨_, rfl⟩, path, htarget⟩
      obtain ⟨hagrees, hsame⟩ := hkeep.same (hcommit.sound h.toSound).exclusive
      have hmid := hagrees.reach_iff.mp hn
      have hold := hcommit.inodes htarget hmid
      exact ⟨hold.1, (hsame n hmid).trans hold.2⟩

theorem QuietStep.stores (hstep : QuietStep fs request fs') (h : Settled fs)
    (hkeeps : ¬request.op.LosesStamp request.env fs) : Stores request fs fs' := by
  intro hvalue path htarget
  obtain ⟨inum, hsets⟩ := hstep.setsAt h hkeeps hvalue htarget
  exact ⟨inum, hsets.names, hsets.inMemory⟩

/-- A request that loses no time keeps the inodes and the note together. -/
theorem QuietStep.dated (hstep : QuietStep fs request fs') (h : Settled fs)
    (hkeeps : ¬request.op.LosesStamp request.env fs) (hnoted : Noted request fs fs' stamps stamps')
    (hdated : Dated fs stamps) : Dated fs' stamps' := by
  intro n hn
  by_cases hsome : (∃ value, request.value = .ok value) ∧ ∃ path, request.op.target = some path
  · obtain ⟨hvalue, path, htarget⟩ := hsome
    obtain ⟨inum, hsets⟩ := hstep.setsAt h hkeeps hvalue htarget
    by_cases hne : n = inum
    · rw [hne, hnoted, note, if_pos ⟨hvalue, path, htarget, hsets.names⟩]
      exact hsets.stamp
    · have hnot : ¬Stamps request fs' n := by
        rintro ⟨-, path', htarget', hnames⟩
        obtain rfl := Option.some.inj (htarget.symm.trans htarget')
        exact hne ((h.step hstep).unique.leads_unique .root hnames hsets.names)
      obtain ⟨hold, hsame⟩ := hsets.others n hn hne
      rw [hnoted, note, if_neg hnot, hsame]
      exact hdated n hold
  · obtain ⟨hold, hsame⟩ := hstep.inodes h hsome hn
    have hnot : ¬Stamps request fs' n := fun hstamps => hsome ⟨hstamps.1, hstamps.2.imp fun _ hpath => hpath.1⟩
    rw [hnoted, note, if_neg hnot, hsame]
    exact hdated n hold

/-- A request that loses no time. -/
def KeepingStep (fs : Fs) (request : Request) (fs' : Fs) : Prop :=
  QuietStep fs request fs' ∧ ¬request.op.LosesStamp request.env fs

/-- In every state of a run, `fs_getattr` reports of every object the time that the last request stamped it
with, and what the next request sets in an inode reaches the disk. -/
theorem stamps_of_run (h : Settled fs) (hdated : Dated fs stamps)
    (hrun : Reaches (Along KeepingStep Noted) (fs, stamps) (fs', stamps')) :
    ReportsStamps fs' stamps' ∧ ∀ request fs'', KeepingStep fs' request fs'' → Stores request fs' fs'' := by
  have hinv := @Reaches.invariant _ _ (Along KeepingStep Noted)
    (fun state => Settled state.1 ∧ Dated state.1 state.2) _ _ hrun (fun state request state' hinv hstep => ?_)
    ⟨h, hdated⟩
  · exact ⟨hinv.2.reports hinv.1, fun request fs'' hstep => hstep.1.stores hinv.1 hstep.2⟩
  · obtain ⟨hsettled, hdated⟩ := hinv
    obtain ⟨⟨hstep, hkeeps⟩, hnoted⟩ := hstep
    exact ⟨hsettled.step hstep, hstep.dated hsettled hkeeps hnoted hdated⟩

end Runs

theorem settled_sampleImage : Settled sampleImage := ⟨wellFormed_sampleImage, layout_sampleImage⟩

/-- Setting the time of the file `f` of the sample disk is such a run. -/
theorem stamps_of_run_sampleImage :
    ReportsStamps (Op.run (.utime (joinPath [nameF]) 7) (quietEnv 0) sampleImage).2.fs
      (note ⟨quietEnv 0, .utime (joinPath [nameF]) 7, (Op.run (.utime (joinPath [nameF]) 7) (quietEnv 0) sampleImage).1⟩
        (Op.run (.utime (joinPath [nameF]) 7) (quietEnv 0) sampleImage).2.fs
        fun n => ((inodeAt sampleImage.disk n).mtime.toNat : Int)) := by
  have hstep : KeepingStep sampleImage ⟨quietEnv 0, .utime (joinPath [nameF]) 7, _⟩ _ :=
    ⟨⟨plain_nameF, trivial, trivial, quiet_quietEnv 0, roomy_quietEnv 0, .of_run _ _ _⟩,
      fun hloses => hloses.2 (by decide)⟩
  exact (stamps_of_run settled_sampleImage (fun _ _ => rfl) (.single ⟨hstep, noted_note _ _ _ _⟩)).1

/-- Not in every run are the noted times reported: `fs_chmod` takes the time 7 for the file `f` of the sample
disk, and `fs_getattr` goes on reporting 0. -/
theorem stamps_of_run_false :
    ¬∀ fs fs' stamps stamps', Mounted fs → Settled fs → fs.diskSize ≤ 1020 → Dated fs stamps →
      Reaches (Along QuietStep Noted) (fs, stamps) (fs', stamps') →
        ReportsStamps fs' stamps' ∧ ∀ request fs'', QuietStep fs' request fs'' → Stores request fs' fs'' := by
  intro h
  have hstep : QuietStep sampleImage ⟨quietEnv 7, .chmod (joinPath [nameF]) 0, _⟩ _ :=
    ⟨plain_nameF, trivial, trivial, quiet_quietEnv 7, roomy_quietEnv 7, .of_run _ _ _⟩
  have hreports := (h _ _ _ _ mounted_sampleImage settled_sampleImage diskSize_sampleImage (fun _ _ => rfl)
    (.single ⟨hstep, noted_note _ _ _ _⟩)).1
  have hvalue : (Op.run (.chmod (joinPath [nameF]) 0) (quietEnv 7) sampleImage).1 = .ok 0 := by decide +kernel
  have hnames : Names (Op.run (.chmod (joinPath [nameF]) 0) (quietEnv 7) sampleImage).2.fs.disk (joinPath [nameF]) 4 := by
    rw [Names, pathparse_nameF]
    exact ⟨(0, 1), 4, by decide +kernel, rfl⟩
  obtain ⟨stat, hstat, htime⟩ := hreports (quietEnv 0) _ 4 (quiet_quietEnv 0) (roomy_quietEnv 0) plain_nameF hnames
  have heval : (fsGetattr (joinPath [nameF]) (quietEnv 0)
      (.start (Op.run (.chmod (joinPath [nameF]) 0) (quietEnv 7) sampleImage).2.fs)).1.map Stat.mtime = .ok 0 := by
    decide +kernel
  rw [hstat] at heval
  have hzero : stat.mtime = 0 := Except.ok.inj heval
  have hseven : (stat.mtime.toNat : Int) = 7 := htime.trans (if_pos ⟨⟨0, hvalue⟩, _, rfl, hnames⟩)
  rw [hzero] at hseven
  cases hseven

end Fs5600
