import Fs5600.Base.Run
import Fs5600.Commit

/-! Requests as steps of a mounted file system, and what every one of them keeps, whatever it returns and
whichever block accesses fail. -/

namespace Fs5600

open Ownership Command Replay

/-- A request that changes the file system, on paths without dots, and with no more data than a file of
`int32_t` size can take. -/
def Op.Changes : Op → Prop
  | .rename srcPath dstPath => Plain srcPath ∧ Plain dstPath
  | .chmod path _ | .create path _ | .mkdir path _ | .unlink path | .rmdir path | .utime path _
  | .truncate path _ => Plain path
  | .write path buf offset => Plain path ∧ offset + buf.length < 2 ^ 31
  | .getattr _ | .readdir _ | .read _ _ _ | .statfs => False

/-- A request as it is made: what it gets from outside, and what it returns. -/
structure Request where
  env : Env
  op : Op
  value : Except Stop Int

/-- The file system after a request. -/
def Fs.Step (fs : Fs) (request : Request) (fs' : Fs) : Prop :=
  (request.op.run request.env fs).1 = request.value ∧ (request.op.run request.env fs).2.fs = fs'

theorem Fs.Step.of_run (fs : Fs) (env : Env) (op : Op) :
    fs.Step ⟨env, op, (op.run env fs).1⟩ (op.run env fs).2.fs := ⟨rfl, rfl⟩

section Attempts

variable {env : Env} {fs : Fs} {op : Op}

theorem Attempts.mono {α : Type} {undo : List Event → Prop} {call : Call α}
    {post post' : Except Stop α → List Event → Prop} (h : Attempts undo env fs call post)
    (himp : ∀ value plan, post value plan → post' value plan) : Attempts undo env fs call post' := by
  obtain ⟨value, plan, hperforms, hpost⟩ := h
  exact ⟨value, plan, hperforms, himp _ _ hpost⟩

/-- A request has two phases, where it is no `fs_truncate` and frees no block in use. -/
theorem attempts_phases (h : Sound fs) (hfits : Fits fs.disk) (hop : op.Changes)
    (htruncate : ∀ path len, op ≠ .truncate path len)
    (hlive : ∀ path, op = .rmdir path → ¬FreesLive env.limits fs path) :
    Attempts (Undone fs) env fs op.call (Phases env fs op) := by
  cases op with
  | create path mode =>
      refine (attempts_fsCreate h path mode).mono fun _ _ hcreate => phases_of_creates h rfl ?_
        (creates_of_create h hcreate)
      rintro _ _ _ _ _ _ _ hat rfl hcreated hcount
      rw [numBlocks_newInode] at hcount
      exact .create hat hcreated hcount
  | mkdir path mode =>
      refine (attempts_fsMkdir h path mode).mono fun _ _ hmkdir => phases_of_creates h rfl ?_
        (creates_of_mkdir h hmkdir)
      rintro _ _ _ _ _ _ _ hat ⟨block, rfl⟩ hcreated hcount
      rw [numBlocks_newDirInode] at hcount
      exact .mkdir hat hcreated hcount
  | unlink path =>
      exact (Attempts.of_acts (acts_fsUnlink h hfits path)).mono fun _ _ => phases_of_unlink h hfits hop
  | rmdir path =>
      exact (Attempts.of_acts (acts_fsRmdir h path)).mono fun _ _ => phases_of_rmdir h hop (hlive path rfl)
  | rename srcPath dstPath =>
      exact (Attempts.of_acts (acts_fsRename h srcPath dstPath)).mono fun _ _ => phases_of_rename h
  | chmod path mode =>
      exact (Attempts.of_acts (acts_fsChmod h path mode)).mono fun _ _ =>
        phases_of_setsInode h hop rfl (isDir_chmod mode) (fun _ => rfl) (fun _ => rfl) fun _ _ => .chmod
  | utime path modtime =>
      exact (Attempts.of_acts (acts_fsUtime h path modtime)).mono fun _ _ =>
        phases_of_setsInode h hop rfl (fun _ => rfl) (fun _ => rfl) (fun _ => rfl) fun _ _ => .utime
  | write path buf offset =>
      exact (Attempts.of_acts (acts_fsWrite h hfits path buf offset hop.2)).mono fun _ _ =>
        phases_of_write h hop.1 hop.2
  | truncate path len => exact absurd rfl (htruncate path len)
  | getattr path => exact hop.elim
  | readdir path => exact hop.elim
  | read path len offset => exact hop.elim
  | statfs => exact hop.elim

end Attempts

/-! ### What the write that takes effect keeps -/

/-- A new file is a regular file: the mode that `fs_create` gets has the `S_IFREG` bit set. -/
def Op.RegularFiles : Op → Prop
  | .create _ mode => S_ISREG mode = true
  | _ => True

/-- An inode with no more blocks than pointers, and a number of blocks with a property where it is the
inode of a directory. -/
def Layout (Q : Nat → Prop) (inode : Inode) : Prop :=
  inode.numBlocks ≤ numPtrs ∧ (S_ISDIR inode.mode = true → Q inode.numBlocks)

instance {Q : Nat → Prop} [DecidablePred Q] (inode : Inode) : Decidable (Layout Q inode) :=
  inferInstanceAs (Decidable (_ ∧ _))

theorem fits_of_layout {Q : Nat → Prop} {disk : Nat → Block} (h : AllInodes (Layout Q) disk) : Fits disk :=
  fun n hn => (h n hn).1

theorem dirBlocks_of_layout {Q : Nat → Prop} {disk : Nat → Block} (h : AllInodes (Layout Q) disk) :
    DirBlocks Q disk := fun n hn => (h n hn).2

section Commit

variable {env : Env} {fs fs' : Fs} {op : Op}

theorem Commit.sound (h : Commit env fs fs' op) (hsound : Sound fs) : Sound fs' := by
  cases h with
  | create hat hcreated => exact hcreated.sound hsound
  | mkdir hat hcreated => exact hcreated.sound hsound
  | unlink hnames hfile hdetached hbitmap hsize =>
      exact hdetached.sound hsound hsize fun b _ hmark => by rwa [hbitmap]
  | rmdir hat hnames hdetached hbitmap hsize =>
      exact hdetached.sound hsound hsize fun b _ hmark => by rwa [hbitmap]
  | rename hdst hparent hfree hrenamed => exact hrenamed.sound hsound
  | chmod hnames hreset => exact hreset.sound hsound
  | utime hnames hreset => exact hreset.sound hsound
  | truncate hnames hresized hmarks =>
      have hold : ∀ b, (tree fs'.disk).InUse b → (tree fs.disk).InUse b := fun b hb =>
        ((hresized.inUse_truncate hsound.exclusive b).mp hb).1
      exact ⟨hresized.exclusive, fun b hb => hresized.diskSize ▸ hsound.range b (hold b hb),
        fun b hb => hmarks b hb (hsound.marked b (hold b hb))⟩
  | write hnames hat hwritten => exact hwritten.sound hsound

theorem Commit.diskSize (h : Commit env fs fs' op) : fs'.diskSize = fs.diskSize := by
  cases h with
  | create hat hcreated => exact hcreated.diskSize
  | mkdir hat hcreated => exact hcreated.diskSize
  | unlink hnames hfile hdetached hbitmap hsize => exact hsize
  | rmdir hat hnames hdetached hbitmap hsize => exact hsize
  | rename hdst hparent hfree hrenamed => exact hrenamed.diskSize
  | chmod hnames hreset => exact hreset.diskSize
  | utime hnames hreset => exact hreset.diskSize
  | truncate hnames hresized hmarks => exact hresized.diskSize
  | write hnames hat hwritten => exact hwritten.diskSize

/-- Objects keep their inodes, but for those of which the property is shown. -/
theorem AllInodes.of_cases {P : Inode → Prop} (hP : AllInodes P fs.disk)
    (h : ∀ n, (tree fs'.disk).Reach n →
      ((tree fs.disk).Reach n ∧ inodeAt fs'.disk n = inodeAt fs.disk n) ∨ P (inodeAt fs'.disk n)) :
    AllInodes P fs'.disk := by
  intro n hn
  rcases h n hn with ⟨hn', hsame⟩ | hnew
  · rw [hsame]
    exact hP n hn'
  · exact hnew

theorem Created.allInodes {P : Inode → Prop} {dir inum : Nat} {slot : Slot} {name : CStr} {inode : Inode}
    {claimed : List Nat} (h : Created fs fs' dir slot name inum inode claimed) (hP : AllInodes P fs.disk)
    (hnew : P inode) : AllInodes P fs'.disk :=
  hP.of_cases fun n hn => (h.adds.reach_iff.mp hn).imp (fun hn' => ⟨hn', h.inodes n hn'⟩) fun heq => by
    rw [heq, h.new]
    exact hnew

theorem Detached.allInodes {P : Inode → Prop} {dir inum : Nat} {slot : Slot} {label : List UInt8}
    (h : Detached fs fs' dir slot label inum) (hP : AllInodes P fs.disk) : AllInodes P fs'.disk :=
  hP.of_cases fun n hn => Or.inl ⟨h.removes.reach hn, h.inodes n (h.removes.reach hn)⟩

theorem Renamed.allInodes {P : Inode → Prop} {dir inum : Nat} {slot : Slot} {src dst : CStr}
    (h : Renamed fs fs' dir slot src dst inum) (hP : AllInodes P fs.disk) : AllInodes P fs'.disk :=
  hP.of_cases fun n hn => Or.inl ⟨h.relabels.reach_iff.mp hn, h.inodes n (h.relabels.reach_iff.mp hn)⟩

theorem Reset.inodes {inum : Nat} {inode : Inode} (h : Reset fs fs' inum inode) {n : Nat}
    (hn : (tree fs.disk).Reach n) (hne : n ≠ inum) : inodeAt fs'.disk n = inodeAt fs.disk n :=
  inodeAt_congr (h.disk n hn.inUse hne)

theorem Reset.allInodes {P : Inode → Prop} {inum : Nat} {inode : Inode} (h : Reset fs fs' inum inode)
    (hP : AllInodes P fs.disk) (hnew : P inode) : AllInodes P fs'.disk := by
  refine hP.of_cases fun n hn => ?_
  have hn' := h.agrees.reach_iff.mp hn
  by_cases hne : n = inum
  · exact Or.inr (by rwa [hne, h.new])
  · exact Or.inl ⟨hn', h.inodes hn' hne⟩

theorem Resized.allInodes {P : Inode → Prop} {inum : Nat} {inode : Inode} (h : Resized fs fs' inum inode)
    (hsound : Sound fs) (hP : AllInodes P fs.disk) (hnew : P inode) : AllInodes P fs'.disk := by
  refine hP.of_cases fun n hn => ?_
  have hn' := h.changes.reach_iff.mp hn
  by_cases hne : n = inum
  · exact Or.inr (by rwa [hne, h.new])
  · exact Or.inl ⟨hn', h.inodes hsound.exclusive hn' hne⟩

theorem Commit.layout (h : Commit env fs fs' op) (hsound : Sound fs) (hop : op.RegularFiles) {Q : Nat → Prop}
    (hQ : Q 1) (hlayout : AllInodes (Layout Q) fs.disk) : AllInodes (Layout Q) fs'.disk := by
  cases h with
  | create hat hcreated =>
      refine hcreated.allInodes hlayout ⟨by rw [numBlocks_newInode]; omega, fun hdir => ?_⟩
      rw [newInode, S_ISDIR_eq_false_of_isReg hop] at hdir
      cases hdir
  | mkdir hat hcreated =>
      exact hcreated.allInodes hlayout ⟨by rw [numBlocks_newDirInode]; decide, fun _ => by rwa [numBlocks_newDirInode]⟩
  | unlink hnames hfile hdetached hbitmap hsize => exact hdetached.allInodes hlayout
  | rmdir hat hnames hdetached hbitmap hsize => exact hdetached.allInodes hlayout
  | rename hdst hparent hfree hrenamed => exact hrenamed.allInodes hlayout
  | @chmod path mode inum hnames hreset =>
      apply hreset.allInodes hlayout
      have hold := hlayout inum hreset.reach
      rw [Layout, isDir_chmod]
      exact hold
  | @utime path modtime inum hnames hreset => exact hreset.allInodes hlayout (hlayout inum hreset.reach)
  | @truncate path len inum hnames hresized hmarks =>
      refine hresized.allInodes hsound hlayout ⟨by rw [numBlocks_truncate]; omega, fun hdir => ?_⟩
      rw [hresized.mode, hresized.file] at hdir
      cases hdir
  | @write path buf offset inum claimed hnames hat hwritten =>
      refine hwritten.toResized.allInodes hsound hlayout ⟨hwritten.fits, fun hdir => ?_⟩
      rw [hwritten.mode, hwritten.file] at hdir
      cases hdir

end Commit

/-! ### What is kept on the way -/

/-- The second state has the tree of the first, or that of the request in effect; and the marks of the
superblock and the bitmap block are still there. -/
structure Leaves (env : Env) (fs : Fs) (op : Op) (fs' : Fs) : Prop where
  tree : Keeps (IsData fs.disk) fs fs' ∨ ∃ mid, Commit env fs mid op ∧ Keeps (fun _ => False) mid fs'
  reserved : (∀ path, op = .rmdir path → ¬FreesReserved env.limits fs path) →
    ∀ b < 2, bitTest fs.bitmap b = true → bitTest fs'.bitmap b = true

section Leaves

variable {env : Env} {fs fs' : Fs} {op : Op} {value : Except Stop Int} {plan : List Event}

theorem bits_of_silent {disk : Nat → Block} {except : Nat → Prop}
    (h : ∀ event ∈ plan, Silent disk except event) : ∀ i, .bitSet i ∈ plan → i < bitmapBits :=
  fun i hi => h (.bitSet i) hi

theorem Undone.leaves (hundone : Undone fs plan) : Leaves env fs op (fs.replay plan) where
  tree := Or.inl (keeps_replay hundone.silent)
  reserved _ _ hb hmark := bitTest_replay_of_spares (fun e he => (hundone e he).2)
    (@bits_of_silent _ _ (fun _ => False) hundone.silent) hb hmark

theorem Undone.mono {part : List Event} (h : Undone fs plan) (hpart : part <+: plan) : Undone fs part :=
  fun event hevent => h event (hpart.subset hevent)

/-- On its way through its phases a request leaves the tree as it was, or as it makes it. -/
theorem leaves_throughout (hphases : Phases env fs op value plan) :
    Throughout Fs.apply (Leaves env fs op) fs plan := by
  cases hphases with
  | idle hundone hsaves => exact fun part hpart => (hundone.mono hpart).leaves
  | @done first last lba block hfirst hsaves hcommit hsaved hlast hspares hlastSaves =>
      have hbefore : ∀ part, part <+: first → Leaves env fs op (fs.replay part) := fun part hpart =>
        have hsilent : ∀ e ∈ part, Silent fs.disk (IsData fs.disk) e := fun e he => (hfirst e (hpart.subset he)).1
        ⟨Or.inl (keeps_replay hsilent), fun _ b hb hmark =>
          bitTest_replay_of_spares (fun e he => (hfirst e (hpart.subset he)).2) (bits_of_silent hsilent) hb hmark⟩
      have hafter : ∀ part, part <+: last →
          Leaves env fs op ((fs.replay (first ++ [Event.blockWrite lba block])).replay part) := by
        intro part hpart
        have hsilent := fun e he => hlast e (hpart.subset he)
        refine ⟨Or.inr ⟨_, hcommit, keeps_replay hsilent⟩, fun hspare b hb hmark => ?_⟩
        refine bitTest_replay_of_spares (fun e he => hspares hspare e (hpart.subset he)) (bits_of_silent hsilent) hb ?_
        rw [Fs.replay_append]
        exact (hbefore first List.prefix_rfl).reserved hspare b hb hmark
      have hmid := hafter [] List.nil_prefix
      rw [Fs.replay_nil, Fs.replay_append] at hmid
      rw [← List.singleton_append, ← List.append_assoc, throughout_append, throughout_append, throughout_cons,
        throughout_nil]
      exact ⟨⟨hbefore, hbefore first List.prefix_rfl, hmid⟩, hafter⟩
  | @outside path inum dir lba found block hop hat hempty hcommit hsaved =>
      rw [throughout_cons, throughout_nil]
      exact ⟨⟨Or.inl .refl, fun _ _ _ hmark => hmark⟩, Or.inr ⟨_, hcommit, .refl⟩, fun _ _ _ hmark => hmark⟩

/-- What a request leaves is sound where the state before is. -/
theorem Leaves.sound (h : Leaves env fs op fs') (hsound : Sound fs) : Sound fs' := by
  rcases h.tree with hkeep | ⟨mid, hcommit, hkeep⟩
  · exact hsound.keeps hkeep
  · exact (hcommit.sound hsound).keeps (hkeep.mono fun _ => False.elim)

theorem Leaves.layout (h : Leaves env fs op fs') (hsound : Sound fs) (hop : op.RegularFiles) {Q : Nat → Prop}
    (hQ : Q 1) (hlayout : AllInodes (Layout Q) fs.disk) : AllInodes (Layout Q) fs'.disk := by
  rcases h.tree with hkeep | ⟨mid, hcommit, hkeep⟩
  · exact hlayout.keeps hsound.exclusive hkeep.disk
  · exact (hcommit.layout hsound hop hQ hlayout).keeps (hcommit.sound hsound).exclusive
      (hkeep.disk.mono fun _ => False.elim)

theorem Leaves.diskSize (h : Leaves env fs op fs') : fs'.diskSize = fs.diskSize := by
  rcases h.tree with hkeep | ⟨mid, hcommit, hkeep⟩
  · exact hkeep.diskSize
  · exact hkeep.diskSize.trans hcommit.diskSize

/-- A request leaves what it leaves on its way, also where a failed block access ends it. -/
theorem leaves_of_run (hattempts : Attempts (Undone fs) env fs op.call (Phases env fs op)) :
    Leaves env fs op (op.run env fs).2.fs := by
  obtain ⟨value, plan, hperforms, hphases⟩ := hattempts
  obtain ⟨events, hemits, hend⟩ := hperforms (.start fs) rfl
  have hview : (op.run env fs).2.fs = fs.replay events := hemits.view
  rw [hview]
  rcases hend with ⟨-, rfl⟩ | ⟨reason, -, -, hpre | hundone⟩
  · exact (leaves_throughout hphases).final
  · exact leaves_throughout hphases _ hpre
  · exact hundone.leaves

end Leaves

/-! ### Requests with all block accesses succeeding -/

/-- How a request ends where no block access fails: with an error code and the tree as it was, or with
success and the request in effect. -/
inductive Outcome (env : Env) (fs : Fs) (op : Op) : Except Stop Int → Fs → Prop
  | idle {fs' : Fs} (reason : Stop) (hkeep : Keeps (fun _ => False) fs fs') : Outcome env fs op (.error reason) fs'
  | done {mid fs' : Fs} (hcommit : Commit env fs mid op) (hkeep : Keeps (fun _ => False) mid fs') :
      Outcome env fs op (.ok op.success) fs'

section Quiet

variable {env : Env} {fs : Fs} {op : Op}

theorem run_of_performs {undo : List Event → Prop} {value : Except Stop Int} {plan : List Event}
    (h : Performs undo env fs op.call value plan) (hquiet : env.Quiet) :
    (op.run env fs).1 = value ∧ (op.run env fs).2.fs = fs.replay plan ∧ (op.run env fs).2.trace = plan := by
  obtain ⟨events, hemits, ⟨hvalue, rfl⟩ | ⟨reason, hbreaks, -⟩⟩ := h (.start fs) rfl
  · exact ⟨hvalue, hemits.view, hemits.record⟩
  · exact absurd hbreaks (hquiet.not_breaksOff reason)

/-- `fs_truncate` without a failed block access. -/
theorem truncate_run (h : Sound fs) (hfits : Fits fs.disk) {path : CStr} (hpath : Plain path) (len : Int)
    (hquiet : env.Quiet) :
    (∃ reason, (Op.run (.truncate path len) env fs).1 = .error reason ∧
      (Op.run (.truncate path len) env fs).2.fs = fs) ∨
    ((Op.run (.truncate path len) env fs).1 = .ok 0 ∧ len = 0 ∧ ∃ inum, Names fs.disk path inum ∧
      Truncated fs (Op.run (.truncate path len) env fs).2.fs inum env.time) := by
  have hacts : Acts env fs (Op.truncate path len).call (Truncate env fs path len) := acts_fsTruncate h hfits path len
  obtain ⟨value, plan, hdoes, hpost⟩ := hacts
  have hperforms : Performs (fun _ => False) env fs (Op.truncate path len).call value plan := .of_does hdoes
  obtain ⟨hvalue, hfs, -⟩ := run_of_performs hperforms hquiet
  rw [hvalue, hfs]
  cases hpost with
  | stops reason => exact Or.inl ⟨reason, rfl, rfl⟩
  | done hlen htranslate hfile =>
      exact Or.inr ⟨rfl, hlen, _, names_of_translateIn hpath htranslate,
        truncated_of_plan h hfits (reach_of_translateIn htranslate).1 hfile⟩

theorem Truncated.marks {fs' : Fs} {inum : Nat} {time : UInt32} (h : Truncated fs fs' inum time)
    (hsound : Sound fs) (b : Nat) (hb : (tree fs'.disk).InUse b) (hmark : bitTest fs.bitmap b = true) :
    bitTest fs'.bitmap b = true :=
  (h.bitmap b).mpr ⟨hmark, ((h.inUse_truncate hsound.exclusive b).mp hb).2⟩

theorem Truncated.leaves {fs' : Fs} {inum : Nat} {path : CStr} {len : Int} (h : Truncated fs fs' inum env.time)
    (hsound : Sound fs) (hnames : Names fs.disk path inum) : Leaves env fs (.truncate path len) fs' := by
  refine ⟨Or.inr ⟨_, .truncate hnames h.toResized (h.marks hsound), .refl⟩, fun _ b hb hmark => ?_⟩
  refine (h.bitmap b).mpr ⟨hmark, ?_⟩
  rintro ⟨i, hcell⟩
  exact hsound.reserved hb (Graph.Uses.cell h.reach hcell).inUse

theorem leaves_truncate (h : Sound fs) (hfits : Fits fs.disk) {path : CStr} (hpath : Plain path) (len : Int)
    (hquiet : env.Quiet) : Leaves env fs (.truncate path len) (Op.run (.truncate path len) env fs).2.fs := by
  rcases truncate_run h hfits hpath len hquiet with ⟨reason, -, hfs⟩ | ⟨-, -, inum, hnames, htruncated⟩
  · rw [hfs]
    exact ⟨Or.inl .refl, fun _ _ _ hmark => hmark⟩
  · exact htruncated.leaves h hnames

/-- What every request leaves, whatever it returns; an `fs_truncate` may not meet a failing access. -/
theorem leaves_run (h : Sound fs) (hfits : Fits fs.disk) (hop : op.Changes)
    (hquiet : ∀ path len, op = .truncate path len → env.Quiet)
    (hlive : ∀ path, op = .rmdir path → ¬FreesLive env.limits fs path) :
    Leaves env fs op (op.run env fs).2.fs := by
  by_cases htruncate : ∃ path len, op = .truncate path len
  · obtain ⟨path, len, rfl⟩ := htruncate
    exact leaves_truncate h hfits hop len (hquiet path len rfl)
  · exact leaves_of_run (attempts_phases h hfits hop (fun path len heq => htruncate ⟨path, len, heq⟩) hlive)

/-- A directory with a data block has it in `ptrs[0]`, so that `fs_rmdir` frees its own block. -/
theorem not_freesLive (hdirs : DirBlocks (1 ≤ ·) fs.disk) (limits : Limits) (path : CStr) :
    ¬FreesLive limits fs path := by
  rintro ⟨inum, dir, found, hat, hempty, -⟩
  have hpos : 1 ≤ (inodeAt fs.disk inum).numBlocks := hdirs inum (reach_of_translateIn hat.translate).1 hat.mode
  omega

theorem not_freesReserved (h : Sound fs) (hdirs : DirBlocks (1 ≤ ·) fs.disk) (limits : Limits) (path : CStr) :
    ¬FreesReserved limits fs path := by
  rintro ⟨inum, dir, found, hat, hlt⟩
  have hreach := (reach_of_translateIn hat.translate).1
  have hpos : (0 : Fin numPtrs).val < (inodeAt fs.disk inum).numBlocks := hdirs inum hreach hat.mode
  exact h.reserved hlt (Graph.Uses.cell hreach (tree_cell_eq_some.mpr ⟨hpos, rfl⟩)).inUse

/-- The outcome of a request where no block access fails and every directory has a data block. -/
theorem outcome_run (h : Sound fs) (hfits : Fits fs.disk) (hop : op.Changes) (hquiet : env.Quiet)
    (hdirs : ∀ path, op = .rmdir path → DirBlocks (1 ≤ ·) fs.disk) :
    Outcome env fs op (op.run env fs).1 (op.run env fs).2.fs := by
  by_cases htruncate : ∃ path len, op = .truncate path len
  · obtain ⟨path, len, rfl⟩ := htruncate
    rcases truncate_run h hfits hop len hquiet with ⟨reason, hvalue, hfs⟩ | ⟨hvalue, -, inum, hnames, htruncated⟩
    · rw [hvalue, hfs]
      exact .idle reason .refl
    · rw [hvalue]
      exact .done (.truncate hnames htruncated.toResized (htruncated.marks h)) .refl
  · obtain ⟨value, plan, hperforms, hphases⟩ := attempts_phases h hfits hop
      (fun path len heq => htruncate ⟨path, len, heq⟩) fun path hrmdir => not_freesLive (hdirs path hrmdir) _ path
    obtain ⟨hvalue, hfs, -⟩ := run_of_performs hperforms hquiet
    rw [hvalue, hfs]
    cases hphases with
    | idle hundone hsaves => exact .idle _ (keeps_replay hundone.silent)
    | done hfirst hsaves hcommit hsaved hlast hspares hlastSaves =>
        rw [← List.singleton_append, ← List.append_assoc, Fs.replay_append]
        exact .done hcommit (keeps_replay hlast)
    | outside hrmdir hat hempty hcommit hsaved =>
        have hpos : 1 ≤ (inodeAt fs.disk _).numBlocks :=
          hdirs _ hrmdir _ (reach_of_translateIn hat.translate).1 hat.mode
        omega

end Quiet

end Fs5600
