import Fs5600.Refines

/-! How requests answer where no block access fails: every request is refused or takes effect as it is meant to,
but for a lack of space. -/

namespace Fs5600

open Ownership Command Run

/-- A size that is not negative, and is one block for a directory. -/
def Measured (inode : Inode) : Prop := 0 ≤ inode.size.toInt ∧ (S_ISDIR inode.mode = true → inode.size.toInt = 4096)

instance (inode : Inode) : Decidable (Measured inode) := inferInstanceAs (Decidable (_ ∧ _))

theorem Measured.dirBlocks {inode : Inode} (h : Measured inode) (hmode : S_ISDIR inode.mode = true) :
    inode.dirBlocks = 1 := by
  rw [Inode.dirBlocks, h.2 hmode]
  rfl

theorem Measured.numBlocks {inode : Inode} (h : Measured inode) (hmode : S_ISDIR inode.mode = true) :
    inode.numBlocks = 1 := by
  rw [Inode.numBlocks, h.2 hmode]
  rfl

/-- A settled file system that shows the hierarchy, on a disk that a file cannot outgrow. -/
structure Hosts (fs : Fs) (t : Hierarchy) : Prop extends Settled fs where
  measured : AllInodes Measured fs.disk
  size : fs.diskSize ≤ 1020
  shows : ShowsTree fs.disk t

/-- The names on the paths that a request stores, or copies into a buffer before they are looked up, have at most
26 bytes; and a new directory is one. -/
def Op.Storable : Op → Prop
  | .create path _ | .rename _ path => ∀ c ∈ pathparse path, c.bytes.length ≤ 26
  | .mkdir path mode => (∀ c ∈ pathparse path, c.bytes.length ≤ 26) ∧ S_ISDIR (S_IFDIR ||| mode) = true
  | _ => True

/-- The request ends as it is meant to, and the disk shows the hierarchy it is meant to leave. -/
def AnswersTree (env : Env) (fs : Fs) (t : Hierarchy) (op : Op) : Prop :=
  ∃ t', Answers env op t (op.run env fs).1 t' ∧ ShowsTree (op.run env fs).2.fs.disk t'

section Answers

variable {env : Env} {fs : Fs} {op : Op} {t : Hierarchy} {path : CStr}

/-- A request that returns an error leaves what stands at the paths. -/
theorem Hosts.shows_of_error (h : Hosts fs t) (hop : op.Changes) (hquiet : env.Quiet) {reason : Stop}
    (hvalue : (op.run env fs).1 = .error reason) : ShowsTree (op.run env fs).2.fs.disk t := by
  have houtcome := outcome_run h.toSound h.fits hop hquiet fun _ _ => h.dirBlocks
  rw [hvalue] at houtcome
  cases houtcome with
  | idle _ hkeep => exact hkeep.showsTree h.toSound h.fits h.shows

theorem Hosts.refused (h : Hosts fs t) (hop : op.Changes) (hquiet : env.Quiet) {code : Errno}
    (hmeaning : op.meaning env t = .error code) (hdoes : Does env fs op.call (.error (.errno code)) []) :
    AnswersTree env fs t op := by
  have hvalue : (op.run env fs).1 = .error (.errno code) := (run_of_does hdoes hquiet).1
  exact ⟨t, hvalue ▸ .refused hmeaning, h.shows_of_error hop hquiet hvalue⟩

theorem answersTree_of_does (hquiet : env.Quiet) {plan : List Event}
    (hdoes : Does env fs op.call (.ok op.success) plan)
    (hmeaning : ∃ t', op.meaning env t = .ok t' ∧ ShowsTree (fs.replay plan).disk t') : AnswersTree env fs t op := by
  obtain ⟨hvalue, hfs⟩ : (op.run env fs).1 = _ ∧ (op.run env fs).2.fs = _ := run_of_does hdoes hquiet
  obtain ⟨t', hok, hshows⟩ := hmeaning
  exact ⟨t', hvalue ▸ .done hok, hfs ▸ hshows⟩

/-! ### `fs_chmod` and `fs_utime` -/

theorem Hosts.answers_chmod (h : Hosts fs t) (hquiet : env.Quiet) (hlimits : Roomy env.limits) (hpath : Plain path)
    (mode : UInt32) : AnswersTree env fs t (.chmod path mode) := by
  rcases translateIn_cases h.toWellNamed h.shows hpath.names (hpath.stack hlimits) with
    ⟨code, hlookup, htranslate⟩ | ⟨n, -, htranslate, hnames⟩
  · refine h.refused hpath hquiet ?_ (Follows.bind_error (htranslate ▸ reads_translate path))
    rw [Op.meaning, Hierarchy.change, hlookup]
    rfl
  · have hreach := (reach_of_translateIn htranslate).1
    have hreset := reset_of_write h.toSound hreach (isDir_chmod mode (inodeAt fs.disk n)) rfl rfl
    refine answersTree_of_does hquiet (does_read_bind (htranslate ▸ reads_translate path) (does_read_bind Follows.ask
      (does_bind_read (does_blockWrite (h.writable hreach.inUse) _) (Follows.pure 0)))) ?_
    exact hreset.showsTree h.toWellFormed hnames h.shows rfl

theorem Hosts.answers_utime (h : Hosts fs t) (hquiet : env.Quiet) (hlimits : Roomy env.limits) (hpath : Plain path)
    (modtime : Int) : AnswersTree env fs t (.utime path modtime) := by
  rcases translateIn_cases h.toWellNamed h.shows hpath.names (hpath.stack hlimits) with
    ⟨code, hlookup, htranslate⟩ | ⟨n, -, htranslate, hnames⟩
  · refine h.refused hpath hquiet ?_ (Follows.bind_error (htranslate ▸ reads_translate path))
    rw [Op.meaning, Hierarchy.change, hlookup]
    rfl
  · have hreach := (reach_of_translateIn htranslate).1
    have hreset : Reset fs _ n ((inodeAt fs.disk n).utime modtime) := reset_of_write h.toSound hreach rfl rfl rfl
    refine answersTree_of_does hquiet (does_read_bind (htranslate ▸ reads_translate path)
      (does_bind_read (does_blockWrite (h.writable hreach.inUse) _) (Follows.pure 0))) ?_
    exact hreset.showsTree h.toWellFormed hnames h.shows rfl

/-! ### `fs_truncate` -/

/-- What `fs_truncate` does with a file. -/
theorem does_fsTruncate (h : Sound fs) (hfits : Fits fs.disk) {inum : Nat}
    (htranslate : translateIn env.limits fs.disk path = .ok (inum, inodeAt fs.disk inum))
    (hfile : S_ISDIR (inodeAt fs.disk inum).mode = false) :
    Does env fs (fsTruncate path 0) (.ok 0)
      ((freed (inodeAt fs.disk inum) (inodeAt fs.disk inum).numBlocks 0).map .bitClear ++
        [.blockWrite inum ((inodeAt fs.disk inum).truncate env.time).toBlock,
          .blockWrite 1 (clearAll fs.bitmap (freed (inodeAt fs.disk inum) (inodeAt fs.disk inum).numBlocks 0))]) := by
  have hreach := (reach_of_translateIn htranslate).1
  have hwrite : ∀ fs' : Fs, Does env fs' (do
      bitmapWrite
      pure (0 : Int)) (.ok 0) [.blockWrite 1 fs'.bitmap] := fun fs' =>
    does_bind_read does_bitmapWrite (Follows.pure 0)
  rw [fsTruncate, if_neg (not_ne_iff.mpr rfl)]
  apply does_read_bind (htranslate ▸ reads_translate path)
  dsimp only
  rw [if_neg (by simp [hfile])]
  refine does_bind (does_freeLoop_of_sound h hfits hreach fs) ?_
  rw [replay_bitClears]
  exact does_read_bind Follows.ask (does_bind (does_blockWrite (h.writable hreach.inUse) _) (hwrite _))

theorem Hosts.answers_truncate (h : Hosts fs t) (hquiet : env.Quiet) (hlimits : Roomy env.limits) (hpath : Plain path)
    (len : Int) : AnswersTree env fs t (.truncate path len) := by
  by_cases hlen : len ≠ 0
  · refine @Hosts.refused env fs (.truncate path len) t h hpath hquiet .EINVAL (if_pos hlen) ?_
    rw [Op.call, fsTruncate, if_pos hlen]
    exact Follows.stop _
  obtain rfl := not_ne_iff.mp hlen
  have hmeaning : Op.meaning env t (.truncate path 0) =
      t.changeFile (labels (pathparse path)) fun node => .ok (node.setBytes [] env.time) := by
    rw [Op.meaning, if_neg hlen]
  rcases translateIn_cases h.toWellNamed h.shows hpath.names (hpath.stack hlimits) with
    ⟨code, hlookup, htranslate⟩ | ⟨n, hlookup, htranslate, hnames⟩
  · refine @Hosts.refused _ _ _ _ h hpath hquiet code ?_ ?_
    · rw [hmeaning, Hierarchy.changeFile, hlookup]
      rfl
    · rw [Op.call, fsTruncate, if_neg (not_ne_iff.mpr rfl)]
      exact Follows.bind_error (htranslate ▸ reads_translate path)
  cases hmode : S_ISDIR (inodeAt fs.disk n).mode with
  | true =>
      refine @Hosts.refused _ _ _ _ h hpath hquiet .EISDIR ?_ ?_
      · rw [hmeaning]
        exact Hierarchy.changeFile_of_dir hlookup hmode
      · rw [Op.call, fsTruncate, if_neg (not_ne_iff.mpr rfl)]
        apply does_read_bind (htranslate ▸ reads_translate path)
        dsimp only
        rw [if_pos hmode]
        exact Follows.stop _
  | false =>
      have hreach := (reach_of_translateIn htranslate).1
      have htruncated := @truncated_of_plan fs n env.time h.toSound h.fits hreach hmode
      refine answersTree_of_does hquiet (does_fsTruncate h.toSound h.fits htranslate hmode) ?_
      rw [hmeaning]
      refine htruncated.toResized.showsTree h.toWellFormed hnames h.shows ?_
      have hcontents : ∀ disk, ((inodeAt fs.disk n).truncate env.time).contents disk = [] := fun _ => rfl
      have hnode : nodeAt _ n = _ := @Resized.nodeAt_eq _ _ _ _ env.time htruncated.toResized rfl (le_refl 0)
      rw [hnode, hcontents]

/-! ### `fs_unlink` and `fs_rmdir` -/

theorem Hosts.answers_unlink (h : Hosts fs t) (hquiet : env.Quiet) (hlimits : Roomy env.limits) (hpath : Plain path) :
    AnswersTree env fs t (.unlink path) := by
  rcases translateIn_cases h.toWellNamed h.shows hpath.names (hpath.stack hlimits) with
    ⟨code, hlookup, htranslate⟩ | ⟨n, hlookup, htranslate, hnames⟩
  · refine h.refused hpath hquiet ?_ (Follows.bind_error (htranslate ▸ reads_translate path))
    rw [Op.meaning, Hierarchy.removeFile, hlookup]
    rfl
  have hmeaning : Op.meaning env t (.unlink path) = if S_ISDIR (inodeAt fs.disk n).mode then .error .EISDIR
      else .ok (Function.update t (labels (pathparse path)) none) := by
    rw [Op.meaning, Hierarchy.removeFile, hlookup]
    rfl
  cases hmode : S_ISDIR (inodeAt fs.disk n).mode with
  | true =>
      rw [hmode, if_pos rfl] at hmeaning
      refine h.refused hpath hquiet hmeaning (does_read_bind (htranslate ▸ reads_translate path) ?_)
      dsimp only
      rw [if_pos hmode]
      exact Follows.stop _
  | false =>
      rw [hmode, if_neg (by decide)] at hmeaning
      obtain ⟨init, name, dir, slot, hsplit, hinit, hedge⟩ := hpath.exists_parent hnames
      have hdir : (tree fs.disk).Reach dir := hinit.reach .root
      have hdirMode := (tree_edge_eq_some.mp hedge).1.1
      obtain ⟨hit, hsearch, -, rfl⟩ := h.search_of_edge hdir hedge
      have hparent := (hpath.parentDirIn_eq_ok_iff hlimits h.toWellNamed hsplit).mpr ⟨rfl, dir, hinit, hdirMode, rfl⟩
      have hremoved := removed_of_plan h.toSound hdir hdirMode hsearch
        (freed (inodeAt fs.disk hit.entry.inode.toNat) (inodeAt fs.disk hit.entry.inode.toNat).numBlocks 0 ++
          [hit.entry.inode.toNat])
      refine answersTree_of_does hquiet
        (does_fsUnlink h.toSound h.fits htranslate hmode hparent hdir hdirMode hsearch) ⟨_, hmeaning, ?_⟩
      exact hremoved.toDetached.showsTree h.toWellFormed hnames (tree_edge_of_not_dir hmode) h.shows

/-- A directory is empty where nothing stands below its path. -/
theorem emptyDir_iff (h : WellNamed fs.disk) (hshows : ShowsTree fs.disk t) {inum : Nat}
    (hnames : Names fs.disk path inum) :
    EmptyDir fs.disk inum ↔ ¬∃ name, (t (labels (pathparse path) ++ [name])).isSome := by
  constructor
  · rintro hempty ⟨name, hsome⟩
    obtain ⟨node, hnode⟩ := Option.isSome_iff_exists.mp hsome
    obtain ⟨m, hleads, -⟩ := (hshows _ node).mp hnode
    obtain ⟨dir, slot, hdir, hedge⟩ := Graph.leads_snoc.mp hleads
    obtain rfl := h.unique.leads_unique .root hdir hnames
    cases (hempty slot).symm.trans hedge
  · intro hnone slot
    rcases hedge : (tree fs.disk).edge inum slot with _ | ⟨name, m⟩
    · rfl
    · have hnode := hshows.of_leads (Graph.leads_snoc.mpr ⟨inum, slot, hnames, hedge⟩)
      exact absurd ⟨name, Option.isSome_of_eq_some hnode⟩ hnone

open Classical in
theorem Hosts.answers_rmdir (h : Hosts fs t) (hquiet : env.Quiet) (hlimits : Roomy env.limits) (hpath : Plain path) :
    AnswersTree env fs t (.rmdir path) := by
  rcases translateIn_cases h.toWellNamed h.shows hpath.names (hpath.stack hlimits) with
    ⟨code, hlookup, htranslate⟩ | ⟨n, hlookup, htranslate, hnames⟩
  · refine h.refused hpath hquiet ?_ (Follows.bind_error (Follows.bind_error
      (Follows.bind_error (htranslate ▸ reads_translate path))))
    rw [Op.meaning, Hierarchy.removeDir, hlookup]
    rfl
  have hmeaning : Op.meaning env t (.rmdir path) = if !S_ISDIR (inodeAt fs.disk n).mode then .error .ENOTDIR
      else if ∃ name, (t (labels (pathparse path) ++ [name])).isSome then .error .ENOTEMPTY
      else .ok (Function.update t (labels (pathparse path)) none) := by
    rw [Op.meaning, Hierarchy.removeDir, hlookup]
    rfl
  cases hmode : S_ISDIR (inodeAt fs.disk n).mode with
  | false =>
      rw [hmode, if_pos (by decide)] at hmeaning
      have hcheck : rmdirCheckIn env.limits fs.disk path = .error (.errno .ENOTDIR) := by
        rw [rmdirCheckIn, htranslate]
        dsimp only [bind, Except.bind]
        rw [if_pos (by simp [hmode])]
      exact h.refused hpath hquiet hmeaning (Follows.bind_error (Follows.bind_error (hcheck ▸ reads_rmdirCheck path)))
  | true =>
      have hreach := (reach_of_translateIn htranslate).1
      have hdirBlocks := (h.measured n hreach).dirBlocks hmode
      rw [hmode, if_neg (by decide)] at hmeaning
      by_cases hentry : ∃ slot, (direntAt fs.disk n (0, slot)).valid = true
      · have hfull := mt (emptyDir_iff h.toWellNamed h.shows hnames).mpr (not_emptyDir hmode hdirBlocks.ge hentry)
        rw [if_pos (not_not.mp hfull)] at hmeaning
        exact h.refused hpath hquiet hmeaning (does_fsRmdir_notEmpty htranslate hmode hentry)
      · have hnone : ∀ slot, (direntAt fs.disk n (0, slot)).valid = false := by simpa using hentry
        have hempty := emptyDir_of_one_block hdirBlocks.le hnone
        rw [if_neg ((emptyDir_iff h.toWellNamed h.shows hnames).mp hempty)] at hmeaning
        obtain ⟨init, name, dir, slot, hsplit, hinit, hedge⟩ := hpath.exists_parent hnames
        have hdir : (tree fs.disk).Reach dir := hinit.reach .root
        have hdirMode := (tree_edge_eq_some.mp hedge).1.1
        obtain ⟨hit, hsearch, -, hinum⟩ := h.search_of_edge hdir hedge
        have hparent := (hpath.parentDirIn_eq_ok_iff hlimits h.toWellNamed hsplit).mpr
          ⟨rfl, dir, hinit, hdirMode, rfl⟩
        have hat : RmdirAt env.limits fs path n dir (some hit) :=
          ⟨htranslate, hmode, hnone, hdir, name, hparent, hsearch⟩
        have hacts : Acts env fs (fsRmdir path) (Rmdir env.limits fs path) := acts_fsRmdir h.toSound path
        obtain ⟨value, plan, hdoes, hpost⟩ := hacts
        cases hpost with
        | stops reason hnot => exact absurd hat (hnot _ _ _)
        | @outside m _ _ hat' hbit =>
            obtain ⟨rfl, -, -⟩ := hat.unique hat'
            have howned : DirOwned fs.disk m ((inodeAt fs.disk m).block 0) := Or.inr ⟨0, by omega, rfl⟩
            rw [← Inode.block_zero] at hbit
            exact absurd (bitTest_lt (bit_of_dirOwned h.toWellFormed hreach howned)) hbit
        | @done m _ _ hat' hbit =>
            obtain ⟨rfl, hsame, rfl⟩ := hat.unique hat'
            rw [hsame] at hdoes
            have hremoved := removed_of_plan h.toSound hdir hdirMode hsearch
              [((inodeAt fs.disk m).ptrs 0).toNat, m]
            rw [hinum] at hremoved
            exact answersTree_of_does hquiet hdoes
              ⟨_, hmeaning, hremoved.toDetached.showsTree h.toWellFormed hnames hempty h.shows⟩

/-! ### `fs_write` -/

theorem Hosts.answers_write (h : Hosts fs t) (hquiet : env.Quiet) (hlimits : Roomy env.limits) (hpath : Plain path)
    {buf : List UInt8} {offset : Nat} (hlen : offset + buf.length < 2 ^ 31) :
    AnswersTree env fs t (.write path buf offset) := by
  have hop : (Op.write path buf offset).Changes := ⟨hpath, hlen⟩
  rcases translateIn_cases h.toWellNamed h.shows hpath.names (hpath.stack hlimits) with
    ⟨code, hlookup, htranslate⟩ | ⟨n, hlookup, htranslate, hnames⟩
  · refine h.refused hop hquiet ?_ (Follows.bind_error (htranslate ▸ reads_translate path))
    rw [Op.meaning, Hierarchy.changeFile, hlookup]
    rfl
  cases hmode : S_ISDIR (inodeAt fs.disk n).mode with
  | true =>
      refine h.refused hop hquiet (Hierarchy.changeFile_of_dir hlookup hmode)
        (does_read_bind (htranslate ▸ reads_translate path) ?_)
      dsimp only
      rw [if_pos hmode]
      exact Follows.stop _
  | false =>
      have hreach := (reach_of_translateIn htranslate).1
      have hsize := (h.measured n hreach).1
      have hblocks := numBlocks_of_nonneg hsize
      have hlength : (nodeAt fs.disk n).bytes.length = (inodeAt fs.disk n).size.toInt.toNat := by
        rw [bytes_nodeAt hmode, Inode.length_contents]
      have hmeaning := Hierarchy.changeFile_of_file hlookup hmode (Hierarchy.writeNode buf offset env.time)
      by_cases hoffset : (inodeAt fs.disk n).size.toInt < offset
      · have hrefuses : Hierarchy.writeNode buf offset env.time (nodeAt fs.disk n) = .error .EINVAL :=
          if_pos (by omega)
        rw [hrefuses] at hmeaning
        refine h.refused hop hquiet hmeaning (does_read_bind (htranslate ▸ reads_translate path) ?_)
        dsimp only
        rw [if_neg (by simp [hmode]), if_pos hoffset]
        exact Follows.stop _
      have hacts : Acts env fs (fsWrite path buf offset) _ := acts_fsWrite h.toSound h.fits path buf offset hlen
      obtain ⟨value, plan, hdoes, hpost⟩ := hacts
      cases hpost with
      | stops reason hnot =>
          exact absurd ⟨htranslate, hmode, not_lt.mp hoffset, .nil fs⟩ (hnot n [])
      | @noSpace m claimed reason hat halloc =>
          obtain ⟨rfl, -⟩ := Prod.mk.inj (Except.ok.inj (hat.translate.symm.trans htranslate))
          have hvalue : (Op.run (.write path buf offset) env fs).1 = .error reason := (run_of_does hdoes hquiet).1
          cases halloc with
          | fault hpos hcount hbound =>
              have hroom := hat.claimable.room h.toSound h.size hreach
              have hsize := h.size
              simp only [bitmapBits] at hbound
              omega
          | noSpace hcount hall =>
              by_cases hshort : (offset + buf.length + 4095) / 4096 < ((nodeAt fs.disk m).bytes.length + 4095) / 4096
              · have hrefuses : Hierarchy.writeNode buf offset env.time (nodeAt fs.disk m) = .error .ENOSPC := by
                  rw [Hierarchy.writeNode, if_neg (by omega), if_pos hshort]
                rw [hrefuses] at hmeaning
                exact ⟨t, hvalue ▸ .refused hmeaning, h.shows_of_error hop hquiet hvalue⟩
              · have hwrites : Hierarchy.writeNode buf offset env.time (nodeAt fs.disk m) =
                    .ok ((nodeAt fs.disk m).setBytes (splice buf offset (nodeAt fs.disk m).bytes) env.time) := by
                  rw [Hierarchy.writeNode, if_neg (by omega), if_neg hshort]
                rw [hwrites] at hmeaning
                exact ⟨t, hvalue ▸ .lacks hmeaning rfl, h.shows_of_error hop hquiet hvalue⟩
      | @done m claimed data hat hcount hfits hwrites hbytes =>
          obtain ⟨rfl, -⟩ := Prod.mk.inj (Except.ok.inj (hat.translate.symm.trans htranslate))
          have hvalue : (Op.run (.write path buf offset) env fs).1 = .ok buf.length := (run_of_does hdoes hquiet).1
          have houtcome := outcome_run h.toSound h.fits hop hquiet fun _ _ => h.dirBlocks
          rw [hvalue] at houtcome
          rw [AnswersTree, hvalue]
          generalize (Op.run (.write path buf offset) env fs).2.fs = fs' at houtcome
          cases houtcome with
          | @done mid _ hcommit hkeep =>
              have hlayout : AllInodes (Layout (· = 1)) mid.disk := hcommit.layout h.toSound trivial rfl h.layout
              have hsound' := hcommit.sound h.toSound
              cases hcommit with
              | write hnames' hat' hwritten =>
                  obtain rfl := h.unique.leads_unique .root hnames' hnames
                  obtain ⟨t', hok, hshows⟩ := hwritten.toResized.showsTree h.toWellFormed hnames h.shows
                    (hwritten.writeNode hat'.offset_le (by omega))
                  exact ⟨t', .done hok, hkeep.showsTree hsound' (fits_of_layout hlayout) hshows⟩

/-! ### `fs_create` and `fs_mkdir` -/

/-- The parent of a path is missing on the disk as it is in the hierarchy, or it is there. -/
theorem Hosts.parent_cases (h : Hosts fs t) (hlimits : Roomy env.limits) (hpath : Plain path)
    (hshort : ∀ c ∈ pathparse path, c.bytes.length ≤ 26) :
    (∃ code, parentDirIn env.limits fs.disk path = .error (.errno code) ∧
        ∀ node, t.make (labels (pathparse path)) node = .error code) ∨
      ∃ name dir, ParentAt fs.disk path name dir ∧ name.bytes.length ≤ 26 := by
  obtain ⟨init, name, hsplit⟩ := hpath.exists_split
  have hresolved := hpath.resolvePath.trans hsplit
  have hinit : ∀ c ∈ init, c.bytes.length < nameLen := fun c hc =>
    (hshort c (hsplit ▸ List.mem_append_left _ hc)).trans_lt (by decide)
  have hlabels : (labels (pathparse path)).dropLast = labels init := by
    rw [hsplit, labels_append, List.dropLast_concat]
  rcases lookup_cases h.toWellNamed h.shows init with ⟨code, hlookup, hdescend⟩ | ⟨dir, hlookup, hdescend, hleads⟩
  · refine Or.inl ⟨code, ?_, fun node => ?_⟩
    · rw [parentDirIn, hresolved, parentPathIn_of_short hlimits hinit (length_of_resolved hresolved)]
      simp only [lastComponentIn, List.getLast?_concat, bind, Except.bind]
      rw [translateIn_of_resolved hlimits hresolved, hdescend]
      rfl
    · rw [Hierarchy.make, hlabels, hlookup]
      rfl
  · have hparent := parentDirIn_of_resolved hlimits hresolved hinit hdescend
    cases hmode : S_ISDIR (inodeAt fs.disk dir).mode with
    | false =>
        have hnode : (nodeAt fs.disk dir).isDir = false := hmode
        refine Or.inl ⟨.ENOTDIR, by rw [hparent, hmode]; rfl, fun node => ?_⟩
        rw [Hierarchy.make, hlabels, hlookup]
        dsimp only [bind, Except.bind]
        rw [hnode]
        rfl
    | true =>
        exact Or.inr ⟨name, dir, ⟨⟨init, hsplit, hleads⟩, hmode⟩, hshort name (hsplit ▸ List.mem_concat_self)⟩

/-- How a request answers that makes an object. -/
theorem Hosts.answers_making (h : Hosts fs t) {need : Nat} {full : Errno} {isNew : Inode → Prop} {node : Node}
    {value : Except Stop Int} {fs' : Fs} (hmaking : Making need full isNew fs path value fs')
    (hlimits : Roomy env.limits) (hpath : Plain path) (hshort : ∀ c ∈ pathparse path, c.bytes.length ≤ 26)
    (hmeaning : op.meaning env t = t.make (labels (pathparse path)) node) (hsuccess : op.success = 0)
    (hlacks : op.Lacks .ENOSPC ∧ op.Lacks full)
    (hnode : ∀ dir slot name inum inode claimed, isNew inode → Created fs fs' dir slot name inum inode claimed →
      nodeAt fs'.disk inum = node)
    (hshows : ∀ reason, value = .error reason → ShowsTree fs'.disk t)
    (hparent : ∀ reason, parentDirIn env.limits fs.disk path = .error reason → value = .error reason)
    (hspace : ∀ name dir, ParentAt fs.disk path name dir → NameFree fs.disk dir name → (freeBits fs).card < need →
      value = .error (.errno .ENOSPC)) :
    ∃ t', Answers env op t value t' ∧ ShowsTree fs'.disk t' := by
  have hfree : ∀ {name dir}, ParentAt fs.disk path name dir → NameFree fs.disk dir name → op.meaning env t = _ :=
    fun hat hname => hmeaning.trans ((make_eq h.toWellNamed h.shows hat node).trans (if_pos hname))
  rcases h.parent_cases hlimits hpath hshort with ⟨code, hmissing, hmake⟩ | ⟨name, dir, hat, hlength⟩
  · have hvalue := hparent _ hmissing
    exact ⟨t, hvalue ▸ .refused (hmeaning.trans (hmake node)), hshows _ hvalue⟩
  cases hmaking with
  | noParent hreason hnot => exact absurd hat (hnot name dir)
  | there hat' hname =>
      exact ⟨t, .refused (hmeaning.trans ((make_eq h.toWellNamed h.shows hat' node).trans (if_neg hname))), hshows _ rfl⟩
  | noSpace hat' hname hfew hreason =>
      have hvalue := hspace _ _ hat' hname hfew
      exact ⟨t, hvalue ▸ .lacks (hfree hat' hname) hlacks.1, hshows _ hvalue⟩
  | full hat' hname hclaim hcount hfull hbitmap =>
      exact ⟨t, .lacks (hfree hat' hname) hlacks.2, hshows _ rfl⟩
  | done hat' hname hcount hunused hnew hcreated =>
      obtain ⟨rfl, rfl⟩ := hat.unique hat' h.unique
      have hdone : Answers env op t (.ok op.success) _ := .done (hfree hat' hname)
      rw [hsuccess] at hdone
      refine ⟨_, hdone, ?_⟩
      rw [← hnode _ _ _ _ _ _ hnew hcreated]
      exact hcreated.showsTree h.toWellFormed hat' hname hlength h.shows

/-- What `fs_create` and `fs_mkdir` look up before they look for clear bits. -/
theorem Hosts.reads_free (h : Hosts fs t) (hlimits : Roomy env.limits) (hpath : Plain path) {name : CStr} {dir : Nat}
    (hat : ParentAt fs.disk path name dir) (hname : NameFree fs.disk dir name) :
    Reads env fs (parentDir path) (.ok (name, inodeAt fs.disk dir)) ∧
      Reads env fs (searchDir (hasName name) (inodeAt fs.disk dir)) (.ok none) := by
  obtain ⟨init, hsplit, hinit⟩ := hat.leads
  have hparent := (hpath.parentDirIn_eq_ok_iff hlimits h.toWellNamed hsplit).mpr ⟨rfl, dir, hinit, hat.mode, rfl⟩
  rcases h.name_cases hat.reach hat.mode name with ⟨hit, hsearch, hnot⟩ | ⟨hsearch, -⟩
  · exact absurd hname hnot
  · exact ⟨hparent ▸ reads_parentDir path, hsearch ▸ reads_searchDir⟩

theorem Hosts.answers_create (h : Hosts fs t) (hquiet : env.Quiet) (hlimits : Roomy env.limits) (hpath : Plain path)
    (hshort : ∀ c ∈ pathparse path, c.bytes.length ≤ 26) {mode : UInt32} (hreg : S_ISREG mode = true) :
    AnswersTree env fs t (.create path mode) := by
  have hmaking := making_create h.toWellFormed hlimits hquiet hpath mode
  refine @Hosts.answers_making _ _ _ _ _ h _ _ _ (.newFile env mode) _ _ hmaking hlimits hpath hshort rfl rfl
    ⟨rfl, rfl⟩ ?_ (fun reason => @Hosts.shows_of_error env fs (.create path mode) t h hpath hquiet reason) ?_ ?_
  · rintro dir slot name inum inode claimed rfl hcreated
    have hfile : S_ISDIR (inodeAt (Op.run (.create path mode) env fs).2.fs.disk inum).mode = false := by
      rw [hcreated.new]
      exact S_ISDIR_eq_false_of_isReg hreg
    rw [nodeAt, hfile, hcreated.new]
    rfl
  · intro reason hparent
    have hdoes : Does env fs (Op.create path mode).call (.error reason) [] :=
      Follows.bind_error (hparent ▸ reads_parentDir path)
    exact (run_of_does hdoes hquiet).1
  · intro name dir hat hname hfew
    obtain ⟨hread, hfind⟩ := h.reads_free hlimits hpath hat hname
    rcases hclear : clearBit fs.bitmap fs.diskSize with reason | (_ | inum)
    · have hbits := (clearBit_eq_error hclear).2
      have hsize := h.size
      simp only [bitmapBits] at hbits
      omega
    · have hdoes : Does env fs (Op.create path mode).call (.error (.errno .ENOSPC)) [] :=
        does_fsCreate hread hfind hclear (does_read_bind (Follows.lift _) (Follows.stop _))
      exact (run_of_does hdoes hquiet).1
    · have hcount := (claimable_of_clearBit hclear).length_le_freeBits
      rw [List.length_singleton] at hcount
      omega

theorem clearBitsLoop_ne_error {map : Block} {left i d b : Nat} {reason : Stop} (h : i + left ≤ bitmapBits) :
    clearBitsLoop map left i d b ≠ .error reason := by
  intro herror
  induction left generalizing i d b with
  | zero => cases herror
  | succ left ih =>
      unfold clearBitsLoop at herror
      rw [if_neg (by omega)] at herror
      split_ifs at herror
      · exact ih (by omega) herror
      · exact ih (by omega) herror

theorem Hosts.answers_mkdir (h : Hosts fs t) (hquiet : env.Quiet) (hlimits : Roomy env.limits) (hpath : Plain path)
    (hshort : ∀ c ∈ pathparse path, c.bytes.length ≤ 26) {mode : UInt32}
    (hdir : S_ISDIR (S_IFDIR ||| mode) = true) : AnswersTree env fs t (.mkdir path mode) := by
  have hmaking := making_mkdir h.toWellFormed hlimits hquiet hpath mode
  refine @Hosts.answers_making _ _ _ _ _ h _ _ _ (.newDir env mode) _ _ hmaking hlimits hpath hshort rfl rfl
    ⟨Or.inl rfl, Or.inr rfl⟩ ?_ (fun reason => @Hosts.shows_of_error env fs (.mkdir path mode) t h hpath hquiet reason)
    ?_ ?_
  · rintro dir slot name inum inode claimed ⟨block, rfl⟩ hcreated
    have hmode : S_ISDIR (newDirInode env mode block).mode = true := hdir
    rw [nodeAt, hcreated.new, if_pos hmode]
    rfl
  · intro reason hparent
    have hdoes : Does env fs (Op.mkdir path mode).call (.error reason) [] :=
      Follows.bind_error (hparent ▸ reads_parentDir path)
    exact (run_of_does hdoes hquiet).1
  · intro name dir hat hname hfew
    obtain ⟨hread, hfind⟩ := h.reads_free hlimits hpath hat hname
    have hsize := h.size
    rcases hclear : clearBits fs.bitmap fs.diskSize with reason | ⟨inum, block⟩
    · exact absurd hclear (clearBitsLoop_ne_error (by simp only [bitmapBits]; omega))
    · by_cases hzero : inum = 0 ∨ block = 0
      · have hdoes : Does env fs (Op.mkdir path mode).call (.error (.errno .ENOSPC)) [] := by
          refine does_fsMkdir hread hfind hclear (does_read_bind (Follows.lift _) ?_)
          dsimp only
          rw [if_pos hzero]
          exact Follows.stop _
        exact (run_of_does hdoes hquiet).1
      · have hcount := (claimable_of_clearBits hclear (not_or.mp hzero).2).length_le_freeBits
        simp only [List.length_cons, List.length_nil] at hcount
        omega

/-! ### `fs_rename` -/

/-- In a directory of one block a taken name is always noticed. -/
theorem Hosts.namedBefore_iff (h : Hosts fs t) {dir : Nat} (hdir : (tree fs.disk).Reach dir)
    (hmode : S_ISDIR (inodeAt fs.disk dir).mode = true) (src dst : CStr) (index : Nat) :
    NamedBefore fs.disk dir src dst (index + 1) ↔ dst ≠ src ∧ ¬NameFree fs.disk dir dst := by
  have hone := (h.measured dir hdir).dirBlocks hmode
  refine and_congr_right fun _ => ⟨?_, fun hname => ?_⟩
  · rintro ⟨slot, m, -, hedge⟩ hfree
    exact hfree slot m hedge
  · obtain ⟨slot, m, hedge⟩ : ∃ slot m, (tree fs.disk).edge dir slot = some (dst.bytes, m) := by
      simpa [NameFree] using hname
    have hslot := (tree_edge_eq_some.mp hedge).1.2
    exact ⟨slot, m, by omega, hedge⟩

open Classical in
theorem Hosts.answers_rename (h : Hosts fs t) (hquiet : env.Quiet) (hlimits : Roomy env.limits)
    {srcPath dstPath : CStr} (hsrcPlain : Plain srcPath) (hdstPlain : Plain dstPath)
    (hshort : ∀ c ∈ pathparse dstPath, c.bytes.length ≤ 26) : AnswersTree env fs t (.rename srcPath dstPath) := by
  have hop : (Op.rename srcPath dstPath).Changes := ⟨hsrcPlain, hdstPlain⟩
  have hread : ∀ path, Reads env fs (mapStop toENOENT (translate path))
      ((translateIn env.limits fs.disk path).mapError toENOENT) := fun path =>
    reads_mapStop toENOENT_ne_fault (reads_translate path)
  rcases translateIn_cases h.toWellNamed h.shows hsrcPlain.names (hsrcPlain.stack hlimits) with
    ⟨code, hlookup, htranslate⟩ | ⟨n, hlookup, htranslate, hnames⟩
  · have hsrc := hread srcPath
    rw [htranslate] at hsrc
    refine @Hosts.refused _ _ _ _ h hop hquiet .ENOENT ?_ (Follows.bind_error hsrc)
    rw [Op.meaning, Hierarchy.rename, hlookup]
    rfl
  obtain ⟨initSrc, src, dir, slot, hsrcSplit, hinitSrc, hedge⟩ := hsrcPlain.exists_parent hnames
  obtain ⟨initDst, dst, hdstSplit⟩ := hdstPlain.exists_split
  have hsrcResolved := hsrcPlain.resolvePath.trans hsrcSplit
  have hdstResolved := hdstPlain.resolvePath.trans hdstSplit
  obtain ⟨hsrcJoin, hsrcWalk⟩ := hsrcPlain.translateIn_parent hlimits h.toWellNamed hsrcSplit hinitSrc
  have hdstJoin : parentPathIn env.limits (initDst ++ [dst]) = .ok (joinPath initDst) :=
    parentPathIn_of_short hlimits (fun c hc => (hshort c (hdstSplit ▸ List.mem_append_left _ hc)).trans_lt (by decide))
      (length_of_resolved hdstResolved)
  have hdstWalk := @translateIn_of_resolved fs.disk env.limits dstPath hlimits initDst dst hdstResolved
  -- the code up to the lookup of the second parent
  have hfront : ∀ {value : Except Stop Int} {plan : List Event} {rest : Nat × Inode → Call Int},
      (∀ found, rest found = if dir ≠ found.1 then err .EINVAL else if !S_ISDIR found.2.mode then err .ENOTDIR
        else renameLoop src dst found.2 found.2.dirBlocks 0 false) →
      Does env fs (mapStop toENOENT (translate (joinPath initDst)) >>= rest) value plan →
        Does env fs (fsRename srcPath dstPath) value plan := by
    intro value plan rest hrest hdoes
    have hlast : ∀ {init : List CStr} {name : CStr}, Reads env fs (lastComponent (init ++ [name])) (.ok name) := by
      intro init name
      have hlast : lastComponentIn (init ++ [name]) = .ok name := by
        rw [lastComponentIn, List.getLast?_concat]
      exact hlast ▸ reads_lastComponent _
    have hsrc := hread srcPath
    have hsrcParent := hread (joinPath initSrc)
    rw [htranslate] at hsrc
    rw [hsrcWalk] at hsrcParent
    rw [funext hrest] at hdoes
    rw [fsRename, hsrcResolved, hdstResolved]
    refine does_read_bind hsrc (does_read_bind hlast (does_read_bind hlast ?_))
    refine does_read_bind (hsrcJoin ▸ reads_parentPath _) (does_read_bind (hdstJoin ▸ reads_parentPath _) ?_)
    exact does_read_bind hsrcParent hdoes
  have hmeaning : Op.meaning env t (.rename srcPath dstPath) = ((t.lookup (labels initDst)).mapError fun _ => .ENOENT) >>=
      fun _ => if labels initSrc ≠ labels initDst then .error .EINVAL
        else if labels initDst ++ [dst.bytes] ≠ labels initSrc ++ [src.bytes] ∧ (t (labels initDst ++ [dst.bytes])).isSome
        then .error .EEXIST
        else .ok (t.move (labels initSrc ++ [src.bytes]) (labels initDst ++ [dst.bytes])) := by
    rw [Op.meaning, Hierarchy.rename, hlookup, hsrcSplit, hdstSplit, labels_append, labels_append, List.dropLast_concat,
      List.dropLast_concat]
    rfl
  have hparent := hread (joinPath initDst)
  rcases lookup_cases h.toWellNamed h.shows initDst with ⟨code, hdstLookup, hdescend⟩ | ⟨m, hdstLookup, hdescend, hinitDst⟩
  · rw [hdstWalk, hdescend] at hparent
    rw [hdstLookup] at hmeaning
    exact h.refused hop hquiet hmeaning (hfront (fun _ => rfl) (Follows.bind_error hparent))
  rw [hdstWalk, hdescend] at hparent
  rw [hdstLookup] at hmeaning
  by_cases hne : dir ≠ m
  · have hpaths : labels initSrc ≠ labels initDst := fun heq =>
      hne (h.unique.leads_unique .root hinitSrc (heq ▸ hinitDst))
    refine h.refused hop hquiet (hmeaning.trans (if_pos hpaths))
      (hfront (fun _ => rfl) (does_read_bind hparent ?_))
    rw [if_pos hne]
    exact Follows.stop _
  obtain rfl := not_ne_iff.mp hne
  have hpaths : labels initSrc = labels initDst := h.exclusive.leads_injective hinitSrc hinitDst
  have hdir : (tree fs.disk).Reach dir := hinitSrc.reach .root
  obtain ⟨hslot, hvalid, hname⟩ := direntAt_of_edge hedge
  have hdst : ParentAt fs.disk dstPath dst dir := ⟨⟨initDst, hdstSplit, hinitDst⟩, hslot.1⟩
  obtain ⟨htaken, hmoves⟩ := does_fsRename h.toWellFormed hlimits hsrcPlain hdstPlain
    ⟨⟨initSrc, hsrcSplit, hinitSrc⟩, hslot.1⟩ hdst hedge
  have hnamed := h.namedBefore_iff hdir hslot.1 src dst slot.1.val
  have htakenIff := isSome_iff_not_free h.toWellNamed h.shows hinitDst dst
  have hdiffers : labels initDst ++ [dst.bytes] ≠ labels initSrc ++ [src.bytes] ↔ dst ≠ src := by
    rw [hpaths]
    exact not_congr ⟨fun heq => CStr.ext (by simpa using heq), fun heq => by rw [heq]⟩
  have hrest : Op.meaning env t (.rename srcPath dstPath) =
      if dst ≠ src ∧ ¬NameFree fs.disk dir dst then .error .EEXIST
      else .ok (t.move (labels initSrc ++ [src.bytes]) (labels initDst ++ [dst.bytes])) := by
    refine hmeaning.trans ((if_neg (not_ne_iff.mpr hpaths)).trans ?_)
    simp only [htakenIff, hdiffers]
  by_cases hbefore : NamedBefore fs.disk dir src dst (slot.1.val + 1)
  · exact h.refused hop hquiet (hrest.trans (if_pos (hnamed.mp hbefore))) (htaken hbefore)
  · have hrenamed : Renamed fs (fs.replay _) dir slot src dst _ :=
      renamed_of_entry h.toSound hdir hslot hvalid hname
    refine answersTree_of_does hquiet (hmoves hbefore) ⟨_, hrest.trans (if_neg (mt hnamed.mpr hbefore)), ?_⟩
    rw [← hpaths]
    refine hrenamed.showsTree h.toWellFormed hinitSrc (hshort dst (hdstSplit ▸ List.mem_concat_self)) ?_ h.shows
    rw [hnamed, not_and_or, not_not, not_not] at hbefore
    exact hbefore

end Answers

end Fs5600
