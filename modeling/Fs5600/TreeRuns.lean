import Fs5600.Answers

/-! The file system over whole runs: it answers every request as the hierarchy of paths says, and reports in every
state what the hierarchy has. -/

namespace Fs5600

open Ownership Command Run

/-! ### One request -/

/-- A request that changes the file system, where no block access fails, the names to store are short enough and
the local arrays have their declared lengths. -/
structure TreeStep (fs : Fs) (request : Request) (fs' : Fs) : Prop where
  changes : request.op.Changes
  files : request.op.RegularFiles
  storable : request.op.Storable
  quiet : request.env.Quiet
  limits : Roomy request.env.limits
  step : fs.Step request fs'

section Step

variable {env : Env} {fs fs' : Fs} {op : Op} {t : Hierarchy}

theorem Op.Storable.shortNames (h : op.Storable) (hop : op.Changes) : op.ShortNames := by
  have hlast : ∀ {path : CStr}, Plain path → (∀ c ∈ pathparse path, c.bytes.length ≤ 26) → ShortName path := by
    intro path hpath hshort init name hsplit
    rw [hpath.resolvePath] at hsplit
    exact hshort name (hsplit ▸ List.mem_concat_self)
  cases op with
  | create path mode => exact hlast hop h
  | mkdir path mode => exact hlast hop h.1
  | rename srcPath dstPath => exact hlast hop.2 h
  | _ => trivial

/-- Every request answers as it is meant to, or lacks space. -/
theorem Hosts.answers (h : Hosts fs t) (hop : op.Changes) (hfiles : op.RegularFiles) (hstorable : op.Storable)
    (hquiet : env.Quiet) (hlimits : Roomy env.limits) : AnswersTree env fs t op := by
  cases op with
  | create path mode => exact h.answers_create hquiet hlimits hop hstorable hfiles
  | mkdir path mode => exact h.answers_mkdir hquiet hlimits hop hstorable.1 hstorable.2
  | unlink path => exact h.answers_unlink hquiet hlimits hop
  | rmdir path => exact h.answers_rmdir hquiet hlimits hop
  | rename srcPath dstPath => exact h.answers_rename hquiet hlimits hop.1 hop.2 hstorable
  | chmod path mode => exact h.answers_chmod hquiet hlimits hop mode
  | utime path modtime => exact h.answers_utime hquiet hlimits hop modtime
  | truncate path len => exact h.answers_truncate hquiet hlimits hop len
  | write path buf offset => exact h.answers_write hquiet hlimits hop.1 hop.2
  | getattr path => exact hop.elim
  | readdir path => exact hop.elim
  | read path len offset => exact hop.elim
  | statfs => exact hop.elim

/-- The write that takes effect keeps the sizes. -/
theorem Commit.measured (h : Commit env fs fs' op) (hfiles : op.RegularFiles) (hsound : Sound fs)
    (hmeasured : AllInodes Measured fs.disk) : AllInodes Measured fs'.disk := by
  have hfile : ∀ {inode : Inode}, S_ISDIR inode.mode = false → 0 ≤ inode.size.toInt → Measured inode :=
    fun hmode hsize => ⟨hsize, fun hdir => by cases hmode.symm.trans hdir⟩
  cases h with
  | create hat hcreated => exact hcreated.allInodes hmeasured (hfile (S_ISDIR_eq_false_of_isReg hfiles) (le_refl 0))
  | mkdir hat hcreated => exact hcreated.allInodes hmeasured ⟨(by decide : 0 ≤ (4096 : Int32).toInt), fun _ => rfl⟩
  | unlink hnames hmode hdetached hbitmap hsize => exact hdetached.allInodes hmeasured
  | rmdir hat hnames hdetached hbitmap hsize => exact hdetached.allInodes hmeasured
  | rename hdst hparent hfree hrenamed => exact hrenamed.allInodes hmeasured
  | @chmod path mode inum hnames hreset =>
      refine hreset.allInodes hmeasured ⟨(hmeasured inum hreset.reach).1, fun hdir => ?_⟩
      rw [isDir_chmod] at hdir
      exact (hmeasured inum hreset.reach).2 hdir
  | @utime path modtime inum hnames hreset => exact hreset.allInodes hmeasured (hmeasured inum hreset.reach)
  | truncate hnames hresized hmarks =>
      exact hresized.allInodes hsound hmeasured (hfile (hresized.mode ▸ hresized.file) (le_refl 0))
  | write hnames hat hwritten =>
      have hsize := hwritten.size
      exact hwritten.toResized.allInodes hsound hmeasured (hfile (hwritten.mode ▸ hwritten.file) (by omega))

theorem Leaves.measured (h : Leaves env fs op fs') (hfiles : op.RegularFiles) (hsound : Sound fs)
    (hmeasured : AllInodes Measured fs.disk) : AllInodes Measured fs'.disk := by
  rcases h.tree with hkeep | ⟨mid, hcommit, hkeep⟩
  · exact hmeasured.keeps hsound.exclusive hkeep.disk
  · exact (hcommit.measured hfiles hsound hmeasured).keeps (hcommit.sound hsound).exclusive
      (hkeep.disk.mono fun _ => False.elim)

/-- A request answers as it is meant to, and the disk shows the hierarchy after it. -/
theorem TreeStep.hosts {request : Request} (hstep : TreeStep fs request fs') (h : Hosts fs t) :
    Answers request.env request.op t request.value (request.after t) ∧ Hosts fs' (request.after t) := by
  obtain ⟨hop, hfiles, hstorable, hquiet, hlimits, hvalue, rfl⟩ := hstep
  have hleaves := leaves_run h.toSound h.fits hop (fun _ _ _ => hquiet) fun path _ => not_freesLive h.dirBlocks _ path
  obtain ⟨t', hanswers, hshows⟩ := h.answers hop hfiles hstorable hquiet hlimits
  rw [hvalue] at hanswers
  rw [hanswers.after]
  refine ⟨hanswers, ⟨hleaves.settled h.toSettled hfiles (hstorable.shortNames hop),
    hleaves.measured hfiles h.toSound h.measured, ?_, hshows⟩⟩
  exact hleaves.diskSize.trans_le h.size

end Step

/-! ### What is reported -/

def Hierarchy.stat (t : Hierarchy) (names : List (List UInt8)) : Except Errno Stat := (t.lookup names).map Node.stat

def Hierarchy.read (t : Hierarchy) (names : List (List UInt8)) (len offset : Nat) : Except Errno (List UInt8) := do
  let node ← t.lookup names
  if !S_ISREG node.stat.mode then .error .EISDIR else .ok ((node.bytes.drop offset).take len)

/-- A list of the names in a directory, each once, with the attributes of what stands there. -/
inductive Hierarchy.Lists (t : Hierarchy) (names : List (List UInt8)) : Except Stop (List (List UInt8 × Stat)) → Prop
  | missing {code : Errno} (hlookup : t.lookup names = .error code) : Lists t names (.error (.errno code))
  | file {node : Node} (hlookup : t.lookup names = .ok node) (hfile : node.isDir = false) :
      Lists t names (.error (.errno .ENOTDIR))
  | entries {node : Node} {entries : List (List UInt8 × Stat)} (hlookup : t.lookup names = .ok node)
      (hdir : node.isDir = true)
      (hmem : ∀ name stat, (name, stat) ∈ entries ↔ ∃ below, t (names ++ [name]) = some below ∧ below.stat = stat)
      (hnodup : (entries.map Prod.fst).Nodup) : Lists t names (.ok entries)

/-- What `fs_getattr`, `fs_read` and `fs_readdir` return for a path is what the hierarchy has there. -/
structure ReportsTree (fs : Fs) (t : Hierarchy) (env : Env) (path : CStr) : Prop where
  getattr : (fsGetattr path env (.start fs)).1 = (t.stat (labels (pathparse path))).mapError .errno
  read : ∀ len offset, offset + len < 2 ^ 64 →
    (fsRead path len offset env (.start fs)).1 = (t.read (labels (pathparse path)) len offset).mapError .errno
  readdir : t.Lists (labels (pathparse path)) (fsReaddir path env (.start fs)).1

section Reports

variable {fs : Fs} {t : Hierarchy} {dir : Nat} {ls : List (List UInt8)}

/-- A listing shows what stands below the path of the directory. -/
theorem mem_listing_iff_below (huniq : (tree fs.disk).UniqueLabels) (hshows : ShowsTree fs.disk t)
    (hleads : (tree fs.disk).Leads 2 ls dir) (name : List UInt8) (stat : Stat) :
    (name, stat) ∈ listing fs.disk dir ↔ ∃ below, t (ls ++ [name]) = some below ∧ below.stat = stat := by
  constructor
  · intro hmem
    obtain ⟨slot, -, hshown⟩ := List.mem_filterMap.mp hmem
    obtain ⟨⟨label, inum⟩, hedge, heq⟩ := Option.map_eq_some_iff.mp hshown
    obtain ⟨rfl, rfl⟩ := Prod.mk.inj heq
    exact ⟨_, hshows.of_leads (Graph.leads_snoc.mpr ⟨dir, slot, hleads, hedge⟩), rfl⟩
  · rintro ⟨below, hbelow, rfl⟩
    obtain ⟨inum, hn, rfl⟩ := (hshows _ below).mp hbelow
    obtain ⟨dir', slot, hdir', hedge⟩ := Graph.leads_snoc.mp hn
    obtain rfl := huniq.leads_unique .root hdir' hleads
    exact List.mem_filterMap.mpr ⟨slot, mem_allSlots slot, by rw [hedge]; rfl⟩

/-- A listing shows every name once. -/
theorem nodup_listing (huniq : (tree fs.disk).UniqueLabels) (hdir : (tree fs.disk).Reach dir) :
    ((listing fs.disk dir).map Prod.fst).Nodup := by
  rw [listing, List.map_filterMap]
  refine nodup_allSlots.filterMap fun slot slot' name hname hname' => ?_
  have hedge : ∀ {s}, name ∈ (((tree fs.disk).edge dir s).map (shown fs.disk)).map Prod.fst →
      ∃ inum, (tree fs.disk).edge dir s = some (name, inum) := by
    intro s hs
    obtain ⟨entry, hentry, rfl⟩ := Option.map_eq_some_iff.mp hs
    obtain ⟨found, hfound, rfl⟩ := Option.map_eq_some_iff.mp hentry
    exact ⟨found.2, hfound⟩
  obtain ⟨inum, he⟩ := hedge hname
  obtain ⟨inum', he'⟩ := hedge hname'
  exact huniq _ _ _ _ _ _ hdir he he'

/-- What is reported of a path where no block access fails. -/
theorem Hosts.reports (h : Hosts fs t) {env : Env} (hquiet : env.Quiet) (hlimits : Roomy env.limits) {path : CStr}
    (hnames : ∀ c ∈ pathparse path, IsName c) (hshort : (pathparse path).length < maxPathLen) :
    ReportsTree fs t env path := by
  have hstack := hshort.trans_le hlimits.stack
  rcases translateIn_cases h.toWellNamed h.shows hnames hstack with
    ⟨code, hlookup, htranslate⟩ | ⟨n, hlookup, htranslate, hleads⟩
  · refine ⟨?_, fun len offset hrange => ?_, ?_⟩
    · rw [fsGetattr_value hquiet, htranslate, Hierarchy.stat, hlookup]
      rfl
    · rw [fsRead_value hquiet, htranslate, Hierarchy.read, hlookup]
      rfl
    · rw [fsReaddir_value hquiet h.toWellNamed, readdirIn, htranslate]
      exact .missing hlookup
  · have hreach := (reach_of_translateIn htranslate).1
    refine ⟨?_, fun len offset hrange => ?_, ?_⟩
    · rw [fsGetattr_value hquiet, htranslate, Hierarchy.stat, hlookup]
      rfl
    · rw [fsRead_value hquiet, htranslate, Hierarchy.read, hlookup]
      dsimp only [bind, Except.bind]
      by_cases hreg : S_ISREG (inodeAt fs.disk n).mode = true
      · have hfile : S_ISREG (nodeAt fs.disk n).stat.mode = true := hreg
        rw [readIn_eq hreg (h.fits n hreach) hrange, if_neg (by simp [hfile]),
          bytes_nodeAt (S_ISDIR_eq_false_of_isReg hreg)]
        rfl
      · have hfile : ¬S_ISREG (nodeAt fs.disk n).stat.mode = true := hreg
        rw [readIn, if_pos (by simp [hreg]), if_pos (by simp [hfile])]
        rfl
    · rw [fsReaddir_value hquiet h.toWellNamed, readdirIn, htranslate]
      dsimp only [bind, Except.bind]
      cases hmode : S_ISDIR (inodeAt fs.disk n).mode with
      | false => exact .file hlookup hmode
      | true => exact .entries hlookup hmode (mem_listing_iff_below h.unique h.shows hleads) (nodup_listing h.unique hreach)

end Reports

/-! ### Runs -/

/-- What stands at the paths of a disk. -/
noncomputable def hierarchyOf (disk : Nat → Block) : Hierarchy := (tree disk).shown (nodeAt disk)

/-- The hierarchy goes along with a request. -/
def Followed (request : Request) (_ _ : Fs) (t t' : Hierarchy) : Prop := t' = request.after t

theorem followed_after (request : Request) (fs fs' : Fs) (t : Hierarchy) :
    Followed request fs fs' t (request.after t) := rfl

section Runs

variable {fs fs' : Fs} {t : Hierarchy}

theorem hosts_of_run (h : WellFormed fs) (hmeasured : AllInodes Measured fs.disk) (hsize : fs.diskSize ≤ 1020)
    (hrun : Reaches (Along TreeStep Followed) (fs, hierarchyOf fs.disk) (fs', t)) : Hosts fs' t := by
  have hlayout : AllInodes (Layout (· = 1)) fs.disk := fun n hn => ⟨h.fits n hn, (hmeasured n hn).numBlocks⟩
  have hinv := @Reaches.invariant _ _ (Along TreeStep Followed) (fun state => Hosts state.1 state.2) _ _ hrun
    (fun state request state' hhosts hstep => ?_) ⟨⟨h, hlayout⟩, hmeasured, hsize, Graph.shows_shown h.unique⟩
  · exact hinv
  · obtain ⟨hstep, hfollowed⟩ := hstep
    have hhosts' := (hstep.hosts hhosts).2
    rwa [← hfollowed] at hhosts'

/-- In every state of a run, `fs_getattr`, `fs_read` and `fs_readdir` report of every path what the hierarchy has
there. -/
theorem tree_of_run (h : WellFormed fs) (hmeasured : AllInodes Measured fs.disk) (hsize : fs.diskSize ≤ 1020)
    (hrun : Reaches (Along TreeStep Followed) (fs, hierarchyOf fs.disk) (fs', t)) (env : Env) (hquiet : env.Quiet)
    (hlimits : Roomy env.limits) (path : CStr) (hnames : ∀ c ∈ pathparse path, IsName c)
    (hshort : (pathparse path).length < maxPathLen) : ReportsTree fs' t env path :=
  (hosts_of_run h hmeasured hsize hrun).reports hquiet hlimits hnames hshort

/-- Every request of a run returns the error code that the hierarchy gives for it, or success, or that there is no
space. -/
theorem answers_of_run (h : WellFormed fs) (hmeasured : AllInodes Measured fs.disk) (hsize : fs.diskSize ≤ 1020)
    (hrun : Reaches (Along TreeStep Followed) (fs, hierarchyOf fs.disk) (fs', t)) {request : Request} {fs'' : Fs}
    (hstep : TreeStep fs' request fs'') : Answers request.env request.op t request.value (request.after t) :=
  (hstep.hosts (hosts_of_run h hmeasured hsize hrun)).1

end Runs

theorem measured_sampleImage : AllInodes Measured sampleImage.disk := fun n hn =>
  of_decide_eq_true (allInodes_of_inodeCheck (P := fun inode => decide (Measured inode)) (by decide +kernel) n hn)

/-- Making a directory `g` is such a request. -/
theorem treeStep_mkdirG (fs : Fs) : TreeStep fs ⟨quietEnv 0, .mkdir (joinPath [nameG]) 0o755,
      (Op.run (.mkdir (joinPath [nameG]) 0o755) (quietEnv 0) fs).1⟩
    (Op.run (.mkdir (joinPath [nameG]) 0o755) (quietEnv 0) fs).2.fs := by
  refine ⟨plain_nameG, trivial, ⟨?_, by decide⟩, quiet_quietEnv 0, roomy_quietEnv 0, .of_run _ _ _⟩
  rw [show pathparse (joinPath [nameG]) = [nameG] from pathparse_joinPath (by decide)]
  decide

theorem tree_of_run_sampleImage :
    ReportsTree (Op.run (.mkdir (joinPath [nameG]) 0o755) (quietEnv 0) sampleImage).2.fs
      (Request.after ⟨quietEnv 0, .mkdir (joinPath [nameG]) 0o755,
        (Op.run (.mkdir (joinPath [nameG]) 0o755) (quietEnv 0) sampleImage).1⟩ (hierarchyOf sampleImage.disk))
      (quietEnv 0) (joinPath [nameG]) :=
  tree_of_run wellFormed_sampleImage measured_sampleImage (by decide)
    (.single ⟨treeStep_mkdirG _, followed_after _ _ _ _⟩) (quietEnv 0) (quiet_quietEnv 0) (roomy_quietEnv 0) _
    plain_nameG.names plain_nameG.short

def withG : Fs := (Op.run (.mkdir (joinPath [nameG]) 0o755) (quietEnv 0) sampleImage).2.fs

theorem answers_of_run_sampleImage : ∃ t,
    Reaches (Along TreeStep Followed) (sampleImage, hierarchyOf sampleImage.disk) (withG, t) ∧
    Answers (quietEnv 0) (.mkdir (joinPath [nameG]) 0o755) t
      (Op.run (.mkdir (joinPath [nameG]) 0o755) (quietEnv 0) withG).1
      (Request.after ⟨quietEnv 0, .mkdir (joinPath [nameG]) 0o755,
        (Op.run (.mkdir (joinPath [nameG]) 0o755) (quietEnv 0) withG).1⟩ t) ∧
    (Op.run (.mkdir (joinPath [nameG]) 0o755) (quietEnv 0) withG).1 = .error (.errno .EEXIST) := by
  have hrun : Reaches (Along TreeStep Followed) (sampleImage, hierarchyOf sampleImage.disk) (withG, _) :=
    .single ⟨treeStep_mkdirG _, followed_after _ _ _ _⟩
  exact ⟨_, hrun, answers_of_run wellFormed_sampleImage measured_sampleImage (by decide) hrun (treeStep_mkdirG _),
    by decide +kernel⟩

end Fs5600
