import Fs5600.Ascent

/-! The last name of a path. Five operations take element `resolved_count - 1` of the resolved components. A path
that is resolved to nothing has no such element; which of the operations notice depends on what they check
before. -/

namespace Fs5600

open Command

/-- What an operation does before it takes the last names of its paths, and what it keeps of it. -/
def Op.checks : Op → Call (Option (Nat × Inode))
  | .unlink path => do
      let (inum, inode) ← translate path
      if S_ISDIR inode.mode then err .EISDIR else pure (some (inum, inode))
  | .rmdir path => do
      let found ← rmdirCheck path
      pure (some found)
  | .rename srcPath _ => do
      let _ ← mapStop toENOENT (translate srcPath)
      pure none
  | _ => pure none

/-- The paths whose last names an operation takes. -/
def Op.named : Op → List CStr
  | .create path _ => [path]
  | .mkdir path _ => [path]
  | .unlink path => [path]
  | .rmdir path => [path]
  | .rename srcPath dstPath => [srcPath, dstPath]
  | _ => []

/-- Something that is delivered for each of some paths, one after the other. -/
def eachPath (f : CStr → Call CStr) : List CStr → Call (List CStr)
  | [] => pure []
  | path :: rest => do
      let first ← f path
      let others ← eachPath f rest
      pure (first :: others)

/-- Element `resolved_count - 1` of the resolved components of some paths. -/
def takeLastNames : List CStr → Call (List CStr) := eachPath fun path => lastComponent (resolvePath (pathparse path))

def buildParents : List CStr → Call (List CStr) := eachPath fun path => parentPath (resolvePath (pathparse path))

/-- An operation makes its checks, then takes the last names of its paths, builds their parent paths, and does the rest
with them. -/
def Op.TakesNames (op : Op) : Prop :=
  ∃ rest : Option (Nat × Inode) → List CStr → List CStr → Call Int,
    op.call = op.checks >>= fun found => takeLastNames op.named >>= fun names =>
      buildParents op.named >>= rest found names

/-- The index `resolved_count - 1` lies inside the resolved components. -/
def HasLastName (path : CStr) : Prop :=
  0 ≤ ((resolvePath (pathparse path)).length : Int) - 1

instance (path : CStr) : Decidable (HasLastName path) := inferInstanceAs (Decidable (_ ≤ _))

/-- An operation indexes the resolved components inside their range only: where its checks pass, there are last
names to take. Where there is none it returns an error code, undefined behaviour of its own lookup left aside. -/
structure IndexSafe (env : Env) (fs : Fs) (op : Op) : Prop where
  index : ∀ found, (op.checks env (.start fs)).1 = .ok found → ∀ path ∈ op.named, HasLastName path
  code : (∃ path ∈ op.named, ¬HasLastName path) → (op.checks env (.start fs)).1 ≠ .error .fault →
    ∃ code, (op.run env fs).1 = .error (.errno code)

/-- `translate` does not succeed on a path. -/
def LeadsNowhere (fs : Fs) (path : CStr) : Prop := ∀ found, translateIn .declared fs.disk path ≠ .ok found

/-- When the checks of an operation keep it away from a path without a last name. `fs_create` and `fs_mkdir`
check nothing; `fs_unlink` stops at a directory, as the root directory is; `fs_rmdir` stops at a directory with an
entry in its first block; `fs_rename` looks at its source only. -/
def Guarded (fs : Fs) : Op → Prop
  | .create path _ => HasLastName path
  | .mkdir path _ => HasLastName path
  | .unlink path => HasLastName path ∨ LeadsNowhere fs path ∨ S_ISDIR (inodeAt fs.disk 2).mode = true
  | .rmdir path => HasLastName path ∨ LeadsNowhere fs path ∨ S_ISDIR (inodeAt fs.disk 2).mode = false ∨
      ∃ slot, ((fs.disk ((inodeAt fs.disk 2).ptrs 0).toNat).dirent slot).valid = true
  | .rename srcPath dstPath => (HasLastName srcPath ∧ HasLastName dstPath) ∨ LeadsNowhere fs srcPath
  | _ => True

section Checks

variable {env : Env} {fs : Fs} {path : CStr} {op : Op}

theorem hasLastName_iff : HasLastName path ↔ resolvePath (pathparse path) ≠ [] := by
  rw [HasLastName, ← List.length_pos_iff]
  omega

/-- A path that is resolved to nothing leads to the root directory, if anywhere. -/
theorem root_of_not_hasLastName {limits : Limits} {disk : Nat → Block} {inum : Nat} {inode : Inode}
    (h : ¬HasLastName path) (htranslate : translateIn limits disk path = .ok (inum, inode)) :
    inode = inodeAt disk 2 := by
  rw [hasLastName_iff, not_not] at h
  obtain ⟨st, hwalk, hfound⟩ := exceptBind_eq_ok htranslate
  obtain ⟨rfl, rfl⟩ := Prod.mk.inj (Except.ok.inj hfound)
  have htracks : Tracks (resolvePath (pathparse path)) st := tracks_start.walk hwalk
  rw [h] at htracks
  rw [htracks.root htracks.depth]

/-! ### Checks, last names and the rest -/

theorem lastComponent_of_not_hasLastName (h : ¬HasLastName path) :
    lastComponent (resolvePath (pathparse path)) = fault := by
  rw [hasLastName_iff, not_not] at h
  rw [h]
  rfl

theorem eachPath_one {α : Type} {f : CStr → Call CStr} (next : List CStr → Call α) :
    eachPath f [path] >>= next = f path >>= fun value => next [value] := by
  rw [eachPath, Command.bind_assoc]
  rfl

theorem eachPath_two {α : Type} {f : CStr → Call CStr} {path' : CStr} (next : List CStr → Call α) :
    eachPath f [path, path'] >>= next = f path >>= fun value => f path' >>= fun value' => next [value, value'] := by
  rw [eachPath, Command.bind_assoc]
  simp only [Command.bind_assoc, eachPath_one]
  rfl

/-- A call that leaves the machine as it is, and delivers a value or has undefined behaviour. -/
def Delivers (env : Env) (call : Call CStr) : Prop :=
  ∀ m, (∃ value, call env m = (.ok value, m)) ∨ call env m = (.error .fault, m)

theorem delivers_lastComponent (resolved : List CStr) : Delivers env (lastComponent resolved) := by
  intro m
  rw [lastComponent]
  cases resolved.getLast? with
  | none => exact Or.inr rfl
  | some name => exact Or.inl ⟨name, rfl⟩

theorem eachPath_cases {f : CStr → Call CStr} (hf : ∀ path, Delivers env (f path)) (paths : List CStr) (m : Machine) :
    (∃ values, eachPath f paths env m = (.ok values, m)) ∨ eachPath f paths env m = (.error .fault, m) := by
  induction paths with
  | nil => exact Or.inl ⟨[], rfl⟩
  | cons path paths ih =>
      rcases hf path m with ⟨value, hvalue⟩ | hfault
      · rcases ih with ⟨values, hvalues⟩ | hfault
        · exact Or.inl ⟨value :: values, (bind_ok hvalue).trans (bind_ok hvalues)⟩
        · exact Or.inr ((bind_ok hvalue).trans (bind_error hfault))
      · exact Or.inr (bind_error hfault)

/-- Nothing is delivered for some paths where nothing is for one of them. -/
theorem eachPath_of_fault {f : CStr → Call CStr} (hf : ∀ path, Delivers env (f path)) {paths : List CStr} {m : Machine}
    (hpath : path ∈ paths) (hfault : f path env m = (.error .fault, m)) :
    eachPath f paths env m = (.error .fault, m) := by
  induction paths with
  | nil => cases hpath
  | cons first paths ih =>
      rcases hf first m with ⟨value, hvalue⟩ | hfirst
      · rcases List.mem_cons.mp hpath with rfl | hpath
        · cases hvalue.symm.trans hfault
        · exact (bind_ok hvalue).trans (bind_error (ih hpath))
      · exact bind_error hfirst

/-- The last names of some paths cannot be taken where one of them has none. -/
theorem takeLastNames_of_missing {paths : List CStr} (hpath : path ∈ paths) (hlast : ¬HasLastName path) (m : Machine) :
    takeLastNames paths env m = (.error .fault, m) := by
  refine eachPath_of_fault (fun _ => delivers_lastComponent _) hpath ?_
  rw [lastComponent_of_not_hasLastName hlast]
  rfl

/-- What begins with the parent of a path begins with its last name and its parent path. -/
theorem takes_of_parentDir {call : Call Int} {next : CStr × Inode → Call Int} (h : call = parentDir path >>= next) :
    ∃ rest : List CStr → List CStr → Call Int,
      call = takeLastNames [path] >>= fun names => buildParents [path] >>= rest names := by
  obtain ⟨mid, hmid⟩ : ∃ mid : CStr → CStr → Call (CStr × Inode), parentDir path =
      lastComponent (resolvePath (pathparse path)) >>= fun name =>
        parentPath (resolvePath (pathparse path)) >>= mid name := ⟨_, rfl⟩
  refine ⟨fun names parents => names.head?.elim fault fun name => parents.head?.elim fault fun parent =>
    mid name parent >>= next, ?_⟩
  rw [h, hmid, takeLastNames, buildParents]
  simp only [Command.bind_assoc, eachPath_one]
  rfl

/-- An operation that takes no names is all rest. -/
theorem takesNames_of_unnamed (hchecks : op.checks = Pure.pure none) (hnamed : op.named = []) : op.TakesNames := by
  refine ⟨fun _ _ _ => op.call, ?_⟩
  rw [hchecks, hnamed]
  rfl

theorem takesNames (op : Op) : op.TakesNames := by
  cases op with
  | create path mode =>
      obtain ⟨rest, hrest⟩ := @takes_of_parentDir path (fsCreate path mode) _ rfl
      exact ⟨fun _ => rest, hrest⟩
  | mkdir path mode =>
      obtain ⟨rest, hrest⟩ := @takes_of_parentDir path (fsMkdir path mode) _ rfl
      exact ⟨fun _ => rest, hrest⟩
  | unlink path =>
      obtain ⟨next, hnext⟩ : ∃ next : Nat × Inode → CStr × Inode → Call Int, fsUnlink path =
          translate path >>= fun found =>
            if S_ISDIR found.2.mode then err .EISDIR else parentDir path >>= next found := ⟨_, rfl⟩
      choose rest hrest using fun found => @takes_of_parentDir path (parentDir path >>= next found) _ rfl
      refine ⟨fun found names parents => found.elim fault fun found => rest found names parents, hnext.trans ?_⟩
      rw [Op.checks, bind_assoc]
      congr 1
      funext found
      dsimp only
      by_cases hdir : S_ISDIR found.2.mode = true
      · rw [if_pos hdir, if_pos hdir]
        rfl
      · rw [if_neg hdir, if_neg hdir, hrest]
        rfl
  | rmdir path =>
      obtain ⟨last, hlast⟩ : ∃ last : Nat × Inode → Call Int, fsRmdir path = rmdirEntry path >>= last := ⟨_, rfl⟩
      obtain ⟨next, hnext⟩ : ∃ next : Nat × Inode → CStr × Inode → Call (Nat × Inode), rmdirEntry path =
          rmdirCheck path >>= fun found => parentDir path >>= next found := ⟨_, rfl⟩
      choose rest hrest using fun found =>
        @takes_of_parentDir path (parentDir path >>= fun parent => next found parent >>= last) _ rfl
      refine ⟨fun found names parents => found.elim fault fun found => rest found names parents, hlast.trans ?_⟩
      rw [hnext, Op.checks]
      simp only [Command.bind_assoc, hrest]
      rfl
  | rename srcPath dstPath =>
      obtain ⟨next, hnext⟩ : ∃ next : CStr → CStr → CStr → CStr → Call Int, fsRename srcPath dstPath =
          mapStop toENOENT (translate srcPath) >>= fun _ =>
            lastComponent (resolvePath (pathparse srcPath)) >>= fun src =>
              lastComponent (resolvePath (pathparse dstPath)) >>= fun dst =>
                parentPath (resolvePath (pathparse srcPath)) >>= fun parentSrc =>
                  parentPath (resolvePath (pathparse dstPath)) >>= fun parentDst =>
                    next src dst parentSrc parentDst := ⟨_, rfl⟩
      refine ⟨fun _ names parents => names.head?.elim fault fun src => names.getLast?.elim fault fun dst =>
        parents.head?.elim fault fun parentSrc => parents.getLast?.elim fault fun parentDst =>
          next src dst parentSrc parentDst, hnext.trans ?_⟩
      rw [Op.checks, Op.named, Command.bind_assoc, takeLastNames, buildParents]
      simp only [eachPath_two]
      rfl
  | _ => exact takesNames_of_unnamed rfl rfl

/-! ### When the checks keep an operation away -/

/-- What the checks deliver where no block access fails. -/
def Op.checksIn (limits : Limits) (disk : Nat → Block) : Op → Except Stop (Option (Nat × Inode))
  | .unlink path => do
      let (inum, inode) ← translateIn limits disk path
      if S_ISDIR inode.mode then .error (.errno .EISDIR) else .ok (some (inum, inode))
  | .rmdir path => do
      let found ← rmdirCheckIn limits disk path
      .ok (some found)
  | .rename srcPath _ => do
      let _ ← (translateIn limits disk srcPath).mapError toENOENT
      .ok none
  | _ => .ok none

theorem reads_checks (op : Op) : Reads env fs op.checks (op.checksIn env.limits fs.disk) := by
  cases op with
  | unlink path =>
      refine reads_bind (reads_translate path) fun found _ => ?_
      dsimp only
      split
      · exact Follows.stop _
      · exact Follows.pure _
  | rmdir path => exact reads_bind (reads_rmdirCheck path) fun _ _ => Follows.pure _
  | rename srcPath dstPath =>
      exact reads_bind (reads_mapStop toENOENT_ne_fault (reads_translate srcPath)) fun _ _ => Follows.pure _
  | _ => exact Follows.pure _

/-- A request stops where its checks stop. -/
theorem run_of_checks {reason : Stop} (h : (op.checks env (.start fs)).1 = .error reason) :
    (op.run env fs).1 = .error reason := by
  obtain ⟨rest, hcall⟩ := takesNames op
  rw [Op.run, hcall]
  exact congrArg Prod.fst (bind_error (Prod.ext h rfl))

/-- The checks decide whether an operation returns an error code. -/
theorem indexSafe_of_index (h : ∀ found, (op.checks env (.start fs)).1 = .ok found → ∀ path ∈ op.named, HasLastName path) :
    IndexSafe env fs op := by
  refine ⟨h, ?_⟩
  rintro ⟨path, hmem, hnot⟩ hdefined
  rcases hchecks : (op.checks env (.start fs)).1 with (code | _) | found
  · exact ⟨code, run_of_checks hchecks⟩
  · exact absurd hchecks hdefined
  · exact absurd (h found hchecks path hmem) hnot

/-- Whether the checks can pass depends on the disk. -/
theorem indexSafe_iff_checksIn :
    (∀ env, env.limits = .declared → IndexSafe env fs op) ↔
      ((∃ found, op.checksIn .declared fs.disk = .ok found) → ∀ path ∈ op.named, HasLastName path) := by
  constructor
  · rintro hsafe ⟨found, hchecks⟩
    have hrun := (run_of_does (reads_checks op) (quiet_quietEnv 0)).1.trans hchecks
    exact (hsafe (quietEnv 0) rfl).index found hrun
  · intro hsafe env hlimits
    refine indexSafe_of_index fun found hrun => ?_
    have hchecks := reads_eq_ok (reads_checks op) (m := .start fs) rfl (Prod.ext hrun rfl)
    exact hsafe ⟨found, hlimits ▸ hchecks.1⟩

theorem unlinkChecks_iff : (∃ found, (Op.unlink path).checksIn .declared fs.disk = .ok found) ↔
    ∃ inum inode, translateIn .declared fs.disk path = .ok (inum, inode) ∧ S_ISDIR inode.mode = false := by
  constructor
  · rintro ⟨found, hchecks⟩
    obtain ⟨⟨inum, inode⟩, htranslate, hmode⟩ := exceptBind_eq_ok hchecks
    refine ⟨inum, inode, htranslate, ?_⟩
    dsimp only at hmode
    split at hmode
    · cases hmode
    · rename_i hfile
      exact Bool.eq_false_iff.mpr hfile
  · rintro ⟨inum, inode, htranslate, hmode⟩
    refine ⟨some (inum, inode), ?_⟩
    rw [Op.checksIn, htranslate]
    simp only [bind, Except.bind, hmode, Bool.false_eq_true, if_false]

theorem rmdirChecks_iff : (∃ found, (Op.rmdir path).checksIn .declared fs.disk = .ok found) ↔
    ∃ inum inode, translateIn .declared fs.disk path = .ok (inum, inode) ∧ S_ISDIR inode.mode = true ∧
      ∀ slot, ((fs.disk (inode.ptrs 0).toNat).dirent slot).valid = false := by
  constructor
  · rintro ⟨found, hchecks⟩
    obtain ⟨⟨inum, inode⟩, hcheck, -⟩ := exceptBind_eq_ok hchecks
    exact ⟨inum, inode, rmdirCheckIn_eq_ok hcheck⟩
  · rintro ⟨inum, inode, htranslate, hmode, hempty⟩
    have hnone : ((List.finRange direntsPerBlock).any fun slot =>
        ((fs.disk (inode.ptrs 0).toNat).dirent slot).valid) = false := by simpa using hempty
    refine ⟨some (inum, inode), ?_⟩
    rw [Op.checksIn, rmdirCheckIn, htranslate]
    simp only [bind, Except.bind, hmode, Bool.not_true, Bool.false_eq_true, if_false, hnone]

theorem renameChecks_iff {srcPath dstPath : CStr} :
    (∃ found, (Op.rename srcPath dstPath).checksIn .declared fs.disk = .ok found) ↔
      ∃ found, translateIn .declared fs.disk srcPath = .ok found := by
  rw [Op.checksIn]
  rcases translateIn .declared fs.disk srcPath with reason | found
  · exact iff_of_false (by rintro ⟨_, h⟩; cases h) (by simp)
  · exact iff_of_true ⟨none, rfl⟩ ⟨found, rfl⟩

/-- The checks keep an operation from a path without a last name exactly where it is guarded. -/
theorem guarded_iff :
    ((∃ found, op.checksIn .declared fs.disk = .ok found) → ∀ path ∈ op.named, HasLastName path) ↔ Guarded fs op := by
  cases op with
  | create path mode => simp [Op.checksIn, Op.named, Guarded]
  | mkdir path mode => simp [Op.checksIn, Op.named, Guarded]
  | unlink path =>
      rw [unlinkChecks_iff, Guarded]
      simp only [Op.named, List.forall_mem_singleton]
      constructor
      · intro hsafe
        by_contra hnot
        simp only [not_or, LeadsNowhere, not_forall, not_not, Bool.not_eq_true] at hnot
        obtain ⟨hlast, ⟨⟨inum, inode⟩, htranslate⟩, hmode⟩ := hnot
        exact hlast (hsafe ⟨inum, inode, htranslate, by rw [root_of_not_hasLastName hlast htranslate, hmode]⟩)
      · rintro hguard ⟨inum, inode, htranslate, hmode⟩
        by_contra hlast
        rcases hguard with hlast' | hnowhere | hroot
        · exact hlast hlast'
        · exact hnowhere _ htranslate
        · rw [root_of_not_hasLastName hlast htranslate, hroot] at hmode
          cases hmode
  | rmdir path =>
      rw [rmdirChecks_iff, Guarded]
      simp only [Op.named, List.forall_mem_singleton]
      constructor
      · intro hsafe
        by_contra hnot
        simp only [not_or, LeadsNowhere, not_forall, not_not, not_exists, Bool.not_eq_true, Bool.not_eq_false] at hnot
        obtain ⟨hlast, ⟨⟨inum, inode⟩, htranslate⟩, hmode, hempty⟩ := hnot
        have hroot := root_of_not_hasLastName hlast htranslate
        exact hlast (hsafe ⟨inum, inode, htranslate, by rw [hroot, hmode], by rw [hroot]; exact hempty⟩)
      · rintro hguard ⟨inum, inode, htranslate, hmode, hempty⟩
        by_contra hlast
        have hroot := root_of_not_hasLastName hlast htranslate
        rw [hroot] at hmode hempty
        rcases hguard with hlast' | hnowhere | hfile | ⟨slot, hvalid⟩
        · exact hlast hlast'
        · exact hnowhere _ htranslate
        · rw [hfile] at hmode
          cases hmode
        · rw [hempty slot] at hvalid
          cases hvalid
  | rename srcPath dstPath =>
      rw [renameChecks_iff, Guarded]
      simp only [Op.named, List.forall_mem_cons, List.not_mem_nil, false_imp_iff, implies_true, and_true]
      constructor
      · intro hsafe
        by_contra hnot
        simp only [not_or, LeadsNowhere, not_forall, not_not] at hnot
        exact hnot.1 (hsafe hnot.2)
      · rintro (hlast | hnowhere) ⟨found, htranslate⟩
        · exact hlast
        · exact absurd htranslate (hnowhere found)
  | _ => simp [Op.named, Guarded]

/-- An operation that takes a name where there is none has undefined behaviour. -/
theorem run_of_not_indexSafe (h : ¬IndexSafe env fs op) : (op.run env fs).1 = .error .fault := by
  have hindex := mt indexSafe_of_index h
  push Not at hindex
  obtain ⟨found, hchecks, path, hpath, hlast⟩ := hindex
  obtain ⟨rest, hcall⟩ := takesNames op
  rw [Op.run, hcall, bind_ok (Prod.ext hchecks rfl), bind_error (takeLastNames_of_missing hpath hlast _)]

end Checks

/-- Each operation makes its checks and then takes the last names of its paths. It stays inside the resolved
components, and returns an error code where there is no last name, exactly where something guards it, whichever block
accesses fail; elsewhere it has undefined behaviour. -/
theorem indexSafe_iff (fs : Fs) (op : Op) :
    op.TakesNames ∧ ((∀ env, env.limits = .declared → IndexSafe env fs op) ↔ Guarded fs op) ∧
      ∀ env, ¬IndexSafe env fs op → (op.run env fs).1 = .error .fault :=
  ⟨takesNames op, indexSafe_iff_checksIn.trans guarded_iff, fun _ => run_of_not_indexSafe⟩

/-- `fs_create` on the root directory takes element `-1`. -/
theorem indexSafe_false : ¬∀ env fs op, env.limits = .declared → Mounted fs → IndexSafe env fs op := by
  intro h
  have hsafe := h (quietEnv 0) sampleImage (.create (joinPath []) S_IFREG) rfl mounted_sampleImage
  exact absurd (hsafe.index none rfl _ List.mem_cons_self) (by decide)

end Fs5600
