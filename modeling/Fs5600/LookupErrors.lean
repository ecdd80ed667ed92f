import Fs5600.ParentBuffer

/-! Errors of a lookup. Where `fs_getattr` fails on a path, the other operations on it fail with the same code,
but for two: `fs_rename` returns `-ENOENT` whatever the lookup found, and `fs_create` and `fs_mkdir` run over their
buffer where the path of the parent is too long for it. -/

namespace Fs5600

open Command

/-- The path that an operation on a path has to look up: the path itself, the source of a rename, or for a new
object the path of its parent. -/
inductive Subject : Op → (path subject : CStr) → Prop
  | readdir (path : CStr) : Subject (.readdir path) path path
  | read (path : CStr) (len offset : Nat) : Subject (.read path len offset) path path
  | write (path : CStr) (buf : List UInt8) (offset : Nat) : Subject (.write path buf offset) path path
  | truncate (path : CStr) : Subject (.truncate path 0) path path
  | chmod (path : CStr) (mode : UInt32) : Subject (.chmod path mode) path path
  | utime (path : CStr) (modtime : Int) : Subject (.utime path modtime) path path
  | unlink (path : CStr) : Subject (.unlink path) path path
  | rmdir (path : CStr) : Subject (.rmdir path) path path
  | rename (srcPath dstPath : CStr) : Subject (.rename srcPath dstPath) srcPath srcPath
  | create {path parent : CStr} (mode : UInt32) (hparent : pathparse parent = (pathparse path).dropLast) :
      Subject (.create path mode) path parent
  | mkdir {path parent : CStr} (mode : UInt32) (hparent : pathparse parent = (pathparse path).dropLast) :
      Subject (.mkdir path mode) path parent

/-- Where `fs_getattr` on the subject returns `-ENOENT` or `-ENOTDIR`, the operation returns the same and changes
nothing. -/
def FailsAlike (env : Env) (fs : Fs) (op : Op) (subject : CStr) : Prop :=
  ∀ code, code = Errno.ENOENT ∨ code = Errno.ENOTDIR →
    (fsGetattr subject env (.start fs)).1 = .error (.errno code) →
      (op.run env fs).1 = .error (.errno code) ∧ (op.run env fs).2.fs = fs ∧ (op.run env fs).2.trace = []

/-- A lookup ends at a directory that lacks the name, or at something that is no directory. -/
def LookupFails (fs : Fs) (subject : CStr) (code : Errno) : Prop :=
  descend fs.disk 2 (pathparse subject) = .error (.errno code)

/-- When an operation fails like the lookup: a rename where no name of the source stands for something that is no
directory, with names after it; a new object where the lookup of its parent does not fail, or the path of the
parent fits its buffer. -/
def AlikeWhen (fs : Fs) : Op → (path subject : CStr) → Prop
  | .rename _ _, _, subject => ¬LookupFails fs subject .ENOTDIR
  | .create _ _, path, subject =>
      (¬LookupFails fs subject .ENOENT ∧ ¬LookupFails fs subject .ENOTDIR) ∨ parentLength path ≤ 254
  | .mkdir _ _, path, subject =>
      (¬LookupFails fs subject .ENOENT ∧ ¬LookupFails fs subject .ENOTDIR) ∨ parentLength path ≤ 254
  | _, _, _ => True

section Fails

variable {env : Env} {fs : Fs} {op : Op} {path subject : CStr} {code : Errno}

/-- A call that does nothing but fail leaves the file system and the record as they are. -/
theorem run_of_fails (hquiet : env.Quiet) {reason : Stop} (h : Reads env fs op.call (.error reason)) :
    (op.run env fs).1 = .error reason ∧ (op.run env fs).2.fs = fs ∧ (op.run env fs).2.trace = [] := by
  obtain ⟨hemits, hvalue⟩ := h.complete (fun reason => hquiet.not_breaksOff reason) (m := .start fs) rfl
  exact ⟨hvalue, hemits.view, hemits.record⟩

theorem getattr_error_iff (hquiet : env.Quiet) :
    (fsGetattr subject env (.start fs)).1 = .error (.errno code) ↔
      translateIn env.limits fs.disk subject = .error (.errno code) := by
  rw [fsGetattr_value hquiet]
  rcases translateIn env.limits fs.disk subject with reason | found <;> simp [Except.map]

/-- The lookup of the subject goes down its names. -/
theorem lookupFails_iff (hlimits : Roomy env.limits) (hpath : Plain path) (hsubject : Subject op path subject) :
    translateIn env.limits fs.disk subject = .error (.errno code) ↔ LookupFails fs subject code := by
  have hprefix : pathparse subject = pathparse path ∨ pathparse subject = (pathparse path).dropLast := by
    cases hsubject with
    | create mode hparent => exact Or.inr hparent
    | mkdir mode hparent => exact Or.inr hparent
    | _ => exact Or.inl rfl
  have hmem : ∀ c ∈ pathparse subject, IsName c := fun c hc => hpath.names c (by
    rcases hprefix with heq | heq
    · exact heq ▸ hc
    · exact List.mem_of_mem_dropLast (heq ▸ hc))
  have hlength : (pathparse subject).length ≤ (pathparse path).length := by
    rcases hprefix with heq | heq
    · rw [heq]
    · rw [heq, List.length_dropLast]
      omega
  rw [LookupFails, translateIn_eq hmem (hlength.trans_lt (hpath.stack hlimits))]
  rcases descend fs.disk 2 (pathparse subject) with reason | inum <;> simp [Except.map]

/-- What `parentDir` does with a path whose parent cannot be looked up. -/
theorem parentDirIn_of_fails (hlimits : env.limits = .declared) (hpath : Plain path)
    (hparent : pathparse subject = (pathparse path).dropLast)
    (hfails : translateIn env.limits fs.disk subject = .error (.errno code)) :
    parentDirIn env.limits fs.disk path =
      if parentLength path ≤ 254 then .error (.errno code) else .error .fault := by
  obtain ⟨init, name, hsplit⟩ := hpath.exists_split
  have hinit : pathparse subject = init := by rw [hparent, hsplit, List.dropLast_concat]
  have hjoin : pathparse (joinPath init) = init := pathparse_of_resolved (hpath.resolvePath.trans hsplit)
  have hwalk : translateIn env.limits fs.disk (joinPath init) = .error (.errno code) := by
    rw [← hfails, translateIn, translateIn, hjoin, hinit]
  have hlength : parentLength path = (strcatLoop init).length := by
    rw [parentLength, hpath.resolvePath, hsplit, List.dropLast_concat, strcatLoop_length]
  have hbuffer : parentPathIn env.limits (init ++ [name]) =
      if parentLength path ≤ 254 then .ok (joinPath init) else .error .fault := by
    rw [parentPathIn, List.dropLast_concat, hlength, hlimits]
    simp only [CStr.strlen, joinPath, List.length_cons, Limits.declared, Nat.reduceLeDiff]
  rw [parentDirIn, hpath.resolvePath, hsplit, hbuffer]
  simp only [lastComponentIn, List.getLast?_concat, bind, Except.bind]
  by_cases hfits : parentLength path ≤ 254
  · rw [if_pos hfits, if_pos hfits]
    dsimp only
    rw [hwalk]
  · rw [if_neg hfits, if_neg hfits]

/-- What an operation reads where the lookup of its subject fails. -/
theorem reads_call_of_fails (hlimits : env.limits = .declared) (hpath : Plain path) (hsubject : Subject op path subject)
    (hfails : translateIn env.limits fs.disk subject = .error (.errno code)) :
    Reads env fs op.call (.error (match op with
      | .rename _ _ => .errno .ENOENT
      | .create _ _ => if parentLength path ≤ 254 then .errno code else .fault
      | .mkdir _ _ => if parentLength path ≤ 254 then .errno code else .fault
      | _ => .errno code)) := by
  have hlookup : Reads env fs (translate subject) (.error (.errno code)) := hfails ▸ reads_translate subject
  have hnew : ∀ {α : Type} {next : CStr × Inode → Call α}, pathparse subject = (pathparse path).dropLast →
      Reads env fs (parentDir path >>= next) (.error (if parentLength path ≤ 254 then .errno code else .fault)) :=
    fun hparent => Follows.bind_error (by
      have hdir := parentDirIn_of_fails hlimits hpath hparent hfails
      rw [← apply_ite Except.error] at hdir
      exact hdir ▸ reads_parentDir path)
  cases hsubject with
  | readdir => exact Follows.bind_error (Follows.bind_error hlookup)
  | read => exact Follows.bind_error (Follows.bind_error hlookup)
  | write => exact Follows.bind_error hlookup
  | truncate => exact Follows.bind_error hlookup
  | chmod => exact Follows.bind_error hlookup
  | utime => exact Follows.bind_error hlookup
  | unlink => exact Follows.bind_error hlookup
  | rmdir => exact Follows.bind_error (Follows.bind_error (Follows.bind_error hlookup))
  | rename => exact Follows.bind_error (reads_mapStop toENOENT_ne_fault hlookup)
  | create mode hparent => exact hnew hparent
  | mkdir mode hparent => exact hnew hparent

/-- A failed lookup is what `fs_getattr` returns. -/
theorem getattr_iff_lookupFails (hquiet : env.Quiet) (hlimits : env.limits = .declared) (hpath : Plain path)
    (hsubject : Subject op path subject) :
    (fsGetattr subject env (.start fs)).1 = .error (.errno code) ↔ LookupFails fs subject code :=
  (getattr_error_iff hquiet).trans (lookupFails_iff (hlimits ▸ roomy_declared) hpath hsubject)

/-- An operation on a new object fails like the lookup of its parent, or its buffer is too short for the path of
the parent. -/
theorem failsAlike_new_iff (hquiet : env.Quiet) (hlimits : env.limits = .declared) (hpath : Plain path)
    (hsubject : Subject op path subject) (hrun : ∀ {code}, LookupFails fs subject code →
      Reads env fs op.call (.error (if parentLength path ≤ 254 then .errno code else .fault))) :
    FailsAlike env fs op subject ↔
      (¬LookupFails fs subject .ENOENT ∧ ¬LookupFails fs subject .ENOTDIR) ∨ parentLength path ≤ 254 := by
  have hiff := fun code => @getattr_iff_lookupFails env fs op path subject code hquiet hlimits hpath hsubject
  constructor
  · intro halike
    by_contra hnot
    rw [not_or] at hnot
    obtain ⟨hfails, hlong⟩ := hnot
    -- the call has undefined behaviour, and so returns no error code
    have hno : ∀ code, code = Errno.ENOENT ∨ code = Errno.ENOTDIR → ¬LookupFails fs subject code := by
      intro code hcode hfail
      have hreturn := (halike code hcode ((hiff code).mpr hfail)).1
      rw [(run_of_fails hquiet (hrun hfail)).1, if_neg hlong] at hreturn
      cases hreturn
    exact hfails ⟨hno _ (Or.inl rfl), hno _ (Or.inr rfl)⟩
  · rintro (⟨hmissing, hnotDir⟩ | hfits) code hcode hget
    · rcases hcode with rfl | rfl
      · exact absurd ((hiff _).mp hget) hmissing
      · exact absurd ((hiff _).mp hget) hnotDir
    · have hreturn := run_of_fails hquiet (hrun ((hiff code).mp hget))
      rwa [if_pos hfits] at hreturn

end Fails

/-- An operation fails with the error of `fs_getattr` on the path it looks up, and changes nothing, exactly under
the condition `AlikeWhen`. -/
theorem failsAlike_iff {env : Env} {fs : Fs} {op : Op} {path subject : CStr} (hquiet : env.Quiet)
    (hlimits : env.limits = .declared) (hpath : Plain path) (hsubject : Subject op path subject) :
    FailsAlike env fs op subject ↔ AlikeWhen fs op path subject := by
  have hiff := fun code => @getattr_iff_lookupFails env fs op path subject code hquiet hlimits hpath hsubject
  have hread := fun {code} (hfails : LookupFails fs subject code) => reads_call_of_fails hlimits hpath hsubject
    ((lookupFails_iff (hlimits ▸ roomy_declared) hpath hsubject).mpr hfails)
  cases hsubject with
  | create mode hparent => exact failsAlike_new_iff hquiet hlimits hpath (.create mode hparent) hread
  | mkdir mode hparent => exact failsAlike_new_iff hquiet hlimits hpath (.mkdir mode hparent) hread
  | rename srcPath dstPath =>
      constructor
      · intro halike hfails
        have hreturn := (halike _ (Or.inr rfl) ((hiff _).mpr hfails)).1
        rw [(run_of_fails hquiet (hread hfails)).1] at hreturn
        cases hreturn
      · rintro hnot code (rfl | rfl) hget
        · exact run_of_fails hquiet (hread ((hiff _).mp hget))
        · exact absurd ((hiff _).mp hget) hnot
  | _ => exact iff_of_true (fun code _ hget => run_of_fails hquiet (hread ((hiff code).mp hget))) trivial

/-- `fs_chmod` on `/f/d`, where `/f` is a file. -/
theorem failsAlike_iff_sampleImage :
    FailsAlike (quietEnv 0) sampleImage (.chmod (joinPath [nameF, nameD]) 0) (joinPath [nameF, nameD]) :=
  (failsAlike_iff (quiet_quietEnv 0) rfl (plain_joinPath (by decide) (by decide) (by decide)) (.chmod _ 0)).mpr trivial

/-- `fs_rename` of `/f/d` returns `-ENOENT`, where `/f` is a file and the lookup ends with `-ENOTDIR`. -/
theorem failsAlike_false :
    ¬∀ env fs op path subject, env.Quiet → env.limits = .declared → Mounted fs → Plain path →
      Subject op path subject → FailsAlike env fs op subject := by
  intro h
  have hpath : Plain (joinPath [nameF, nameD]) := plain_joinPath (by decide) (by decide) (by decide)
  have hsubject := Subject.rename (joinPath [nameF, nameD]) (joinPath [nameD])
  have hfails : LookupFails sampleImage (joinPath [nameF, nameD]) .ENOTDIR := by
    rw [LookupFails, pathparse_joinPath (by decide)]
    decide +kernel
  have hget := (getattr_iff_lookupFails (quiet_quietEnv 0) rfl hpath hsubject).mpr hfails
  have halike := h (quietEnv 0) sampleImage _ _ _ (quiet_quietEnv 0) rfl mounted_sampleImage hpath hsubject _
    (Or.inr rfl) hget
  have hread : Reads _ _ (Op.rename (joinPath [nameF, nameD]) (joinPath [nameD])).call _ := reads_call_of_fails rfl
    hpath hsubject ((lookupFails_iff (roomy_quietEnv 0) hpath hsubject).mpr hfails)
  have hreturn := halike.1
  rw [(run_of_fails (quiet_quietEnv 0) hread).1] at hreturn
  cases hreturn

end Fs5600
