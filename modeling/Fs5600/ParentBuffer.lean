import Fs5600.LastName

/-! The buffer for the parent path. `fs_create`, `fs_mkdir` and `fs_rename` put the path of the parent directory
together with `strcat`, before they look up any of its names, so nothing has bounded their lengths. -/

namespace Fs5600

open Command

/-- The length of the string in the buffer after each `strcat` of the loop that builds a parent path: each
component, and a slash after all but the last. A call puts its terminator at the index of the new length, and no
byte behind it. -/
def strcatLengths : Nat → List CStr → List Nat
  | _, [] => []
  | length, [component] => [length + component.strlen]
  | length, component :: rest =>
      (length + component.strlen) :: (length + component.strlen + 1) ::
        strcatLengths (length + component.strlen + 1) rest

/-- The paths whose parent path an operation builds before it looks up any of the names in them. -/
inductive Builds (env : Env) (fs : Fs) : Op → CStr → Prop
  | create (path : CStr) (mode : UInt32) : Builds env fs (.create path mode) path
  | mkdir (path : CStr) (mode : UInt32) : Builds env fs (.mkdir path mode) path
  | rename {srcPath dstPath : CStr} {found : Nat × Inode}
      (hsrc : (translate srcPath env (.start fs)).1 = .ok found) : Builds env fs (.rename srcPath dstPath) dstPath

/-- No `strcat` writes past the 256 bytes of the buffer. -/
def BufferSafe (env : Env) (fs : Fs) (op : Op) : Prop :=
  ∀ path, Builds env fs op path →
    ∀ length ∈ strcatLengths 1 (resolvePath (pathparse path)).dropLast, length < Limits.declared.parentPath

/-- The bytes of the resolved names of a path but the last, with a separator between each two. -/
def parentLength (path : CStr) : Nat :=
  ((resolvePath (pathparse path)).dropLast.map CStr.strlen).sum +
    ((resolvePath (pathparse path)).dropLast.length - 1)

section Buffer

variable {names : List CStr} {start bound : Nat}

/-- The last `strcat` writes farthest: what it leaves in the buffer is the joined path. -/
theorem strcatLengths_lt_iff (hstart : start < bound) :
    (∀ length ∈ strcatLengths start names, length < bound) ↔ start + (strcatLoop names).length < bound := by
  induction names generalizing start with
  | nil => simpa [strcatLengths, strcatLoop] using hstart
  | cons name rest ih =>
      cases rest with
      | nil => simp [strcatLengths, strcatLoop, CStr.strlen]
      | cons next rest =>
          rw [strcatLengths, strcatLoop, List.length_append, List.length_cons]
          swap
          · simp
          swap
          · simp
          simp only [List.forall_mem_cons, CStr.strlen]
          constructor
          · rintro ⟨-, hslash, hrest⟩
            have hjoined := (ih hslash).mp hrest
            omega
          · intro hjoined
            have hslash : start + name.bytes.length + 1 < bound := by omega
            exact ⟨by omega, hslash, (ih hslash).mpr (by omega)⟩

/-- The buffer holds the parent path exactly where no `strcat` writes past it. -/
theorem parentPath_run {env : Env} (hlimits : env.limits = .declared) (resolved : List CStr) (m : Machine) :
    parentPath resolved env m =
      if ∀ length ∈ strcatLengths 1 resolved.dropLast, length < Limits.declared.parentPath then
        (.ok (joinPath resolved.dropLast), m)
      else (.error .fault, m) := by
  have hfits : (joinPath resolved.dropLast).strlen + 1 ≤ Limits.declared.parentPath ↔
      ∀ length ∈ strcatLengths 1 resolved.dropLast, length < Limits.declared.parentPath := by
    rw [strcatLengths_lt_iff (by decide), CStr.strlen, joinPath, List.length_cons]
    omega
  rw [← if_congr hfits rfl rfl, ← hlimits]
  refine (bind_ok (ask_run env m)).trans ?_
  split
  · rfl
  · rfl

theorem parentPath_eq_ok_iff {env : Env} (hlimits : env.limits = .declared) (resolved : List CStr) (m : Machine) :
    parentPath resolved env m = (.ok (joinPath resolved.dropLast), m) ↔
      ∀ length ∈ strcatLengths 1 resolved.dropLast, length < Limits.declared.parentPath := by
  rw [parentPath_run hlimits]
  split
  · rename_i hfits
    exact iff_of_true rfl hfits
  · rename_i hlong
    exact iff_of_false (by simp) hlong

end Buffer

section Runs

variable {env : Env} {fs : Fs} {op : Op} {path : CStr}

theorem delivers_parentPath (hlimits : env.limits = .declared) (resolved : List CStr) :
    Delivers env (parentPath resolved) := by
  intro m
  rw [parentPath_run hlimits]
  split
  · exact Or.inl ⟨_, rfl⟩
  · exact Or.inr rfl

/-- An operation gets as far as to the parent paths. -/
theorem Builds.checks (h : Builds env fs op path) :
    path ∈ op.named ∧ ∃ found m, op.checks env (.start fs) = (.ok found, m) := by
  cases h with
  | create path mode => exact ⟨List.mem_cons_self, none, .start fs, rfl⟩
  | mkdir path mode => exact ⟨List.mem_cons_self, none, .start fs, rfl⟩
  | @rename srcPath dstPath found hsrc =>
      obtain ⟨m, hrun⟩ : ∃ m, translate srcPath env (.start fs) = (.ok found, m) := ⟨_, Prod.ext hsrc rfl⟩
      have hmap : mapStop toENOENT (translate srcPath) env (.start fs) = (.ok found, m) := by
        rw [mapStop, hrun]
      exact ⟨List.mem_cons_of_mem _ List.mem_cons_self, none, m, bind_ok hmap⟩

/-- Where a parent path does not fit, the operation has undefined behaviour. -/
theorem run_of_not_bufferSafe (hlimits : env.limits = .declared) (h : ¬BufferSafe env fs op) :
    (op.run env fs).1 = .error .fault := by
  rw [BufferSafe, Classical.not_forall] at h
  obtain ⟨path, h⟩ := h
  rw [Classical.not_imp] at h
  obtain ⟨hbuilds, hlong⟩ := h
  obtain ⟨hpath, found, m, hchecks⟩ := hbuilds.checks
  obtain ⟨rest, hcall⟩ := takesNames op
  have hparent : parentPath (resolvePath (pathparse path)) env m = (.error .fault, m) := by
    rw [parentPath_run hlimits, if_neg hlong]
  have hparents : buildParents op.named env m = (.error .fault, m) :=
    eachPath_of_fault (fun _ => delivers_parentPath hlimits _) hpath hparent
  have hnames : (∃ names, takeLastNames op.named env m = (.ok names, m)) ∨ takeLastNames op.named env m = (.error .fault, m) :=
    eachPath_cases (fun _ => delivers_lastComponent _) op.named m
  rw [Op.run, hcall, bind_ok hchecks]
  rcases hnames with ⟨names, hnames⟩ | hfault
  · rw [bind_ok hnames, bind_error hparents]
  · rw [bind_error hfault]

end Runs

/-- The parent path fits exactly where its names and separators have at most 254 bytes together. Where it fits, it is
delivered; where it does not, the operation, which builds it after its checks, has undefined behaviour. -/
theorem bufferSafe_iff (env : Env) (fs : Fs) (op : Op) :
    (BufferSafe env fs op ↔ ∀ path, Builds env fs op path → parentLength path ≤ 254) ∧ op.TakesNames ∧
      (env.limits = .declared →
        (BufferSafe env fs op ↔ ∀ path, Builds env fs op path → ∀ m, parentPath (resolvePath (pathparse path)) env m =
          (.ok (joinPath (resolvePath (pathparse path)).dropLast), m)) ∧
        (¬BufferSafe env fs op → (op.run env fs).1 = .error .fault)) := by
  refine ⟨forall_congr' fun path => imp_congr_right fun _ => ?_, takesNames op, fun hlimits =>
    ⟨forall_congr' fun path => imp_congr_right fun _ => ?_, run_of_not_bufferSafe hlimits⟩⟩
  · rw [strcatLengths_lt_iff (by decide), strcatLoop_length, parentLength]
    simp only [Limits.declared]
    omega
  · simp only [parentPath_eq_ok_iff hlimits]
    exact ⟨fun hsafe _ => hsafe, fun hsafe => hsafe (.start fs)⟩

def wideName : CStr := ⟨List.replicate 255 97, by decide⟩

/-- A name of 255 bytes before the last one runs over the buffer of `fs_create`. -/
theorem bufferSafe_false : ¬∀ env fs op, Mounted fs → BufferSafe env fs op := by
  intro h
  have hparse : pathparse (joinPath [wideName, nameF]) = [wideName, nameF] := pathparse_joinPath (by decide)
  have hinit : (resolvePath (pathparse (joinPath [wideName, nameF]))).dropLast = [wideName] := by
    rw [hparse, resolvePath_of_isName (by decide)]
    rfl
  have hsafe := h (quietEnv 0) sampleImage (.create (joinPath [wideName, nameF]) S_IFREG) mounted_sampleImage _ (.create _ _)
  rw [hinit] at hsafe
  have hlength : wideName.strlen = 255 := List.length_replicate
  have hlast : strcatLengths 1 [wideName] = [1 + wideName.strlen] := rfl
  rw [hlast, hlength] at hsafe
  exact absurd (hsafe 256 (List.mem_singleton_self _)) (by decide)

end Fs5600
