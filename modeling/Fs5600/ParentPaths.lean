import Fs5600.Ascent
import Fs5600.ParentBuffer

/-! The parent path that an operation builds. After the path itself was found, every name in it fits a directory
entry, and the parent path fits its buffer. Wherever it fits, it is split into the names it was built from, so the
second lookup goes down to the parent of the last name. -/

namespace Fs5600

open Command

/-- The paths that an operation has found before it builds their parent path. -/
inductive BuildsFound (env : Env) (fs : Fs) : Op → CStr → Prop
  | unlink {path : CStr} {found : Nat × Inode} (hfound : (translate path env (.start fs)).1 = .ok found) :
      BuildsFound env fs (.unlink path) path
  | rmdir {path : CStr} {found : Nat × Inode} (hfound : (translate path env (.start fs)).1 = .ok found) :
      BuildsFound env fs (.rmdir path) path
  | rename {srcPath dstPath : CStr} {found : Nat × Inode}
      (hfound : (translate srcPath env (.start fs)).1 = .ok found) : BuildsFound env fs (.rename srcPath dstPath) srcPath

/-- The parent path of a path has at most 252 bytes, and is built without a byte outside its buffer. -/
structure FitsBuffer (path : CStr) : Prop where
  bytes : (joinPath (resolvePath (pathparse path)).dropLast).strlen ≤ 252
  buffer : ∀ env m, env.limits = .declared → parentPath (resolvePath (pathparse path)) env m =
    (.ok (joinPath (resolvePath (pathparse path)).dropLast), m)
  strcat : ∀ length ∈ strcatLengths 1 (resolvePath (pathparse path)).dropLast, length < Limits.declared.parentPath

/-- The last of some names, and the directory that the others lead to. -/
def parentOf (disk : Nat → Block) (names : List CStr) : Except Stop (CStr × Inode) := do
  let name ← lastComponentIn names
  let inum ← descend disk 2 names.dropLast
  if !S_ISDIR (inodeAt disk inum).mode then .error (.errno .ENOTDIR) else .ok (name, inodeAt disk inum)

/-- A parent path is split into the resolved names but the last, and a lookup of it goes down these. -/
structure SplitsBack (env : Env) (path parent : CStr) : Prop where
  components : pathparse parent = (resolvePath (pathparse path)).dropLast
  last : ∀ name, lastComponentIn (resolvePath (pathparse path)) = .ok name →
    resolvePath (pathparse path) = pathparse parent ++ [name]
  walk : ∀ fs, Reads env fs (translate parent)
    ((descend fs.disk 2 (resolvePath (pathparse path)).dropLast).map fun inum => (inum, inodeAt fs.disk inum))
  dir : ∀ fs, Reads env fs (parentDir path) (parentOf fs.disk (resolvePath (pathparse path)))

section Length

variable {env : Env} {fs : Fs} {m : Machine} {path : CStr}

/-- Every resolved name of a path that is found was looked up, so it fits an entry. -/
theorem length_of_translate {found : Nat × Inode} (h : (translate path env m).1 = .ok found) :
    ∀ c ∈ resolvePath (pathparse path), c.strlen < nameLen := by
  obtain ⟨hfound, -, -⟩ := reads_eq_ok (reads_translate path) rfl (Prod.ext h rfl)
  obtain ⟨st, hwalk, -⟩ := exceptBind_eq_ok hfound
  intro c hc
  obtain ⟨hmem, hname⟩ := mem_resolvePath hc
  exact length_of_walk hwalk c hmem hname

theorem strlen_joinPath (names : List CStr) : (joinPath names).strlen = (strcatLoop names).length + 1 := rfl

theorem strlen_joinPath_le (h : ∀ c ∈ resolvePath (pathparse path), c.strlen < nameLen) :
    (joinPath (resolvePath (pathparse path)).dropLast).strlen ≤ 252 := by
  have hcount : (resolvePath (pathparse path)).dropLast.length ≤ 9 :=
    Nat.le_of_lt_succ (dropLast_resolved_length path)
  have hnames : ∀ c ∈ (resolvePath (pathparse path)).dropLast, c.strlen ≤ 27 := fun c hc =>
    Nat.le_of_lt_succ (h c (List.mem_of_mem_dropLast hc))
  have hbytes := strcatLoop_length_le hnames
  rw [strlen_joinPath]
  omega

end Length

/-- After a path was found, its parent path fits the buffer. -/
theorem fitsBuffer_of_found (env : Env) (fs : Fs) (op : Op) (path : CStr) (h : BuildsFound env fs op path) :
    FitsBuffer path := by
  have hnames : ∀ c ∈ resolvePath (pathparse path), c.strlen < nameLen := by
    cases h with
    | unlink hfound => exact length_of_translate hfound
    | rmdir hfound => exact length_of_translate hfound
    | rename hfound => exact length_of_translate hfound
  have hbytes := strlen_joinPath_le hnames
  have hstrcat : ∀ length ∈ strcatLengths 1 (resolvePath (pathparse path)).dropLast,
      length < Limits.declared.parentPath := by
    rw [strcatLengths_lt_iff (by decide)]
    rw [strlen_joinPath] at hbytes
    simp only [Limits.declared]
    omega
  exact ⟨hbytes, fun env m hlimits => (parentPath_eq_ok_iff hlimits _ m).mpr hstrcat, hstrcat⟩

/-- A file `f` in a directory `d`. -/
theorem fitsBuffer_nested : FitsBuffer (joinPath [nameD, nameF]) := by
  have hfound : (translate (joinPath [nameD, nameF]) (quietEnv 0) (.start (chainImage [nameD, nameF]))).1 =
      .ok (6, inodeAt (chainImage [nameD, nameF]).disk 6) :=
    translate_of_descend (quiet_quietEnv 0) (plain_joinPath (by decide) (by decide) (by decide)) (roomy_quietEnv 0)
      (by rw [pathparse_joinPath (by decide)]; decide +kernel)
  exact fitsBuffer_of_found (quietEnv 0) _ (.unlink (joinPath [nameD, nameF])) _ (.unlink hfound)

section Split

variable {limits : Limits} {disk : Nat → Block} {path parent : CStr}

theorem parentDirIn_eq_parentOf (hlimits : Roomy limits)
    (h : parentPathIn limits (resolvePath (pathparse path)) = .ok parent) :
    parentDirIn limits disk path = parentOf disk (resolvePath (pathparse path)) := by
  obtain rfl := eq_joinPath_of_parentPathIn h
  unfold parentDirIn parentOf
  dsimp only
  rw [h]
  apply bind_congr
  intro name
  change (translateIn limits disk _ >>= _) = _
  rw [translateIn_parent hlimits]
  rcases descend disk 2 (resolvePath (pathparse path)).dropLast with reason | inum
  · rfl
  · rfl

end Split

/-- A parent path that fits its buffer leads to the parent of the last name. -/
theorem splitsBack_of_parentPath (env : Env) (hlimits : Roomy env.limits) (path parent : CStr) (m : Machine)
    (h : (parentPath (resolvePath (pathparse path)) env m).1 = .ok parent) : SplitsBack env path parent := by
  obtain ⟨hparent, -, -⟩ := reads_eq_ok (reads_parentPath _) rfl (Prod.ext h rfl)
  obtain rfl := eq_joinPath_of_parentPathIn hparent
  have hsplit := pathparse_parent path
  refine ⟨hsplit, fun name hlast => ?_, fun fs => ?_, fun fs => ?_⟩
  · obtain ⟨init, hresolved⟩ := lastComponentIn_eq_ok hlast
    rw [hsplit, hresolved, List.dropLast_concat]
  · rw [← translateIn_parent hlimits]
    exact reads_translate _
  · rw [← parentDirIn_eq_parentOf hlimits hparent]
    exact reads_parentDir path

theorem splitsBack_nameD : SplitsBack (quietEnv 0) (joinPath [dot, nameD, nameF]) (joinPath [nameD]) :=
  splitsBack_of_parentPath (quietEnv 0) (roomy_quietEnv 0) _ _ (.start sampleImage) (by
    rw [pathparse_joinPath (by decide)]
    rfl)

end Fs5600
