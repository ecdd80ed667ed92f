import Fs5600.Phases

/-! Lookups in a well-formed tree. Where every stored name ends inside its field and no directory has more
blocks than `ptrs` has elements, a lookup never runs past an array: it ends at the object that the names
lead to, or with `-ENOENT` or `-ENOTDIR`. -/

namespace Fs5600

open Ownership Command Search

/-- Every stored name ends inside its field, as `fs5600.h` has it: "with trailing NUL". -/
def Terminated (disk : Nat → Block) : Prop :=
  ∀ n s l m, (tree disk).Reach n → (tree disk).edge n s = some (l, m) → l.length < nameLen

/-- The directories of a disk can be searched, and a search has one answer. -/
structure WellNamed (disk : Nat → Block) : Prop where
  fits : Fits disk
  unique : (tree disk).UniqueLabels
  terminated : Terminated disk

/-- A file system no block of which is used twice, with every block in use marked, and unique names. -/
structure WellFormed (fs : Fs) : Prop extends Sound fs, WellNamed fs.disk

/-- The local arrays are at least as long as the source declares them. -/
structure Roomy (limits : Limits) : Prop where
  stack : maxPathLen ≤ limits.parentStack
  path : 256 ≤ limits.parentPath

theorem roomy_declared : Roomy .declared := ⟨Nat.le_refl _, Nat.le_refl _⟩

/-! ### Searching for a name -/

section Names

variable {disk : Nat → Block} {dir inum : Nat} {slot : Slot} {name : CStr} {names : List CStr}

theorem nul_mem_name {entry : Dirent} (h : entry.storedName.length < nameLen) :
    (0 : UInt8) ∈ List.ofFn entry.name := by
  by_contra hnot
  have hall : entry.storedName = List.ofFn entry.name := List.takeWhile_eq_self_iff.mpr fun b hb => by
    simp only [ne_eq, decide_not, Bool.not_eq_eq_eq_not, Bool.not_true, decide_eq_false_iff_not]
    exact fun hzero => hnot (hzero ▸ hb)
  rw [hall, List.length_ofFn] at h
  exact lt_irrefl _ h

theorem strcmp_of_length {entry : Dirent} (h : entry.storedName.length < nameLen) (s : CStr) :
    entry.strcmp s = .ok (entry.storedName == s.bytes) := by
  rw [Dirent.strcmp, if_neg]
  intro heq
  exact s.nulFree (List.mem_of_mem_take (heq ▸ nul_mem_name h))

/-- The entries of a directory in a well-named tree end inside their fields. -/
theorem Terminated.length_lt (h : Terminated disk) (hdir : (tree disk).Reach dir) (hslot : HasSlot disk dir slot)
    (hvalid : (direntAt disk dir slot).valid = true) : (direntAt disk dir slot).storedName.length < nameLen :=
  h dir slot _ _ hdir (edge_of_direntAt hslot hvalid)

theorem WellNamed.dirBlocks_le (h : WellNamed disk) (hdir : (tree disk).Reach dir) :
    (inodeAt disk dir).dirBlocks ≤ numPtrs :=
  calc (inodeAt disk dir).dirBlocks ≤ (inodeAt disk dir).numBlocks := Inode.dirBlocks_le_numBlocks _
    _ ≤ numPtrs := h.fits dir hdir

/-- A search for a name in a directory does not fail. -/
theorem WellNamed.search_ok (h : WellNamed disk) (hdir : (tree disk).Reach dir)
    (hmode : S_ISDIR (inodeAt disk dir).mode = true) (name : CStr) :
    ∃ found, searchDirIn (hasName name) (inodeAt disk dir) disk = .ok found := by
  refine searchLoopIn_ok (by have := h.dirBlocks_le hdir; omega) fun i _ hi s => ?_
  have hslot : HasSlot disk dir (i, s) := ⟨hmode, show i.val < _ by omega⟩
  unfold hasName
  split
  · exact ⟨_, strcmp_of_length (h.terminated.length_lt hdir hslot ‹_›) name⟩
  · exact ⟨_, rfl⟩

/-- A search hits the entry of that name. -/
theorem WellNamed.search_of_edge (h : WellNamed disk) (hdir : (tree disk).Reach dir)
    (hedge : (tree disk).edge dir slot = some (name.bytes, inum)) :
    ∃ hit, searchDirIn (hasName name) (inodeAt disk dir) disk = .ok (some hit) ∧
      (hit.index, hit.slot) = slot ∧ hit.entry.inode.toNat = inum := by
  have hmode := (tree_edge_eq_some.mp hedge).1.1
  obtain ⟨_ | hit, hsearch⟩ := h.search_ok hdir hmode name
  · exact absurd hedge (edge_ne_of_search hsearch slot inum)
  · have hhit := edge_of_search hmode hsearch
    obtain rfl := h.unique _ _ _ _ _ _ hdir hhit hedge
    exact ⟨hit, hsearch, rfl, by simpa using hhit.symm.trans hedge⟩

/-- A search ends without a hit where no entry has that name. -/
theorem WellNamed.search_of_not_edge (h : WellNamed disk) (hdir : (tree disk).Reach dir)
    (hmode : S_ISDIR (inodeAt disk dir).mode = true)
    (hnone : ∀ slot inum, (tree disk).edge dir slot ≠ some (name.bytes, inum)) :
    searchDirIn (hasName name) (inodeAt disk dir) disk = .ok none := by
  obtain ⟨_ | hit, hsearch⟩ := h.search_ok hdir hmode name
  · exact hsearch
  · exact absurd (edge_of_search hmode hsearch) (hnone _ _)

theorem WellNamed.childIn_eq_ok_iff (h : WellNamed disk) (hdir : (tree disk).Reach dir) :
    childIn disk dir name = .ok inum ↔ ∃ slot, (tree disk).edge dir slot = some (name.bytes, inum) := by
  constructor
  · intro hchild
    obtain ⟨hmode, hit, hsearch, rfl⟩ := childIn_eq_ok hchild
    exact ⟨_, edge_of_search hmode hsearch⟩
  · rintro ⟨slot, hedge⟩
    obtain ⟨hit, hsearch, -, rfl⟩ := h.search_of_edge hdir hedge
    exact childIn_of_search (tree_edge_eq_some.mp hedge).1.1 hsearch

/-- The error codes of a lookup. -/
def LookupError (reason : Stop) : Prop := reason = .errno .ENOENT ∨ reason = .errno .ENOTDIR

theorem WellNamed.childIn_error (h : WellNamed disk) (hdir : (tree disk).Reach dir) {reason : Stop}
    (hchild : childIn disk dir name = .error reason) : LookupError reason := by
  unfold childIn at hchild
  split at hchild
  · exact Or.inr (Except.error.inj hchild).symm
  · rename_i hmode
    obtain ⟨_ | hit, hsearch⟩ := h.search_ok hdir (by simpa using hmode) name
    · rw [hsearch] at hchild
      exact Or.inl (Except.error.inj hchild).symm
    · rw [hsearch] at hchild
      cases hchild

/-! ### Going down a list of names -/

/-- Going down a list of names succeeds exactly where they lead to an object. -/
theorem WellNamed.descend_eq_ok_iff (h : WellNamed disk) (hdir : (tree disk).Reach dir) :
    descend disk dir names = .ok inum ↔ (tree disk).Leads dir (labels names) inum := by
  refine ⟨leads_of_descend, fun hleads => ?_⟩
  induction names generalizing dir with
  | nil => exact congrArg Except.ok hleads
  | cons name rest ih =>
      obtain ⟨slot, next, hedge, hrest⟩ := hleads
      rw [descend, (h.childIn_eq_ok_iff hdir).mpr ⟨slot, hedge⟩]
      exact ih (hdir.step hedge) hrest

/-- The same from the root. -/
theorem WellNamed.descend_root_iff (h : WellNamed disk) :
    descend disk 2 names = .ok inum ↔ (tree disk).Leads 2 (labels names) inum := h.descend_eq_ok_iff .root

theorem WellNamed.descend_error (h : WellNamed disk) (hdir : (tree disk).Reach dir) {reason : Stop}
    (hdescend : descend disk dir names = .error reason) : LookupError reason := by
  induction names generalizing dir with
  | nil => cases hdescend
  | cons name rest ih =>
      unfold descend at hdescend
      rcases hchild : childIn disk dir name with reason' | next
      · rw [hchild] at hdescend
        obtain rfl := Except.error.inj hdescend
        exact h.childIn_error hdir hchild
      · rw [hchild] at hdescend
        obtain ⟨slot, hedge⟩ := (h.childIn_eq_ok_iff hdir).mp hchild
        exact ih (hdir.step hedge) hdescend

/-- Names that lead somewhere are short. -/
theorem Terminated.length_lt_of_leads (h : Terminated disk) (hdir : (tree disk).Reach dir)
    (hleads : (tree disk).Leads dir (labels names) inum) : ∀ c ∈ names, c.bytes.length < nameLen := by
  induction names generalizing dir with
  | nil => simp
  | cons name rest ih =>
      obtain ⟨slot, next, hedge, hrest⟩ := hleads
      exact List.forall_mem_cons.mpr ⟨h dir slot _ _ hdir hedge, ih (hdir.step hedge) hrest⟩

end Names

/-! ### `translate` -/

section Paths

variable {disk : Nat → Block} {limits : Limits} {path : CStr} {names : List CStr} {st : WalkState}

/-- A walk along names that cannot be followed ends with the same error. -/
theorem walkLoopIn_error_of_descend (hnames : ∀ c ∈ names, IsName c)
    (hstack : st.stackPos + names.length < limits.parentStack) {reason : Stop}
    (h : descend disk st.current names = .error reason) :
    walkLoopIn limits disk names st = .error reason := by
  induction names generalizing st with
  | nil => cases h
  | cons name rest ih =>
      have hname := hnames name List.mem_cons_self
      simp only [List.length_cons] at hstack
      unfold descend at h
      rcases hchild : childIn disk st.current name with reason' | next
      · rw [hchild] at h
        obtain rfl := Except.error.inj h
        have hstep : walkStepIn limits disk st name = .error reason' := by
          unfold childIn at hchild
          rw [walkStepIn, if_neg hname.1, if_neg hname.2]
          split at hchild
          · rename_i hmode
            rw [if_pos hmode]
            exact congrArg _ (Except.error.inj hchild)
          · rename_i hmode
            rw [if_neg hmode]
            rcases hsearch : searchDirIn (hasName name) (inodeAt disk st.current) disk with reason | (_ | hit)
            · rw [hsearch] at hchild
              exact congrArg _ (Except.error.inj hchild)
            · rw [hsearch] at hchild
              exact congrArg _ (Except.error.inj hchild)
            · rw [hsearch] at hchild
              cases hchild
        rw [walkLoopIn, hstep]
        rfl
      · rw [hchild] at h
        rw [walkLoopIn, walkStepIn_eq_ok_of_childIn hname (by omega) hchild]
        exact @ih ⟨_, _, next⟩ (fun c hc => hnames c (List.mem_cons_of_mem _ hc)) (by simp only; omega) h

/-- On a path without dots `translate` goes down the names, whatever it finds. -/
theorem translateIn_eq (hnames : ∀ c ∈ pathparse path, IsName c)
    (hstack : (pathparse path).length < limits.parentStack) :
    translateIn limits disk path =
      (descend disk 2 (pathparse path)).map fun inum => (inum, inodeAt disk inum) := by
  rcases hdescend : descend disk 2 (pathparse path) with reason | inum
  · have hwalk : walkLoopIn limits disk (pathparse path) .start = .error reason :=
      walkLoopIn_error_of_descend hnames (by simpa [WalkState.start] using hstack) hdescend
    rw [translateIn, hwalk]
    rfl
  · rw [translateIn_of_descend hnames hstack hdescend]
    rfl

theorem Plain.stack (hpath : Plain path) (hlimits : Roomy limits) :
    (pathparse path).length < limits.parentStack := hpath.short.trans_le hlimits.stack

theorem Plain.translateIn_eq_ok_iff (hpath : Plain path) (hlimits : Roomy limits) (h : WellNamed disk)
    {inum : Nat} {inode : Inode} : translateIn limits disk path = .ok (inum, inode) ↔
      (tree disk).Leads 2 (labels (pathparse path)) inum ∧ inode = inodeAt disk inum := by
  rw [translateIn_eq hpath.names (hpath.stack hlimits), ← h.descend_root_iff]
  rcases descend disk 2 (pathparse path) with reason | inum'
  · simp [Except.map]
  · simp only [Except.map, Except.ok.injEq, Prod.mk.injEq]
    constructor
    · rintro ⟨rfl, rfl⟩
      exact ⟨rfl, rfl⟩
    · rintro ⟨rfl, rfl⟩
      exact ⟨rfl, rfl⟩

/-! ### The parent directory -/

/-- The components and the slashes between them. -/
theorem strcatLoop_length (names : List CStr) :
    (strcatLoop names).length = (names.map CStr.strlen).sum + (names.length - 1) := by
  induction names with
  | nil => rfl
  | cons name rest ih =>
      cases rest with
      | nil => simp [strcatLoop, CStr.strlen]
      | cons next rest =>
          rw [strcatLoop, List.length_append, List.length_cons, ih]
          · simp only [List.map_cons, List.sum_cons, List.length_cons, CStr.strlen]
            omega
          · simp

theorem strcatLoop_length_le {bound : Nat} (h : ∀ c ∈ names, c.strlen ≤ bound) :
    (strcatLoop names).length ≤ names.length * bound + (names.length - 1) := by
  have hsum : (names.map CStr.strlen).sum ≤ (names.map CStr.strlen).length • bound :=
    List.sum_le_card_nsmul _ _ (List.forall_mem_map.mpr h)
  rw [List.length_map, smul_eq_mul] at hsum
  rw [strcatLoop_length]
  exact Nat.add_le_add_right hsum _

/-- The path of a directory whose names can be stored fits into its buffer. -/
theorem parentPathIn_of_short (hlimits : Roomy limits) {init : List CStr} {name : CStr}
    (hnames : ∀ c ∈ init, c.bytes.length < nameLen) (hlength : init.length < maxPathLen) :
    parentPathIn limits (init ++ [name]) = .ok (joinPath init) := by
  have hbytes := strcatLoop_length_le fun c hc => Nat.le_of_lt_succ (hnames c hc)
  have hroom := hlimits.path
  rw [parentPathIn, List.dropLast_concat, if_pos]
  simp only [CStr.strlen, joinPath, List.length_cons]
  simp only [maxPathLen, nameLen] at *
  omega

/-- The last name of a path without dots, and the names before it. -/
theorem Plain.exists_split (hpath : Plain path) : ∃ init name, pathparse path = init ++ [name] := by
  rcases (pathparse path).eq_nil_or_concat with hnil | ⟨init, name, hsplit⟩
  · exact absurd hnil hpath.nonempty
  · exact ⟨init, name, by rw [hsplit, List.concat_eq_append]⟩

/-- At most nine names stand before the last one. -/
theorem dropLast_resolved_length (path : CStr) : (resolvePath (pathparse path)).dropLast.length < maxPathLen := by
  rw [List.length_dropLast]
  calc (resolvePath (pathparse path)).length - 1 ≤ maxPathLen - 1 := Nat.sub_le_sub_right (resolved_components path).2 1
    _ < maxPathLen := by decide

/-- The names before the last one are few enough to be split off again. -/
theorem pathparse_parent (path : CStr) :
    pathparse (joinPath (resolvePath (pathparse path)).dropLast) = (resolvePath (pathparse path)).dropLast := by
  obtain ⟨hnames, -⟩ := resolved_components path
  apply pathparse_joinPath_of_length_le
  · exact fun c hc => (hnames c (List.mem_of_mem_dropLast hc)).1
  · exact (dropLast_resolved_length path).le

/-- The path of the parent leads where the names before the last one lead. -/
theorem translateIn_parent (hlimits : Roomy limits) (path : CStr) :
    translateIn limits disk (joinPath (resolvePath (pathparse path)).dropLast) =
      (descend disk 2 (resolvePath (pathparse path)).dropLast).map fun inum => (inum, inodeAt disk inum) := by
  obtain ⟨hnames, -⟩ := resolved_components path
  have hsplit := pathparse_parent path
  rw [translateIn_eq, hsplit]
  · rw [hsplit]
    exact fun c hc => (hnames c (List.mem_of_mem_dropLast hc)).2
  · rw [hsplit]
    exact (dropLast_resolved_length path).trans_le hlimits.stack

theorem length_of_resolved {init : List CStr} {name : CStr} (h : resolvePath (pathparse path) = init ++ [name]) :
    init.length < maxPathLen := by
  have hlength := dropLast_resolved_length path
  rwa [h, List.dropLast_concat] at hlength

theorem pathparse_of_resolved {init : List CStr} {name : CStr} (h : resolvePath (pathparse path) = init ++ [name]) :
    pathparse (joinPath init) = init := by
  have hparse := pathparse_parent path
  rwa [h, List.dropLast_concat] at hparse

theorem translateIn_of_resolved (hlimits : Roomy limits) {init : List CStr} {name : CStr}
    (h : resolvePath (pathparse path) = init ++ [name]) :
    translateIn limits disk (joinPath init) = (descend disk 2 init).map fun inum => (inum, inodeAt disk inum) := by
  have hwalk : translateIn limits disk _ = _ := translateIn_parent hlimits path
  rwa [h, List.dropLast_concat] at hwalk

/-- What `parentDir` delivers where the names before the last one lead to an object. -/
theorem parentDirIn_of_resolved (hlimits : Roomy limits) {init : List CStr} {name : CStr} {dir : Nat}
    (hresolved : resolvePath (pathparse path) = init ++ [name]) (hshort : ∀ c ∈ init, c.bytes.length < nameLen)
    (hdescend : descend disk 2 init = .ok dir) :
    parentDirIn limits disk path =
      if !S_ISDIR (inodeAt disk dir).mode then .error (.errno .ENOTDIR) else .ok (name, inodeAt disk dir) := by
  rw [parentDirIn, hresolved, parentPathIn_of_short hlimits hshort (length_of_resolved hresolved)]
  simp only [lastComponentIn, List.getLast?_concat, bind, Except.bind]
  rw [translateIn_of_resolved hlimits hresolved, hdescend]
  rfl

/-- The path of the parent leads where its names lead. -/
theorem Plain.translateIn_parent (hpath : Plain path) (hlimits : Roomy limits) (h : WellNamed disk)
    {init : List CStr} {name : CStr} {dir : Nat} (hsplit : pathparse path = init ++ [name])
    (hleads : (tree disk).Leads 2 (labels init) dir) :
    parentPathIn limits (init ++ [name]) = .ok (joinPath init) ∧
      translateIn limits disk (joinPath init) = .ok (dir, inodeAt disk dir) := by
  have hresolved := hpath.resolvePath.trans hsplit
  have hshort := h.terminated.length_lt_of_leads .root hleads
  refine ⟨parentPathIn_of_short hlimits hshort (length_of_resolved hresolved), ?_⟩
  rw [translateIn_of_resolved hlimits hresolved, h.descend_root_iff.mpr hleads]
  rfl

/-- What `parentDir` delivers where the names before the last one lead to an object of the tree. -/
theorem Plain.parentDirIn_of_leads (hpath : Plain path) (hlimits : Roomy limits) (h : WellNamed disk)
    {init : List CStr} {name : CStr} {dir : Nat} (hsplit : pathparse path = init ++ [name])
    (hleads : (tree disk).Leads 2 (labels init) dir) :
    parentDirIn limits disk path =
      if !S_ISDIR (inodeAt disk dir).mode then .error (.errno .ENOTDIR) else .ok (name, inodeAt disk dir) :=
  parentDirIn_of_resolved hlimits (hpath.resolvePath.trans hsplit) (h.terminated.length_lt_of_leads .root hleads)
    (h.descend_root_iff.mpr hleads)

/-- `parentDir` succeeds exactly where the names before the last one lead to a directory. -/
theorem Plain.parentDirIn_eq_ok_iff (hpath : Plain path) (hlimits : Roomy limits) (h : WellNamed disk)
    {init : List CStr} {name : CStr} (hsplit : pathparse path = init ++ [name]) {last : CStr} {parent : Inode} :
    parentDirIn limits disk path = .ok (last, parent) ↔
      last = name ∧ ∃ dir, (tree disk).Leads 2 (labels init) dir ∧ S_ISDIR (inodeAt disk dir).mode = true ∧
        parent = inodeAt disk dir := by
  constructor
  · intro hparent
    obtain ⟨init', dir, hsplit', hdescend, hinode, hmode⟩ := parentDirIn_eq_ok hparent
    rw [hpath.resolvePath, hsplit] at hsplit'
    obtain ⟨rfl, hlast⟩ := List.append_inj' hsplit' rfl
    obtain rfl : name = last := by simpa using hlast
    exact ⟨rfl, dir, leads_of_descend hdescend, hinode ▸ hmode, hinode⟩
  · rintro ⟨rfl, dir, hleads, hmode, rfl⟩
    rw [hpath.parentDirIn_of_leads hlimits h hsplit hleads, hmode]
    rfl

end Paths

end Fs5600
