import Fs5600.WholePath

/-! Chains of directories: for any names, a disk where they lead to a file, one below the other. They show
that a path which loses names makes `fs_unlink` remove a file that the whole path does not name. -/

namespace Fs5600

open Ownership Command

/-! ### The disk of a chain -/

/-- Inode `i` of a chain: a directory with one block for each name, and an empty file at the end. -/
def chainInode (names : List CStr) (i : Nat) : Inode :=
  if i < names.length then inodeOf (S_IFDIR ||| 0o777) 4096 [2 * i + 3] else inodeOf (S_IFREG ||| 0o666) 0 []

/-- The only entry of directory `i` of a chain: it leads to the next inode. -/
def chainEntry (names : List CStr) (i : Nat) : Dirent :=
  ⟨true, BitVec.ofNat 31 (2 * i + 4), fun j => (names.getD i dot).bytes.getD j 0⟩

def chainMap : Block := Block.ofBytes fun offset => if offset < 8 then 255 else 0

/-- A disk with a chain of directories. Inode `i` is in block `2 * i + 2`, its data in the next block. -/
def chainDisk (names : List CStr) (lba : Nat) : Block :=
  if lba = 0 then superOf 64
  else if lba = 1 then chainMap
  else if lba % 2 = 0 then (chainInode names (lba / 2 - 1)).toBlock
  else Block.zero.setDirent 0 (chainEntry names (lba / 2 - 1))

def chainImage (names : List CStr) : Fs := ⟨64, chainMap, chainDisk names⟩

section Chain

variable {names init rest mid : List CStr} {name : CStr} {i : Nat}

theorem inodeAt_chainDisk (names : List CStr) (i : Nat) :
    inodeAt (chainDisk names) (2 * i + 2) = chainInode names i := by
  have hindex : (2 * i + 2) / 2 - 1 = i := by omega
  rw [inodeAt, chainDisk, if_neg (by omega), if_neg (by omega), if_pos (by omega), hindex, Inode.ofBlock_toBlock]

theorem block_chainDisk (names : List CStr) (i : Nat) :
    chainDisk names (2 * i + 3) = Block.zero.setDirent 0 (chainEntry names i) := by
  have hindex : (2 * i + 3) / 2 - 1 = i := by omega
  rw [chainDisk, if_neg (by omega), if_neg (by omega), if_neg (by omega), hindex]

theorem ptrs_chainInode (h : i < names.length) (hsmall : names.length ≤ maxPathLen) :
    ((chainInode names i).ptrs 0).toNat = 2 * i + 3 := by
  have hlt : 2 * i + 3 < 2 ^ 32 := by
    simp only [maxPathLen] at hsmall
    omega
  rw [chainInode, if_pos h, inodeOf, Inode.setPtrs]
  dsimp only
  rw [if_pos (by simp)]
  simp only [Fin.val_zero, Nat.sub_zero, List.getD_cons_zero, UInt32.toNat_ofNat']
  omega

theorem isDir_chainInode (h : i < names.length) :
    S_ISDIR (chainInode names i).mode = true ∧ (chainInode names i).dirBlocks = 1 := by
  rw [chainInode, if_pos h]
  exact ⟨(by decide : S_ISDIR (S_IFDIR ||| 0o777) = true), (by decide : (4096 : Int32).toInt.toNat / fsBlockSize = 1)⟩

theorem chainInode_end (h : ¬i < names.length) :
    S_ISDIR (chainInode names i).mode = false ∧ (chainInode names i).numBlocks = 0 := by
  rw [chainInode, if_neg h]
  exact ⟨by decide, by decide⟩

/-- The stored name of an entry into which a name fits. -/
theorem storedName_field (valid : Bool) (inode : BitVec 31) (hlength : name.bytes.length < nameLen) :
    (Dirent.mk valid inode fun j => name.bytes.getD j 0).storedName = name.bytes := by
  apply storedName_eq hlength name.nulFree
  · intro i hi
    exact List.getD_eq_getElem _ _ hi
  · exact List.getD_eq_default _ _ (Nat.le_refl _)

theorem storedName_chainEntry (h : names[i]? = some name) (hlength : name.bytes.length < nameLen) :
    (chainEntry names i).storedName = name.bytes := by
  rw [chainEntry, List.getD_eq_getElem?_getD, h, Option.getD_some]
  exact storedName_field true _ hlength

/-- A search in a directory of a chain finds its entry. -/
theorem search_chainDisk (h : names[i]? = some name) (hlength : name.bytes.length < nameLen)
    (hsmall : names.length ≤ maxPathLen) :
    ∃ hit, searchDirIn (hasName name) (chainInode names i) (chainDisk names) = .ok (some hit) ∧ hit.index = 0 ∧
      hit.entry.inode.toNat = 2 * i + 4 := by
  have hi : i < names.length := (List.getElem?_eq_some_iff.mp h).1
  have hone := (isDir_chainInode hi).2
  have hblock : chainDisk names ((chainInode names i).ptrs 0).toNat = Block.zero.setDirent 0 (chainEntry names i) := by
    rw [ptrs_chainInode hi hsmall, block_chainDisk]
  have hhere : hasName name (chainEntry names i) = .ok true := by
    have hstored := storedName_chainEntry h hlength
    have hvalid : (chainEntry names i).valid = true := rfl
    rw [hasName, if_pos hvalid, strcmp_of_length (hstored ▸ hlength), hstored, beq_self_eq_true]
  have hother : ∀ s, s ≠ 0 → hasName name ((Block.zero.setDirent 0 (chainEntry names i)).dirent s) = .ok false := by
    intro s hs
    rw [Block.dirent_setDirent_ne _ _ hs, hasName, if_neg (by simp [Block.valid_dirent_zero])]
  obtain ⟨found, hsearch⟩ : ∃ found, searchDirIn (hasName name) (chainInode names i) (chainDisk names) = .ok found := by
    refine searchLoopIn_ok (by rw [hone]; decide) fun j _ hj s => ?_
    obtain rfl : j = 0 := Fin.ext (by rw [hone] at hj; simpa using hj)
    rw [hblock]
    by_cases hs : s = 0
    · rw [hs, Block.dirent_setDirent_self]
      exact ⟨true, hhere⟩
    · exact ⟨false, hother s hs⟩
  rcases found with _ | hit
  · have hnone := searchDirIn_eq_none hsearch (show (0 : Fin numPtrs).val < _ by rw [hone]; decide) 0
    rw [hblock, Block.dirent_setDirent_self, hhere] at hnone
    cases hnone
  · obtain ⟨hlt, hread, htest⟩ := searchDirIn_eq_some hsearch
    have hindex : hit.index = 0 := Fin.ext (by rw [hone] at hlt; simpa using hlt)
    rw [hindex, hblock] at hread
    have hslot : hit.slot = 0 := by
      by_contra hne
      rw [Hit.entry, hread, hother _ hne] at htest
      cases htest
    refine ⟨hit, hsearch, hindex, ?_⟩
    rw [Hit.entry, hread, hslot, Block.dirent_setDirent_self]
    simp only [maxPathLen] at hsmall
    simp only [chainEntry, BitVec.toNat_ofNat]
    omega

theorem childIn_chainDisk (h : names[i]? = some name) (hlength : name.bytes.length < nameLen)
    (hsmall : names.length ≤ maxPathLen) : childIn (chainDisk names) (2 * i + 2) name = .ok (2 * (i + 1) + 2) := by
  obtain ⟨hit, hsearch, -, hinum⟩ := search_chainDisk h hlength hsmall
  have hmode := (isDir_chainInode (List.getElem?_eq_some_iff.mp h).1).1
  rw [← inodeAt_chainDisk] at hsearch hmode
  rw [childIn_of_search hmode hsearch, hinum, Nat.mul_add]

/-- The names of a chain lead down it. -/
theorem descend_chainDisk (hsmall : names.length ≤ maxPathLen) (hshort : ∀ c ∈ names, c.bytes.length < nameLen)
    (hnames : names = init ++ (mid ++ rest)) :
    descend (chainDisk names) (2 * init.length + 2) mid = .ok (2 * (init.length + mid.length) + 2) := by
  induction mid generalizing init with
  | nil => rfl
  | cons name mid ih =>
      have hget : names[init.length]? = some name := by rw [hnames]; simp
      have hrest := @ih (init ++ [name]) (by rw [hnames]; simp)
      have hlength : (init ++ [name]).length = init.length + 1 := by simp
      rw [hlength] at hrest
      rw [descend, childIn_chainDisk hget (hshort name (List.mem_of_getElem? hget)) hsmall]
      apply hrest.trans
      rw [List.length_cons]
      exact congrArg (fun k => Except.ok (2 * k + 2)) (by omega)

theorem descend_chain_root (hsmall : names.length ≤ maxPathLen) (hshort : ∀ c ∈ names, c.bytes.length < nameLen) :
    descend (chainDisk names) 2 names = .ok (2 * names.length + 2) := by
  have hdescend := @descend_chainDisk names [] [] names hsmall hshort (by simp)
  rwa [List.length_nil, Nat.mul_zero, Nat.zero_add, Nat.zero_add] at hdescend

end Chain

/-! ### Paths that are cut -/

/-- All block accesses succeed, and the stack of `translate` has room for ten names. -/
def ampleEnv : Env := { quietEnv 0 with limits := ⟨maxPathLen + 1, 256⟩ }

theorem quiet_ampleEnv : ampleEnv.Quiet := ⟨fun _ _ => rfl, fun _ _ => rfl⟩

section Cut

variable {path : CStr} {names : List CStr}

/-- The parent directory of the last name of a chain. -/
theorem parentDirIn_chainImage (hdots : dotdot ∉ pathparse path) (hnames : withoutDots (pathparse path) = names)
    (hshort : ∀ c ∈ names, c.bytes.length < nameLen) {init : List CStr} {name : CStr} (hsplit : names = init ++ [name]) :
    parentDirIn ampleEnv.limits (chainImage names).disk path = .ok (name, chainInode names init.length) := by
  have hsmall : names.length ≤ maxPathLen := hnames ▸ withoutDots_length_le path
  have hlength : names.length = init.length + 1 := by rw [hsplit, List.length_append, List.length_singleton]
  have hmem : ∀ c ∈ init, c ∈ names := fun c hc => hsplit ▸ List.mem_append_left _ hc
  have hresolved : resolvePath (pathparse path) = init ++ [name] := by
    rw [resolvePath_withoutDots, resolvePath_of_isName fun c => isName_of_mem_withoutDots hdots, hnames, hsplit]
  have hinit : descend (chainDisk names) 2 init = .ok (2 * init.length + 2) := by
    have := @descend_chainDisk names [] [name] init hsmall hshort (by simpa using hsplit)
    simpa using this
  have hmode : S_ISDIR (chainInode names init.length).mode = true := (isDir_chainInode (by omega)).1
  have hroomy : Roomy ampleEnv.limits := ⟨Nat.le_succ _, Nat.le_refl _⟩
  have hinode : inodeAt (chainDisk names) (2 * init.length + 2) = chainInode names init.length :=
    inodeAt_chainDisk names init.length
  have hparent := parentDirIn_of_resolved hroomy hresolved (fun c hc => hshort c (hmem c hc)) hinit
  rw [hinode, hmode] at hparent
  exact hparent

/-- `fs_unlink` on a chain: whatever comes after its names, it does not return an error code. -/
theorem unlink_chainImage (hdots : dotdot ∉ components path) (hnames : withoutDots (pathparse path) = names)
    (hshort : ∀ c ∈ names, c.bytes.length < nameLen) (errno : Errno) :
    (Op.run (.unlink path) ampleEnv (chainImage names)).1 ≠ .error (.errno errno) := by
  have hdots' := dotdot_notMem_pathparse hdots
  have hsmall : names.length ≤ maxPathLen := hnames ▸ withoutDots_length_le path
  have hdescend := descend_chain_root hsmall hshort
  have hinode : inodeAt (chainDisk names) (2 * names.length + 2) = chainInode names names.length :=
    inodeAt_chainDisk names _
  obtain ⟨hfile, hblocks⟩ := chainInode_end (lt_irrefl names.length)
  have hwalk : Reads ampleEnv (chainImage names) (translate path)
      (.ok (2 * names.length + 2, chainInode names names.length)) := by
    have htranslate : translateIn ampleEnv.limits (chainImage names).disk path =
        .ok (2 * names.length + 2, chainInode names names.length) := by
      rw [translateIn_eq_descend hdots' (Nat.lt_succ_self _), hnames]
      rw [show (chainImage names).disk = chainDisk names from rfl, hdescend, ← hinode]
      rfl
    exact htranslate ▸ reads_translate path
  have hresolved : resolvePath (pathparse path) = names := by
    rw [resolvePath_withoutDots, resolvePath_of_isName fun c => isName_of_mem_withoutDots hdots', hnames]
  have hrun : ∀ {value plan}, Does ampleEnv (chainImage names) (fsUnlink path) value plan →
      (Op.run (.unlink path) ampleEnv (chainImage names)).1 = value := fun hdoes =>
    (run_of_does hdoes quiet_ampleEnv).1
  rcases names.eq_nil_or_concat with rfl | ⟨init, name, hsplit⟩
  · have hparent : parentDirIn ampleEnv.limits (chainImage []).disk path = .error .fault := by
      rw [parentDirIn, hresolved]
      rfl
    rw [hrun (does_read_bind hwalk (by
      dsimp only
      rw [if_neg (Bool.eq_false_iff.mp hfile)]
      exact Follows.bind_error (hparent ▸ reads_parentDir path)))]
    simp
  · rw [List.concat_eq_append] at hsplit
    have hlength : names.length = init.length + 1 := by rw [hsplit, List.length_append, List.length_singleton]
    have hget : names[init.length]? = some name := by rw [hsplit]; simp
    have hparent := parentDirIn_chainImage hdots' hnames hshort hsplit
    obtain ⟨hit, hsearch, hindex, -⟩ := search_chainDisk hget (hshort name (List.mem_of_getElem? hget)) hsmall
    simp only [maxPathLen] at hsmall
    have hremove : Does ampleEnv (chainImage names) (removeEntry (chainInode names init.length) name) (.ok ())
        (removal (chainInode names init.length) (some hit)) := by
      refine does_removeEntry hsearch fun hit' hhit => ?_
      obtain rfl := Option.some.inj hhit
      rw [hindex, ptrs_chainInode (by omega) (by simp only [maxPathLen]; omega)]
      exact ⟨by omega, by omega⟩
    have hfree : Does ampleEnv ((chainImage names).replay (removal (chainInode names init.length) (some hit)))
        (freeLoop (chainInode names names.length) (chainInode names names.length).numBlocks 0) (.ok ())
        (([] : List Nat).map .bitClear) := by
      rw [hblocks]
      exact Follows.pure ()
    have hlast : 2 * names.length + 2 < bitmapBits := by
      simp only [bitmapBits]
      omega
    rw [hrun (does_read_bind hwalk (by
      dsimp only
      rw [if_neg (Bool.eq_false_iff.mp hfile)]
      exact does_read_bind (hparent ▸ reads_parentDir path) (does_bind hremove (does_release hfree hlast))))]
    simp

/-- On a path that is cut, `fs_unlink` on the chain of the names that are left does not act on the whole path. -/
theorem not_actsOnWhole (hdots : dotdot ∉ components path) (hcut : ¬Uncut path)
    (hnames : withoutDots (pathparse path) = names) :
    ¬ActsOnWhole ampleEnv (chainImage names) path (.unlink path) := by
  intro hwhole
  obtain ⟨hdrop, htake⟩ := not_or.mp hcut
  have hshort : ∀ c ∈ names, c.bytes.length < nameLen := by
    intro c hc
    rw [← hnames] at hc
    obtain ⟨hmem, hdot⟩ := List.mem_filter.mp hc
    rw [pathparse_eq_take] at hmem
    by_contra hlong
    exact htake ⟨c, hmem, by simpa using hdot, not_lt.mp hlong⟩
  have hsmall : names.length ≤ maxPathLen := hnames ▸ withoutDots_length_le path
  -- the full lookup goes on below the file
  obtain ⟨next, rest, hrest⟩ : ∃ next rest, withoutDots ((components path).drop maxPathLen) = next :: rest := by
    refine List.exists_cons_of_ne_nil fun hnil => hdrop fun c hc => ?_
    simpa using List.filter_eq_nil_iff.mp hnil c hc
  have hlookup : lookup (chainDisk names) path = .error (.errno .ENOTDIR) := by
    have hfile := (chainInode_end (lt_irrefl names.length)).1
    rw [← inodeAt_chainDisk] at hfile
    rw [lookup_eq, hnames, hrest, descend_append, descend_chain_root hsmall hshort]
    change descend (chainDisk names) (2 * names.length + 2) (next :: rest) = _
    rw [descend, childIn, hfile]
    rfl
  obtain ⟨⟨errno, hvalue⟩, -⟩ := hwhole.failure _ hlookup
  exact unlink_chainImage hdots hnames hshort errno hvalue

/-- `fs_unlink` and `fs_rmdir` act on what the whole path names, in every state, exactly where the path is not
cut. -/
theorem actsOnWhole_iff (hdots : dotdot ∉ components path) :
    (∀ env fs, maxPathLen < env.limits.parentStack →
      ActsOnWhole env fs path (.unlink path) ∧ ActsOnWhole env fs path (.rmdir path)) ↔ Uncut path := by
  constructor
  · intro hwhole
    by_contra hcut
    exact not_actsOnWhole hdots hcut rfl (hwhole ampleEnv _ (Nat.lt_succ_self _)).1
  · exact fun huncut env fs hstack => huncut.actsOnWhole hdots hstack

end Cut

/-- A path of ten names and two dots behind them is used whole. -/
theorem actsOnWhole_iff_dots : ActsOnWhole ampleEnv (chainImage (List.replicate 10 nameF))
    (joinPath (List.replicate 10 nameF ++ [dot, dot])) (.unlink (joinPath (List.replicate 10 nameF ++ [dot, dot]))) := by
  have hall : components (joinPath (List.replicate 10 nameF ++ [dot, dot])) = List.replicate 10 nameF ++ [dot, dot] := by
    decide +kernel
  have hdots : dotdot ∉ components (joinPath (List.replicate 10 nameF ++ [dot, dot])) := by
    rw [hall]
    decide
  have huncut : Uncut (joinPath (List.replicate 10 nameF ++ [dot, dot])) := by
    rw [Uncut, hall]
    decide
  exact ((actsOnWhole_iff hdots).mpr huncut ampleEnv _ (Nat.lt_succ_self _)).1

/-- Not every path is used whole: of eleven names the last one is dropped, and the file that the first ten lead
to is removed. -/
theorem actsOnWhole_false :
    ¬∀ env fs path, env.Quiet → Mounted fs → WellFormed fs → dotdot ∉ components path →
      maxPathLen < env.limits.parentStack → ActsOnWhole env fs path (.unlink path) := by
  intro h
  have hall : components (joinPath (List.replicate 11 nameF)) = List.replicate 11 nameF := by decide +kernel
  have hnames : withoutDots (pathparse (joinPath (List.replicate 11 nameF))) = List.replicate 10 nameF := by
    decide +kernel
  have hdots : dotdot ∉ components (joinPath (List.replicate 11 nameF)) := by
    rw [hall]
    decide
  have hcut : ¬Uncut (joinPath (List.replicate 11 nameF)) := by
    rw [Uncut, hall]
    decide
  exact not_actsOnWhole hdots hcut hnames (h ampleEnv _ _ quiet_ampleEnv
    (mounted_of_disk (by decide +kernel) (by decide +kernel) rfl) (wellFormed_of_check (by decide +kernel)) hdots
    (Nat.lt_succ_self _))

end Fs5600
