import Fs5600.Following

/-! Listing and lookup. `fs_readdir` shows a name where `fs_getattr` finds it, with the attributes that
`fs_getattr` reports. -/

namespace Fs5600

open Ownership Command

/-- The path of a name in a directory: the path of the directory, a slash and the name. -/
def under (path name : CStr) : CStr where
  bytes := path.bytes ++ slash :: name.bytes
  nulFree := by
    have hslash : (0 : UInt8) ≠ slash := by decide
    simp only [List.mem_append, List.mem_cons, hslash, false_or, not_or]
    exact ⟨path.nulFree, name.nulFree⟩

/-- The stored names are names: not empty, without a slash, and neither `.` nor `..`. -/
def ProperNames (disk : Nat → Block) : Prop :=
  ∀ n slot label m, (tree disk).Reach n → (tree disk).edge n slot = some (label, m) →
    label ≠ [] ∧ slash ∉ label ∧ label ≠ dot.bytes ∧ label ≠ dotdot.bytes

/-- `fs_readdir` hands every valid entry of the directory to the filler, one by one in the order of the slots. What
it shows, `fs_getattr` finds, with the same attributes; and what `fs_getattr` finds, it shows. -/
structure ListingAgrees (env : Env) (fs : Fs) (path : CStr) (dir : Nat) : Prop where
  listing : (fsReaddir path env (.start fs)).1 = .ok (allSlots.filterMap fun slot =>
    ((tree fs.disk).edge dir slot).map fun entry => (entry.1, setstat (inodeAt fs.disk entry.2)))
  shown_iff : ∀ name, IsComponent name → IsName name → ∀ entries,
    (fsReaddir path env (.start fs)).1 = .ok entries →
      ((∃ stat, (name.bytes, stat) ∈ entries) ↔ ∃ stat, (fsGetattr (under path name) env (.start fs)).1 = .ok stat)
  same : ∀ entries, (fsReaddir path env (.start fs)).1 = .ok entries → ∀ entry ∈ entries,
    ∃ name : CStr, name.bytes = entry.1 ∧ IsComponent name ∧ IsName name ∧
      (fsGetattr (under path name) env (.start fs)).1 = .ok entry.2

section Listing

variable {env : Env} {fs : Fs} {path name : CStr} {dir : Nat}

theorem bytes_injective : Function.Injective CStr.bytes := fun _ _ => CStr.ext

theorem pieces_under (hname : IsComponent name) : pieces (under path name) = pieces path ++ [name.bytes] := by
  obtain ⟨hne, hfree⟩ := hname
  calc pieces (under path name) = pieces path ++ (name.bytes.splitOn slash).filter (· ≠ []) := by
        rw [pieces, pieces, under, List.splitOn_append_cons_self, List.filter_append]
    _ = pieces path ++ [name.bytes].filter (· ≠ []) := by rw [List.splitOn_eq_singleton hfree]
    _ = pieces path ++ [name.bytes] := by rw [List.filter_cons_of_pos (by simpa using hne), List.filter_nil]

/-- The components of the path of a name: those of the directory, and the name. -/
theorem pathparse_under (hname : IsComponent name) (hshort : (pathparse path).length < maxPathLen - 1) :
    pathparse (under path name) = pathparse path ++ [name] := by
  have hpieces := map_pathparse path
  have hlength := congrArg List.length hpieces
  rw [List.length_map, List.length_take] at hlength
  simp only [maxPathLen] at hshort hlength hpieces
  rw [List.take_of_length_le (by omega)] at hpieces
  apply bytes_injective.list_map
  rw [map_pathparse, pieces_under hname, List.map_append, hpieces, List.take_of_length_le]
  · rfl
  · rw [List.length_append, List.length_singleton]
    simp only [maxPathLen]
    omega

/-- `fs_getattr` of a name in a directory looks the name up there. -/
theorem getattr_under (hquiet : env.Quiet) (hlimits : Roomy env.limits) (hnames : ∀ c ∈ pathparse path, IsName c)
    (hshort : (pathparse path).length < maxPathLen - 1) (hdescend : descend fs.disk 2 (pathparse path) = .ok dir)
    (hname : IsComponent name) (hdots : IsName name) :
    (fsGetattr (under path name) env (.start fs)).1 =
      (childIn fs.disk dir name).map fun inum => setstat (inodeAt fs.disk inum) := by
  have hparse := pathparse_under hname hshort
  have hroom := hlimits.stack
  rw [fsGetattr_value hquiet, translateIn_eq, hparse, descend_append, hdescend]
  · rw [show (Except.ok dir >>= fun next => descend fs.disk next [name]) = descend fs.disk dir [name] from rfl,
      descend_singleton]
    rcases childIn fs.disk dir name with reason | inum <;> rfl
  · rw [hparse]
    intro c hc
    rcases List.mem_append.mp hc with hc | hc
    · exact hnames c hc
    · exact List.mem_singleton.mp hc ▸ hdots
  · rw [hparse, List.length_append, List.length_singleton]
    omega

/-- A name is shown exactly where it is found, and with the attributes that are found. -/
theorem mem_listing_iff (h : WellNamed fs.disk) (hdir : (tree fs.disk).Reach dir) {stat : Stat} :
    (name.bytes, stat) ∈ listing fs.disk dir ↔
      (childIn fs.disk dir name).map (fun inum => setstat (inodeAt fs.disk inum)) = .ok stat := by
  constructor
  · intro hmem
    obtain ⟨slot, -, hshown⟩ := List.mem_filterMap.mp hmem
    obtain ⟨⟨label, inum⟩, hedge, heq⟩ := Option.map_eq_some_iff.mp hshown
    obtain ⟨rfl, rfl⟩ := Prod.mk.inj heq
    rw [(h.childIn_eq_ok_iff hdir).mpr ⟨slot, hedge⟩]
    rfl
  · intro hfound
    rcases hchild : childIn fs.disk dir name with reason | inum
    · rw [hchild] at hfound
      cases hfound
    · rw [hchild] at hfound
      obtain ⟨slot, hedge⟩ := (h.childIn_eq_ok_iff hdir).mp hchild
      refine List.mem_filterMap.mpr ⟨slot, mem_allSlots slot, ?_⟩
      rw [hedge, ← Except.ok.inj hfound]
      rfl

/-- An entry that is listed stores a name. -/
theorem name_of_mem_listing (h : ProperNames fs.disk) (hdir : (tree fs.disk).Reach dir)
    {entry : List UInt8 × Stat} (hmem : entry ∈ listing fs.disk dir) :
    ∃ name : CStr, name.bytes = entry.1 ∧ IsComponent name ∧ IsName name := by
  obtain ⟨slot, -, hshown⟩ := List.mem_filterMap.mp hmem
  obtain ⟨⟨label, inum⟩, hedge, rfl⟩ := Option.map_eq_some_iff.mp hshown
  obtain ⟨hne, hfree, hdot, hdotdot⟩ := h dir slot label inum hdir hedge
  obtain ⟨-, hentry⟩ := tree_edge_eq_some.mp hedge
  obtain ⟨-, rfl, -⟩ := Dirent.edge_eq_some.mp hentry
  have hnul : (0 : UInt8) ∉ (direntAt fs.disk dir slot).storedName := fun hmem => by
    simpa using List.mem_takeWhile_imp hmem
  exact ⟨⟨_, hnul⟩, rfl, ⟨hne, hfree⟩, fun heq => hdot (congrArg CStr.bytes heq),
    fun heq => hdotdot (congrArg CStr.bytes heq)⟩

end Listing

/-- In a well-formed file system `fs_readdir` and `fs_getattr` agree on every directory. -/
theorem listingAgrees {env : Env} {fs : Fs} {path : CStr} {dir : Nat} {inode : Inode} (hquiet : env.Quiet)
    (hlimits : Roomy env.limits) (h : WellFormed fs) (hproper : ProperNames fs.disk)
    (hnames : ∀ c ∈ pathparse path, IsName c) (hshort : (pathparse path).length ≤ 8)
    (htranslate : (translate path env (.start fs)).1 = .ok (dir, inode)) (hmode : S_ISDIR inode.mode = true) :
    ListingAgrees env fs path dir := by
  rw [translate_value hquiet] at htranslate
  obtain ⟨hdescend, rfl⟩ := translateIn_eq_ok hnames htranslate
  have hdir := reach_of_descend hdescend
  have hlist : (fsReaddir path env (.start fs)).1 = .ok (listing fs.disk dir) := by
    rw [fsReaddir_value hquiet h.toWellNamed, readdirIn, htranslate]
    simp only [bind, Except.bind, hmode, Bool.not_true, Bool.false_eq_true, if_false]
  have hget := fun name hname hdots => @getattr_under env fs path name dir hquiet hlimits hnames
    (by simp only [maxPathLen]; omega) hdescend hname hdots
  refine ⟨hlist, fun name hname hdots entries hentries => ?_, fun entries hentries entry hmem => ?_⟩
  · obtain rfl := Except.ok.inj (hlist.symm.trans hentries)
    rw [hget name hname hdots]
    exact exists_congr fun stat => mem_listing_iff h.toWellNamed hdir
  · obtain rfl := Except.ok.inj (hlist.symm.trans hentries)
    obtain ⟨name, hbytes, hname, hdots⟩ := name_of_mem_listing hproper hdir hmem
    refine ⟨name, hbytes, hname, hdots, ?_⟩
    rw [hget name hname hdots]
    exact (mem_listing_iff h.toWellNamed hdir).mp (hbytes ▸ hmem)

theorem properNames_of_closed {disk : Nat → Block} {nodes : List Nat} (hclosed : Closed disk nodes)
    (hall : ∀ n ∈ nodes, ∀ entry ∈ edgeList disk n,
      entry.2.1 ≠ [] ∧ slash ∉ entry.2.1 ∧ entry.2.1 ≠ dot.bytes ∧ entry.2.1 ≠ dotdot.bytes) : ProperNames disk :=
  fun n _ _ _ hn hedge => hall n (hclosed.mem_of_reach hn) _ (mem_edgeList hedge)

/-- The root directory of the sample, with its two entries. -/
theorem listingAgrees_sampleImage : ListingAgrees (quietEnv 0) sampleImage (joinPath []) 2 := by
  have hparse : pathparse (joinPath []) = [] := pathparse_joinPath (by decide)
  refine @listingAgrees _ _ _ _ (inodeAt sampleImage.disk 2) (quiet_quietEnv 0) (roomy_quietEnv 0)
    wellFormed_sampleImage (@properNames_of_closed _ [2, 4, 6] (by decide +kernel) (by decide +kernel))
    (by rw [hparse]; simp) (by rw [hparse]; decide) ?_ (by decide +kernel)
  rw [translate_value (quiet_quietEnv 0), translateIn, hparse]
  rfl

end Fs5600
