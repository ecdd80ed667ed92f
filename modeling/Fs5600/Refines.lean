import Fs5600.Accounting
import Fs5600.Hierarchy

/-! What a request does to the disk is what it is meant to do to the hierarchy. -/

namespace Fs5600

open Ownership Command

/-- The disk shows the hierarchy. -/
abbrev ShowsTree (disk : Nat → Block) (t : Hierarchy) : Prop := (tree disk).Shows (nodeAt disk) t

/-! ### Lookups -/

section Lookup

variable {disk : Nat → Block} {t : Hierarchy} {ls : List (List UInt8)} {inum : Nat} {names : List CStr}

/-- Going down from an object is going down the hierarchy from its path. -/
theorem descend_find (h : WellNamed disk) (hshows : ShowsTree disk t) (hleads : (tree disk).Leads 2 ls inum) :
    (∃ missing, PathMap.find Node.isDir t ls (labels names) = .error missing ∧
        descend disk inum names = .error (.errno (missingErrno missing))) ∨
      ∃ n, PathMap.find Node.isDir t ls (labels names) = .ok (nodeAt disk n) ∧ descend disk inum names = .ok n := by
  have hhere : t ls = some (nodeAt disk inum) := hshows.of_leads hleads
  induction names generalizing ls inum with
  | nil => exact Or.inr ⟨inum, PathMap.find_nil hhere, rfl⟩
  | cons name rest ih =>
      have hreach : (tree disk).Reach inum := hleads.reach .root
      have hfind : PathMap.find Node.isDir t ls (labels (name :: rest)) =
          if S_ISDIR (inodeAt disk inum).mode then PathMap.find Node.isDir t (ls ++ [name.bytes]) (labels rest)
          else .error .notInner := PathMap.find_cons hhere
      cases hmode : S_ISDIR (inodeAt disk inum).mode with
      | false =>
          refine Or.inl ⟨.notInner, ?_, ?_⟩
          · rw [hfind, hmode]
            rfl
          · rw [descend, childIn, hmode]
            rfl
      | true =>
          rw [hfind, hmode, if_pos rfl]
          by_cases hedge : ∃ slot k, (tree disk).edge inum slot = some (name.bytes, k)
          · obtain ⟨slot, k, hedge⟩ := hedge
            have hnext : (tree disk).Leads 2 (ls ++ [name.bytes]) k := Graph.leads_snoc.mpr ⟨inum, slot, hleads, hedge⟩
            rw [descend, (h.childIn_eq_ok_iff hreach).mpr ⟨slot, hedge⟩]
            exact ih hnext (hshows.of_leads hnext)
          · have hnone : t (ls ++ [name.bytes]) = none := by
              rw [hshows.eq_none_iff]
              intro n hn
              obtain ⟨inum', slot, hinum', he⟩ := Graph.leads_snoc.mp hn
              obtain rfl := h.unique.leads_unique .root hinum' hleads
              exact hedge ⟨slot, n, he⟩
            refine Or.inl ⟨.absent, PathMap.find_of_none hnone, ?_⟩
            rw [descend, childIn, hmode, h.search_of_not_edge hreach hmode fun slot k he => hedge ⟨slot, k, he⟩]
            rfl

/-- A lookup in the hierarchy ends as it does on the disk. -/
theorem lookup_cases (h : WellNamed disk) (hshows : ShowsTree disk t) (names : List CStr) :
    (∃ code, t.lookup (labels names) = .error code ∧ descend disk 2 names = .error (.errno code)) ∨
      ∃ n, t.lookup (labels names) = .ok (nodeAt disk n) ∧ descend disk 2 names = .ok n ∧
        (tree disk).Leads 2 (labels names) n := by
  have hroot : (tree disk).Leads 2 [] 2 := rfl
  rcases @descend_find _ _ _ _ names h hshows hroot with ⟨missing, hfind, hdescend⟩ | ⟨n, hfind, hdescend⟩
  · exact Or.inl ⟨_, by rw [Hierarchy.lookup, hfind]; rfl, hdescend⟩
  · exact Or.inr ⟨n, by rw [Hierarchy.lookup, hfind]; rfl, hdescend, h.descend_root_iff.mp hdescend⟩

theorem lookup_of_leads (h : WellNamed disk) (hshows : ShowsTree disk t)
    (hleads : (tree disk).Leads 2 (labels names) inum) : t.lookup (labels names) = .ok (nodeAt disk inum) := by
  rcases lookup_cases h hshows names with ⟨code, -, hdescend⟩ | ⟨n, hlookup, -, hn⟩
  · cases hdescend.symm.trans (h.descend_root_iff.mpr hleads)
  · rw [hlookup, h.unique.leads_unique .root hn hleads]

/-- The same for a path without dots. -/
theorem translateIn_cases (h : WellNamed disk) (hshows : ShowsTree disk t) {limits : Limits} {path : CStr}
    (hnames : ∀ c ∈ pathparse path, IsName c) (hstack : (pathparse path).length < limits.parentStack) :
    (∃ code, t.lookup (labels (pathparse path)) = .error code ∧ translateIn limits disk path = .error (.errno code)) ∨
      ∃ n, t.lookup (labels (pathparse path)) = .ok (nodeAt disk n) ∧
        translateIn limits disk path = .ok (n, inodeAt disk n) ∧ Names disk path n := by
  have htranslate := @translateIn_eq disk limits path hnames hstack
  rcases lookup_cases h hshows (pathparse path) with ⟨code, hlookup, hdescend⟩ | ⟨n, hlookup, hdescend, hleads⟩
  · exact Or.inl ⟨code, hlookup, by rw [htranslate, hdescend]; rfl⟩
  · exact Or.inr ⟨n, hlookup, by rw [htranslate, hdescend]; rfl, hleads⟩

end Lookup

/-! ### The write that takes effect -/

section Commit

variable {env : Env} {fs fs' : Fs} {dir inum : Nat} {slot : Slot} {path name : CStr} {inode : Inode}
  {claimed : List Nat} {t : Hierarchy}

/-- Another block of a directory leaves what stands at the paths. -/
theorem nodeAt_of_keepsBut (hform : WellFormed fs) (hdir : (tree fs.disk).Reach dir) (hslot : HasSlot fs.disk dir slot)
    (hkeep : KeepsBut (fun b => b = ((inodeAt fs.disk dir).ptrs slot.1).toNat) fs.disk fs'.disk) {n : Nat}
    (hn : (tree fs.disk).Reach n) (hinode : inodeAt fs'.disk n = inodeAt fs.disk n) :
    nodeAt fs'.disk n = nodeAt fs.disk n := by
  refine nodeAt_congr hinode (hform.fits n hn) fun hfile i hi => ?_
  have hcell := tree_cell_eq_some.mpr ⟨hi, rfl⟩
  refine hkeep _ (Graph.Uses.cell hn hcell).inUse fun heq => ?_
  exact not_isData_of_dir hform.exclusive hdir hslot.1 hslot.cell (heq ▸ ⟨n, i, hn, hfile, hcell⟩)

theorem labels_append (init : List CStr) (name : CStr) : labels (init ++ [name]) = labels init ++ [name.bytes] :=
  List.map_append

/-- A name is taken where something stands at its path. -/
theorem isSome_iff_not_free (h : WellNamed fs.disk) (hshows : ShowsTree fs.disk t) {ls : List (List UInt8)}
    (hleads : (tree fs.disk).Leads 2 ls dir) (name : CStr) :
    (t (ls ++ [name.bytes])).isSome ↔ ¬NameFree fs.disk dir name := by
  constructor
  · intro hsome hfree
    obtain ⟨node, hnode⟩ := Option.isSome_iff_exists.mp hsome
    obtain ⟨n, hn, -⟩ := (hshows _ node).mp hnode
    obtain ⟨dir', s, hdir', hedge⟩ := Graph.leads_snoc.mp hn
    obtain rfl := h.unique.leads_unique .root hdir' hleads
    exact hfree s n hedge
  · intro hname
    obtain ⟨s, m, hedge⟩ : ∃ s m, (tree fs.disk).edge dir s = some (name.bytes, m) := by
      simpa [NameFree] using hname
    exact Option.isSome_of_eq_some (hshows.of_leads (Graph.leads_snoc.mpr ⟨dir, s, hleads, hedge⟩))

open Classical in
/-- An object can be made in a directory where its name is free. -/
theorem make_eq (h : WellNamed fs.disk) (hshows : ShowsTree fs.disk t) (hat : ParentAt fs.disk path name dir)
    (node : Node) : t.make (labels (pathparse path)) node =
      if NameFree fs.disk dir name then .ok (Function.update t (labels (pathparse path)) (some node))
      else .error .EEXIST := by
  obtain ⟨init, hsplit, hinit⟩ := hat.leads
  have hmode : (nodeAt fs.disk dir).isDir = true := hat.mode
  have htaken := isSome_iff_not_free h hshows hinit name
  rw [Hierarchy.make, hsplit, labels_append, List.dropLast_concat, lookup_of_leads h hshows hinit]
  dsimp only [bind, Except.bind]
  rw [if_neg (by simp [hmode])]
  by_cases hfree : NameFree fs.disk dir name
  · rw [if_neg (mt htaken.mp (not_not.mpr hfree)), if_pos hfree]
  · rw [if_pos (htaken.mpr hfree), if_neg hfree]

/-- A new object stands at its path. -/
theorem Created.showsTree (h : Created fs fs' dir slot name inum inode claimed) (hform : WellFormed fs)
    (hat : ParentAt fs.disk path name dir) (hfree : NameFree fs.disk dir name) (hshort : name.bytes.length ≤ 26)
    (hshows : ShowsTree fs.disk t) :
    ShowsTree fs'.disk (Function.update t (labels (pathparse path)) (some (nodeAt fs'.disk inum))) := by
  obtain ⟨init, hsplit, hinit⟩ := hat.leads
  have hadds := h.adds
  rw [List.take_of_length_le hshort] at hadds
  rw [hsplit, labels_append]
  exact hshows.addsLeaf hadds hform.exclusive hform.unique hinit hfree fun n hn =>
    nodeAt_of_keepsBut hform hat.reach h.hasSlot h.disk hn (h.inodes n hn)

/-- Nothing stands at the path of an object that was removed. -/
theorem Detached.showsTree {label : List UInt8} (h : Detached fs fs' dir slot label inum) (hform : WellFormed fs)
    (hnames : Names fs.disk path inum) (hleaf : EmptyDir fs.disk inum) (hshows : ShowsTree fs.disk t) :
    ShowsTree fs'.disk (Function.update t (labels (pathparse path)) none) :=
  hshows.removesEdge h.removes hform.exclusive hform.unique h.reach h.edge hleaf hnames fun n hn =>
    nodeAt_of_keepsBut hform h.reach h.hasSlot h.disk hn (h.inodes n hn)

theorem Renamed.showsTree {src dst : CStr} {initLabels : List (List UInt8)} (h : Renamed fs fs' dir slot src dst inum)
    (hform : WellFormed fs) (hinit : (tree fs.disk).Leads 2 initLabels dir) (hshort : dst.bytes.length ≤ 26)
    (hfree : dst = src ∨ NameFree fs.disk dir dst) (hshows : ShowsTree fs.disk t) :
    ShowsTree fs'.disk (t.move (initLabels ++ [src.bytes]) (initLabels ++ [dst.bytes])) := by
  have hafter := h.after
  rw [List.take_of_length_le hshort] at hafter
  exact hshows.relabels ⟨h.relabels, h.reach, h.before, hafter, h.edge⟩ hform.exclusive hform.unique hinit
    (hfree.imp_left (congrArg CStr.bytes)) fun n hn =>
      nodeAt_of_keepsBut hform h.reach (tree_edge_eq_some.mp h.before).1 h.disk hn (h.inodes n hn)

/-- Another inode of an object, with its bytes as they were. -/
theorem Reset.showsTree (h : Reset fs fs' inum inode) (hform : WellFormed fs) (hnames : Names fs.disk path inum)
    (hshows : ShowsTree fs.disk t) {f : Node → Node}
    (hnew : f (nodeAt fs.disk inum) = ⟨setstat inode, (nodeAt fs.disk inum).bytes⟩) :
    ∃ t', t.change (labels (pathparse path)) f = .ok t' ∧ ShowsTree fs'.disk t' := by
  have hblocks : ∀ n, (tree fs.disk).Reach n → ∀ i : Fin numPtrs, i.val < (inodeAt fs.disk n).numBlocks →
      fs'.disk ((inodeAt fs.disk n).ptrs i).toNat = fs.disk ((inodeAt fs.disk n).ptrs i).toNat := by
    intro n hn i hi
    have hcell := tree_cell_eq_some.mpr ⟨hi, rfl⟩
    exact h.disk _ (Graph.Uses.cell hn hcell).inUse (hform.exclusive.cell_ne_node hn hcell h.reach)
  have hnode : nodeAt fs'.disk inum = f (nodeAt fs.disk inum) := by
    rw [hnew, nodeAt, nodeAt, h.new, h.dir]
    cases hmode : S_ISDIR (inodeAt fs.disk inum).mode with
    | true => rw [if_pos rfl, if_pos rfl]
    | false => rw [Inode.contents_congr h.size h.ptrs (hform.fits inum h.reach) (hblocks inum h.reach)]
  refine ⟨Function.update t (labels (pathparse path)) (some (f (nodeAt fs.disk inum))), ?_, ?_⟩
  · rw [Hierarchy.change, lookup_of_leads hform.toWellNamed hshows hnames]
    rfl
  · rw [← hnode]
    exact hshows.alter hform.exclusive hform.unique hnames (fun ls n => h.agrees.leads_root_iff) fun n hn hne =>
      nodeAt_congr (h.inodes hn hne) (hform.fits n hn) fun _ => hblocks n hn

theorem numBlocks_of_nonneg (h : 0 ≤ inode.size.toInt) :
    inode.numBlocks = (inode.size.toInt.toNat + 4095) / 4096 := by
  rw [Inode.numBlocks]
  simp only [fsBlockSize]
  omega

/-- What stands where a file got another size. -/
theorem Resized.nodeAt_eq {time : UInt32} (h : Resized fs fs' inum inode)
    (hstat : setstat inode = { setstat (inodeAt fs.disk inum) with
      size := inode.size.toInt, atime := time, mtime := time, blocks := (inode.size.toInt + 4095) / 4096 })
    (hsize : 0 ≤ inode.size.toInt) :
    nodeAt fs'.disk inum = (nodeAt fs.disk inum).setBytes (inode.contents fs'.disk) time := by
  have hfile : S_ISDIR inode.mode = false := h.mode ▸ h.file
  rw [Node.setBytes, nodeAt, h.new, hfile, if_neg (by decide), Inode.length_contents, Int.toNat_of_nonneg hsize, hstat]
  rfl

/-- Other bytes of a file. -/
theorem Resized.showsTree (h : Resized fs fs' inum inode) (hform : WellFormed fs) (hnames : Names fs.disk path inum)
    (hshows : ShowsTree fs.disk t) {change : Node → Except Errno Node}
    (hchange : change (nodeAt fs.disk inum) = .ok (nodeAt fs'.disk inum)) :
    ∃ t', t.changeFile (labels (pathparse path)) change = .ok t' ∧ ShowsTree fs'.disk t' := by
  refine ⟨Function.update t (labels (pathparse path)) (some (nodeAt fs'.disk inum)), ?_, ?_⟩
  · have hfile : (nodeAt fs.disk inum).isDir = false := h.file
    rw [Hierarchy.changeFile, lookup_of_leads hform.toWellNamed hshows hnames]
    dsimp only [bind, Except.bind]
    rw [hfile, hchange]
    rfl
  · refine hshows.alter hform.exclusive hform.unique hnames (fun ls n => h.changes.leads_iff .root) fun n hn hne => ?_
    refine nodeAt_congr (h.inodes hform.exclusive hn hne) (hform.fits n hn) fun _ i hi => ?_
    have hcell := tree_cell_eq_some.mpr ⟨hi, rfl⟩
    exact h.disk _ (Graph.Uses.cell hn hcell).inUse fun howned =>
      hne (howned.eq_of_cell hform.exclusive h.reach hn hcell)

/-- The bytes of a write. -/
theorem Written.writeNode {buf : List UInt8} {offset : Nat} {time : UInt32}
    (h : Written fs fs' inum buf offset claimed ((inodeAt fs.disk inum).grow claimed (offset + buf.length) time))
    (hoffset : (offset : Int) ≤ (inodeAt fs.disk inum).size.toInt)
    (hblocks : (inodeAt fs.disk inum).numBlocks ≤ (offset + buf.length + 4095) / 4096) :
    Hierarchy.writeNode buf offset time (nodeAt fs.disk inum) = .ok (nodeAt fs'.disk inum) := by
  have hlength : (nodeAt fs.disk inum).bytes.length = (inodeAt fs.disk inum).size.toInt.toNat := by
    rw [bytes_nodeAt h.file, Inode.length_contents]
  have hcount : (inodeAt fs.disk inum).numBlocks = ((inodeAt fs.disk inum).size.toInt.toNat + 4095) / 4096 :=
    numBlocks_of_nonneg (by omega)
  have hsize := h.size
  have hnode : nodeAt fs'.disk inum = _ := @Resized.nodeAt_eq _ _ _ _ time h.toResized rfl (by omega)
  rw [Hierarchy.writeNode, if_neg (by omega), if_neg (by omega), hnode, h.contents hoffset, bytes_nodeAt h.file]

/-- What stands at the paths does not change where no block in use changes. -/
theorem Keeps.showsTree (h : Keeps (fun _ => False) fs fs') (hsound : Sound fs) (hfits : Fits fs.disk)
    (hshows : ShowsTree fs.disk t) : ShowsTree fs'.disk t := by
  obtain ⟨hagrees, hsame⟩ := h.same hsound.exclusive
  refine hshows.congr (fun ls n => hagrees.leads_root_iff) fun n hn => ?_
  exact nodeAt_congr (hsame n hn) (hfits n hn) fun _ i hi =>
    h.disk _ (Graph.Uses.cell hn (tree_cell_eq_some.mpr ⟨hi, rfl⟩)).inUse id

end Commit

end Fs5600
