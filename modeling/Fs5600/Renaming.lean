import Fs5600.Creation

/-! How `fs_rename` ends where no block access fails. It decides block by block: a name that is taken is noticed
only if its entry comes no later than the block of the entry to rename. -/

namespace Fs5600

open Ownership Command

/-! ### The search -/

section Scan

variable {src dst : CStr} {block : Block} {slots : List (Fin direntsPerBlock)}
  {srcEntry : Option (Fin direntsPerBlock)} {dstEntry : Bool}

/-- Where all names end inside their fields, the loop over the entries of a block finds what is there. -/
theorem renameSlots_ok (hends : ∀ slot ∈ slots, (block.dirent slot).valid = true →
      (block.dirent slot).storedName.length < nameLen) :
    ∃ srcEntry' dstEntry', renameSlots src dst block slots srcEntry dstEntry = .ok (srcEntry', dstEntry') ∧
      (srcEntry' = none → srcEntry = none ∧ ∀ slot ∈ slots, (block.dirent slot).valid = true →
        (block.dirent slot).storedName ≠ src.bytes) ∧
      (dstEntry' = true → dstEntry = true ∨ ∃ slot ∈ slots, (block.dirent slot).valid = true ∧
        (block.dirent slot).storedName = dst.bytes ∧ (block.dirent slot).storedName ≠ src.bytes) := by
  induction slots generalizing srcEntry dstEntry with
  | nil => exact ⟨srcEntry, dstEntry, rfl, fun hnone => ⟨hnone, by simp⟩, Or.inl⟩
  | cons slot rest ih =>
      have ih' := fun {srcEntry dstEntry} => @ih srcEntry dstEntry fun s hs => hends s (List.mem_cons_of_mem _ hs)
      unfold renameSlots
      cases hvalid : (block.dirent slot).valid with
      | false =>
          obtain ⟨srcEntry', dstEntry', heq, hsrc, hdst⟩ := @ih' srcEntry dstEntry
          refine ⟨srcEntry', dstEntry', heq, fun hnone => ⟨(hsrc hnone).1, ?_⟩, fun htrue => ?_⟩
          · exact List.forall_mem_cons.mpr ⟨fun h => (by cases hvalid.symm.trans h), (hsrc hnone).2⟩
          · exact (hdst htrue).imp_right (Exists.imp fun s => And.imp_left (List.mem_cons_of_mem _))
      | true =>
          have hlength := hends slot List.mem_cons_self hvalid
          rw [strcmp_of_length hlength, strcmp_of_length hlength]
          by_cases hs : (block.dirent slot).storedName = src.bytes
          · rw [beq_iff_eq.mpr hs]
            obtain ⟨srcEntry', dstEntry', heq, hsrc, hdst⟩ := @ih' (some slot) dstEntry
            refine ⟨srcEntry', dstEntry', heq, fun hnone => ?_, fun htrue => ?_⟩
            · cases (hsrc hnone).1
            · exact (hdst htrue).imp_right (Exists.imp fun s => And.imp_left (List.mem_cons_of_mem _))
          · rw [beq_eq_false_iff_ne.mpr hs]
            by_cases hd : (block.dirent slot).storedName = dst.bytes
            · rw [beq_iff_eq.mpr hd]
              obtain ⟨srcEntry', dstEntry', heq, hsrc, hdst⟩ := @ih' srcEntry true
              refine ⟨srcEntry', dstEntry', heq, fun hnone => ⟨(hsrc hnone).1, ?_⟩,
                fun _ => Or.inr ⟨slot, List.mem_cons_self, hvalid, hd, hs⟩⟩
              exact List.forall_mem_cons.mpr ⟨fun _ => hs, (hsrc hnone).2⟩
            · rw [beq_eq_false_iff_ne.mpr hd]
              obtain ⟨srcEntry', dstEntry', heq, hsrc, hdst⟩ := @ih' srcEntry dstEntry
              refine ⟨srcEntry', dstEntry', heq, fun hnone => ⟨(hsrc hnone).1, ?_⟩,
                fun htrue => ?_⟩
              · exact List.forall_mem_cons.mpr ⟨fun _ => hs, (hsrc hnone).2⟩
              · exact (hdst htrue).imp_right (Exists.imp fun s => And.imp_left (List.mem_cons_of_mem _))

end Scan

/-! ### The loop over the blocks -/

/-- An entry before a block has the new name, which is not the old one. -/
def NamedBefore (disk : Nat → Block) (dir : Nat) (src dst : CStr) (index : Nat) : Prop :=
  dst ≠ src ∧ ∃ slot inum, slot.1.val < index ∧ (tree disk).edge dir slot = some (dst.bytes, inum)

section Loop

variable {env : Env} {fs : Fs} {disk : Nat → Block} {dir inum : Nat} {slot : Slot} {src dst : CStr}

theorem direntAt_of_edge {label : List UInt8} (h : (tree disk).edge dir slot = some (label, inum)) :
    HasSlot disk dir slot ∧ (direntAt disk dir slot).valid = true ∧ (direntAt disk dir slot).storedName = label := by
  obtain ⟨hslot, hentry⟩ := tree_edge_eq_some.mp h
  obtain ⟨hvalid, hname, -⟩ := Dirent.edge_eq_some.mp hentry
  exact ⟨hslot, hvalid, hname⟩

theorem WellNamed.ends (h : WellNamed disk) (hdir : (tree disk).Reach dir) {i : Fin numPtrs}
    (hslots : ∀ s, HasSlot disk dir (i, s)) (s : Fin direntsPerBlock) (_ : s ∈ List.finRange direntsPerBlock)
    (hvalid : ((disk ((inodeAt disk dir).ptrs i).toNat).dirent s).valid = true) :
    ((disk ((inodeAt disk dir).ptrs i).toNat).dirent s).storedName.length < nameLen := by
  have hentry : (disk ((inodeAt disk dir).ptrs i).toNat).dirent s = direntAt disk dir (i, s) := rfl
  rw [hentry] at hvalid ⊢
  exact h.terminated.length_lt hdir (hslots s) hvalid

/-- What one block of the directory adds to what is known of the names. -/
theorem namedBefore_succ_iff (h : WellNamed disk) (hdir : (tree disk).Reach dir) {index : Nat}
    {i : Fin numPtrs} (hi : i.val = index) (hslots : ∀ s, HasSlot disk dir (i, s)) {srcEntry : Option (Fin direntsPerBlock)}
    {dstEntry dstEntry' : Bool} (hflag : dstEntry = true ↔ NamedBefore disk dir src dst index)
    (hscan : renameSlots src dst (disk ((inodeAt disk dir).ptrs i).toNat) (List.finRange direntsPerBlock) none
      dstEntry = .ok (srcEntry, dstEntry')) :
    dstEntry' = true ↔ NamedBefore disk dir src dst (index + 1) := by
  obtain ⟨srcEntry'', dstEntry'', heq, -, hfound⟩ := @renameSlots_ok src dst
    (disk ((inodeAt disk dir).ptrs i).toNat) (List.finRange direntsPerBlock) none dstEntry (h.ends hdir hslots)
  obtain ⟨rfl, rfl⟩ := Prod.mk.inj (Except.ok.inj (heq.symm.trans hscan))
  constructor
  · intro htrue
    rcases hfound htrue with hbefore | ⟨s, -, hvalid, hdst, hsrc⟩
    · obtain ⟨hne, slot, inum, hlt, hedge⟩ := hflag.mp hbefore
      exact ⟨hne, slot, inum, by omega, hedge⟩
    · have hname : (direntAt disk dir (i, s)).storedName = dst.bytes := hdst
      have hedge := hname ▸ edge_of_direntAt (hslots s) hvalid
      exact ⟨fun heq => hsrc (heq ▸ hdst), (i, s), (direntAt disk dir (i, s)).inode.toNat, by simp only; omega, hedge⟩
  · rintro ⟨hne, slot, inum, hlt, hedge⟩
    by_contra hfalse
    obtain ⟨hbefore, hnames⟩ := (scanned_of_renameSlots hscan).target (by simpa using hfalse)
    by_cases hhere : slot.1.val < index
    · exact absurd (hflag.mpr ⟨hne, slot, inum, hhere, hedge⟩) (by simp [hbefore])
    · obtain ⟨j, s⟩ := slot
      obtain rfl : j = i := Fin.ext (by simp only at hlt hhere; omega)
      obtain ⟨-, hvalid, hname⟩ := direntAt_of_edge hedge
      rcases hnames s (List.mem_finRange s) hvalid with hsrc | hdst
      · exact hne (CStr.ext (hname.symm.trans hsrc))
      · exact hdst hname

/-- The loop ends at the block of the entry to rename. -/
theorem does_renameLoop (h : Sound fs) (hnamed : WellNamed fs.disk) (hdir : (tree fs.disk).Reach dir)
    (hedge : (tree fs.disk).edge dir slot = some (src.bytes, inum)) {left index : Nat} {dstEntry : Bool}
    (hbound : index + left = (inodeAt fs.disk dir).dirBlocks) (hindex : index ≤ slot.1.val)
    (hflag : dstEntry = true ↔ NamedBefore fs.disk dir src dst index) :
    (NamedBefore fs.disk dir src dst (slot.1.val + 1) →
        Does env fs (renameLoop src dst (inodeAt fs.disk dir) left index dstEntry) (.error (.errno .EEXIST)) []) ∧
      (¬NamedBefore fs.disk dir src dst (slot.1.val + 1) →
        Does env fs (renameLoop src dst (inodeAt fs.disk dir) left index dstEntry) (.ok 0)
          [.blockWrite ((inodeAt fs.disk dir).ptrs slot.1).toNat
            ((fs.disk ((inodeAt fs.disk dir).ptrs slot.1).toNat).setDirent slot.2
              ((direntAt fs.disk dir slot).rename dst))]) := by
  obtain ⟨⟨hmode, hslot⟩, hvalid, hname⟩ := direntAt_of_edge hedge
  induction left generalizing index dstEntry with
  | zero => exact absurd hslot (by omega)
  | succ left ih =>
      have hlt : index < numPtrs := hindex.trans_lt slot.1.isLt
      have hslots : ∀ s, HasSlot fs.disk dir (⟨index, hlt⟩, s) := fun s => ⟨hmode, show index < _ by omega⟩
      obtain ⟨srcEntry, dstEntry', hscan, hnone, -⟩ := @renameSlots_ok src dst
        (fs.disk ((inodeAt fs.disk dir).ptrs ⟨index, hlt⟩).toNat) (List.finRange direntsPerBlock) none dstEntry
        (hnamed.ends hdir hslots)
      have hflag' := namedBefore_succ_iff hnamed hdir rfl hslots hflag hscan
      have hstep : ∀ {value plan}, Does env fs (match srcEntry, dstEntry' with
            | some _, true => err .EEXIST
            | some s, false => do
                blockWrite ((inodeAt fs.disk dir).ptrs ⟨index, hlt⟩).toNat
                  ((fs.disk ((inodeAt fs.disk dir).ptrs ⟨index, hlt⟩).toNat).setDirent s
                    ((direntAt fs.disk dir (⟨index, hlt⟩, s)).rename dst))
                pure 0
            | none, dstEntry' => renameLoop src dst (inodeAt fs.disk dir) left (index + 1) dstEntry') value plan →
          Does env fs (renameLoop src dst (inodeAt fs.disk dir) (left + 1) index dstEntry) value plan := by
        intro value plan hdoes
        rw [renameLoop, dif_pos hlt]
        apply does_read_bind (reads_blockRead _)
        rw [hscan]
        apply does_read_bind (Follows.lift _)
        rcases srcEntry with _ | s <;> cases dstEntry' <;> exact hdoes
      rcases srcEntry with _ | s
      · -- the entry to rename is in a later block
        have hlater : index ≠ slot.1.val := by
          rintro rfl
          exact (hnone rfl).2 slot.2 (List.mem_finRange _) hvalid hname
        obtain ⟨htaken, hfree⟩ := @ih (index + 1) dstEntry' (by omega) (by omega) hflag'
        exact ⟨fun hbefore => hstep (htaken hbefore), fun hbefore => hstep (hfree hbefore)⟩
      · obtain hcontra | ⟨s', -, hs', hvalid', hname'⟩ := (scanned_of_renameSlots hscan).source
        · cases hcontra
        obtain rfl := Option.some.inj hs'
        have hnew : (direntAt fs.disk dir (⟨index, hlt⟩, s)).storedName = src.bytes := hname'
        have hedge' := edge_of_direntAt (hslots s) hvalid'
        rw [hnew] at hedge'
        obtain rfl := hnamed.unique _ _ _ _ _ _ hdir hedge' hedge
        have hwritable := h.writable (Graph.Uses.cell hdir (hslots s).cell).inUse
        refine ⟨fun hbefore => hstep ?_, fun hbefore => hstep ?_⟩
        · rw [hflag'.mpr hbefore]
          exact Follows.stop _
        · rw [Bool.eq_false_iff.mpr (mt hflag'.mp hbefore)]
          exact does_bind_read (does_blockWrite hwritable _) (Follows.pure 0)

end Loop

/-! ### The request -/

section Request

variable {env : Env} {fs fs' : Fs} {srcPath dstPath src dst : CStr} {dir inum : Nat} {slot : Slot}

theorem ParentAt.leads_of_edge {disk : Nat → Block} {path name : CStr} (h : ParentAt disk path name dir)
    (hedge : (tree disk).edge dir slot = some (name.bytes, inum)) :
    (tree disk).Leads 2 (labels (pathparse path)) inum := by
  obtain ⟨init, hsplit, hleads⟩ := h.leads
  rw [hsplit, labels, List.map_append]
  exact Graph.leads_snoc.mpr ⟨dir, slot, hleads, hedge⟩

theorem ParentAt.edge_of_leads {disk : Nat → Block} {path name : CStr} (h : ParentAt disk path name dir)
    (huniq : (tree disk).UniqueLabels) (hleads : (tree disk).Leads 2 (labels (pathparse path)) inum) :
    ∃ slot, (tree disk).edge dir slot = some (name.bytes, inum) := by
  obtain ⟨init, hsplit, hinit⟩ := h.leads
  rw [hsplit, labels, List.map_append] at hleads
  obtain ⟨dir', slot, hinit', hedge⟩ := Graph.leads_snoc.mp hleads
  obtain rfl := huniq.leads_unique .root hinit' hinit
  exact ⟨slot, hedge⟩

/-- What `fs_rename` does where both paths have the same parent directory and the source exists. -/
theorem does_fsRename (h : WellFormed fs) (hlimits : Roomy env.limits) (hsrcPlain : Plain srcPath)
    (hdstPlain : Plain dstPath) (hsrc : ParentAt fs.disk srcPath src dir) (hdst : ParentAt fs.disk dstPath dst dir)
    (hedge : (tree fs.disk).edge dir slot = some (src.bytes, inum)) :
    (NamedBefore fs.disk dir src dst (slot.1.val + 1) →
        Does env fs (fsRename srcPath dstPath) (.error (.errno .EEXIST)) []) ∧
      (¬NamedBefore fs.disk dir src dst (slot.1.val + 1) →
        Does env fs (fsRename srcPath dstPath) (.ok 0)
          [.blockWrite ((inodeAt fs.disk dir).ptrs slot.1).toNat
            ((fs.disk ((inodeAt fs.disk dir).ptrs slot.1).toNat).setDirent slot.2
              ((direntAt fs.disk dir slot).rename dst))]) := by
  have hread : ∀ {path inum}, translateIn env.limits fs.disk path = .ok (inum, inodeAt fs.disk inum) →
      Reads env fs (mapStop toENOENT (translate path)) (.ok (inum, inodeAt fs.disk inum)) := by
    intro path inum htranslate
    have hread : Reads env fs (mapStop toENOENT (translate path)) _ :=
      reads_mapStop toENOENT_ne_fault (reads_translate path)
    rwa [htranslate] at hread
  have htranslate : translateIn env.limits fs.disk srcPath = .ok (inum, inodeAt fs.disk inum) :=
    (hsrcPlain.translateIn_eq_ok_iff hlimits h.toWellNamed).mpr ⟨hsrc.leads_of_edge hedge, rfl⟩
  obtain ⟨initSrc, hsrcSplit, hsrcLeads⟩ := hsrc.leads
  obtain ⟨initDst, hdstSplit, hdstLeads⟩ := hdst.leads
  obtain ⟨hsrcJoin, hsrcWalk⟩ := hsrcPlain.translateIn_parent hlimits h.toWellNamed hsrcSplit hsrcLeads
  obtain ⟨hdstJoin, hdstWalk⟩ := hdstPlain.translateIn_parent hlimits h.toWellNamed hdstSplit hdstLeads
  have hlast : ∀ {init : List CStr} {name : CStr}, Reads env fs (lastComponent (init ++ [name])) (.ok name) := by
    intro init name
    have hlast : lastComponentIn (init ++ [name]) = .ok name := by
      rw [lastComponentIn, List.getLast?_concat]
    exact hlast ▸ reads_lastComponent _
  have hloop : ∀ {value plan},
      Does env fs (renameLoop src dst (inodeAt fs.disk dir) (inodeAt fs.disk dir).dirBlocks 0 false) value plan →
        Does env fs (fsRename srcPath dstPath) value plan := by
    intro value plan hdoes
    rw [fsRename, hsrcPlain.resolvePath, hdstPlain.resolvePath, hsrcSplit, hdstSplit]
    refine does_read_bind (hread htranslate) (does_read_bind hlast (does_read_bind hlast ?_))
    refine does_read_bind (hsrcJoin ▸ reads_parentPath _) (does_read_bind (hdstJoin ▸ reads_parentPath _) ?_)
    refine does_read_bind (hread hsrcWalk) (does_read_bind (hread hdstWalk) ?_)
    dsimp only
    rw [if_neg (not_ne_iff.mpr rfl), if_neg (by simp [hsrc.mode])]
    exact hdoes
  have hnone : false = true ↔ NamedBefore fs.disk dir src dst 0 := by
    apply iff_of_false (by decide)
    rintro ⟨-, s, m, hlt, -⟩
    exact Nat.not_lt_zero _ hlt
  obtain ⟨htaken, hfree⟩ := does_renameLoop h.toSound h.toWellNamed hsrc.reach hedge (Nat.zero_add _)
    (Nat.zero_le _) hnone
  exact ⟨fun hbefore => hloop (htaken hbefore), fun hbefore => hloop (hfree hbefore)⟩

/-! ### The tree after a renaming -/

theorem Renamed.parentAt (h : Renamed fs fs' dir slot src dst inum) (hex : (tree fs.disk).Exclusive)
    {path name : CStr} (hat : ParentAt fs.disk path name dir) : ParentAt fs'.disk path name dir := by
  obtain ⟨init, hsplit, hleads⟩ := hat.leads
  refine ⟨⟨init, hsplit, ?_⟩, by rw [h.inodes dir h.reach, hat.mode]⟩
  refine (hex.leads_iff_of_edge h.relabels.root (fun n hn hne => funext fun s => ?_) hleads).mpr hleads
  exact h.edge n s hn fun hhere => hne hhere.1

theorem Renamed.terminated (h : Renamed fs fs' dir slot src dst inum) (hterm : Terminated fs.disk) :
    Terminated fs'.disk := by
  intro n s l m hn he
  have hn' := h.relabels.reach_iff.mp hn
  by_cases hhere : n = dir ∧ s = slot
  · obtain ⟨rfl, rfl⟩ := hhere
    obtain ⟨rfl, -⟩ := Prod.mk.inj (Option.some.inj (h.after.symm.trans he))
    rw [List.length_take]
    exact (Nat.min_le_left _ _).trans_lt (by decide)
  · rw [h.edge n s hn' hhere] at he
    exact hterm n s l m hn' he

theorem Renamed.wellNamed (h : Renamed fs fs' dir slot src dst inum) (hnamed : WellNamed fs.disk)
    (hfree : dst = src ∨ NameFree fs.disk dir dst) (hshort : dst.bytes.length ≤ 26) : WellNamed fs'.disk where
  fits n hn := by
    have hn' := h.relabels.reach_iff.mp hn
    rw [h.inodes n hn']
    exact hnamed.fits n hn'
  unique := by
    refine h.relabels.uniqueLabels hnamed.unique h.after h.edge fun s m hne hedge => ?_
    rw [List.take_of_length_le hshort] at hedge
    rcases hfree with rfl | hfree
    · exact hne (hnamed.unique _ _ _ _ _ _ h.reach hedge h.before)
    · exact hfree s m hedge
  terminated := h.terminated hnamed.terminated

/-- The new path leads to the object. -/
theorem Renamed.found (h : Renamed fs fs' dir slot src dst inum) (hex : (tree fs.disk).Exclusive)
    (hnamed' : WellNamed fs'.disk) {limits : Limits} (hlimits : Roomy limits) (hdstPlain : Plain dstPath)
    (hdst : ParentAt fs.disk dstPath dst dir) (hshort : dst.bytes.length ≤ 26) :
    translateIn limits fs'.disk dstPath = .ok (inum, inodeAt fs.disk inum) := by
  have hafter := h.after
  rw [List.take_of_length_le hshort] at hafter
  refine (hdstPlain.translateIn_eq_ok_iff hlimits hnamed').mpr ⟨(h.parentAt hex hdst).leads_of_edge hafter, ?_⟩
  exact (h.inodes inum (h.reach.step h.before)).symm

/-- A path whose name no entry of the parent has leads nowhere. -/
theorem Renamed.not_found (h : Renamed fs fs' dir slot src dst inum) (hex : (tree fs.disk).Exclusive)
    (huniq : (tree fs.disk).UniqueLabels) {path name : CStr} (hpath : Plain path) (hat : ParentAt fs.disk path name dir)
    (hne : dst.bytes.take 26 ≠ name.bytes)
    (hnone : ∀ s m, s ≠ slot → (tree fs.disk).edge dir s ≠ some (name.bytes, m)) (limits : Limits)
    (found : Nat × Inode) : translateIn limits fs'.disk path ≠ .ok found := by
  intro hfound
  obtain ⟨m, inode⟩ := found
  have hleads := leads_of_descend (translateIn_eq_ok hpath.names hfound).1
  obtain ⟨init, hsplit, hinit⟩ := hat.leads
  rw [hsplit, labels, List.map_append] at hleads
  obtain ⟨dir', s, hinit', hedge⟩ := Graph.leads_snoc.mp hleads
  -- the names of the parent lead where they led
  have hsame : (tree fs.disk).Leads 2 (labels init) dir' := (hex.leads_iff_of_edge h.relabels.root
    (fun n hn hne => funext fun s => h.edge n s hn fun hhere => hne hhere.1) hinit).mp hinit'
  obtain rfl := huniq.leads_unique .root hsame hinit
  by_cases hs : s = slot
  · subst hs
    exact hne (Prod.mk.inj (Option.some.inj (h.after.symm.trans hedge))).1
  · rw [h.edge dir' s h.reach fun hhere => hs hhere.2] at hedge
    exact hnone s m hs hedge

/-- `fs_rename` where no entry up to the one to rename has the new name. -/
theorem renamed_of_run (h : WellFormed fs) (hlimits : Roomy env.limits) (hquiet : env.Quiet)
    (hsrcPlain : Plain srcPath) (hdstPlain : Plain dstPath) (hsrc : ParentAt fs.disk srcPath src dir)
    (hdst : ParentAt fs.disk dstPath dst dir) (hedge : (tree fs.disk).edge dir slot = some (src.bytes, inum))
    (hbefore : ¬NamedBefore fs.disk dir src dst (slot.1.val + 1)) :
    (Op.run (.rename srcPath dstPath) env fs).1 = .ok 0 ∧
      Renamed fs (Op.run (.rename srcPath dstPath) env fs).2.fs dir slot src dst inum ∧
      ∀ b, b ≠ ((inodeAt fs.disk dir).ptrs slot.1).toNat →
        (Op.run (.rename srcPath dstPath) env fs).2.fs.disk b = fs.disk b := by
  obtain ⟨hvalue, hfs⟩ := run_of_does ((does_fsRename h hlimits hsrcPlain hdstPlain hsrc hdst hedge).2 hbefore) hquiet
  obtain ⟨hslot, hvalid, hname⟩ := direntAt_of_edge hedge
  have hrenamed : Renamed fs (fs.replay _) dir slot src dst _ :=
    renamed_of_entry h.toSound hsrc.reach hslot hvalid hname
  have hinum := (Prod.mk.inj (Option.some.inj (hrenamed.before.symm.trans hedge))).2
  rw [hinum, ← hfs] at hrenamed
  refine ⟨hvalue, hrenamed, fun b hb => ?_⟩
  have hdisk := congrArg (fun state : Fs => state.disk b) hfs
  exact hdisk.trans (Function.update_of_ne hb _ _)

end Request

/-! ### One renaming -/

/-- Two paths with the same parent directory, of which the first leads to an object. -/
structure RenameAt (env : Env) (fs : Fs) (srcPath dstPath src dst : CStr) (dir inum : Nat) : Prop where
  src : ParentAt fs.disk srcPath src dir
  dst : ParentAt fs.disk dstPath dst dir
  found : (translate srcPath env (.start fs)).1 = .ok (inum, inodeAt fs.disk inum)

/-- The object has its new name and not the old one, and nothing else has changed. -/
structure Moved (env : Env) (fs fs' : Fs) (srcPath dstPath src dst : CStr) (dir inum : Nat) : Prop where
  found : (translate dstPath env (.start fs')).1 = .ok (inum, inodeAt fs.disk inum)
  gone : dst ≠ src → ∀ found, (translate srcPath env (.start fs')).1 ≠ .ok found
  others : ∃ slot, (tree fs.disk).edge dir slot = some (src.bytes, inum) ∧
    (∀ slot', slot' ≠ slot → (tree fs'.disk).edge dir slot' = (tree fs.disk).edge dir slot') ∧
    ∀ b, b ≠ ((inodeAt fs.disk dir).ptrs slot.1).toNat → fs'.disk b = fs.disk b
  bitmap : fs'.bitmap = fs.bitmap

/-- A renaming to a name that is taken is refused; any other one moves the object. -/
structure Renames (env : Env) (fs : Fs) (srcPath dstPath src dst : CStr) (dir inum : Nat) : Prop where
  taken : dst ≠ src → ¬NameFree fs.disk dir dst →
    (Op.run (.rename srcPath dstPath) env fs).1 = .error (.errno .EEXIST) ∧
      (Op.run (.rename srcPath dstPath) env fs).2.fs = fs
  moved : dst = src ∨ NameFree fs.disk dir dst → (Op.run (.rename srcPath dstPath) env fs).1 = .ok 0 ∧
    Moved env fs (Op.run (.rename srcPath dstPath) env fs).2.fs srcPath dstPath src dst dir inum

/-- The new name is another one, and its entry is in a later block than the entry to rename. -/
def TakenLater (disk : Nat → Block) (dir : Nat) (src dst : CStr) : Prop :=
  dst ≠ src ∧ ∃ slot slot' inum inum', (tree disk).edge dir slot = some (src.bytes, inum) ∧
    (tree disk).edge dir slot' = some (dst.bytes, inum') ∧ slot.1 < slot'.1

section OneRename

variable {env : Env} {fs : Fs} {srcPath dstPath src dst : CStr} {dir inum : Nat}

theorem RenameAt.edge (hat : RenameAt env fs srcPath dstPath src dst dir inum) (h : WellFormed fs)
    (hlimits : Roomy env.limits) (hquiet : env.Quiet) (hsrcPlain : Plain srcPath) :
    ∃ slot, (tree fs.disk).edge dir slot = some (src.bytes, inum) := by
  have hfound := hat.found
  rw [translate_value hquiet, hsrcPlain.translateIn_eq_ok_iff hlimits h.toWellNamed] at hfound
  exact hat.src.edge_of_leads h.unique hfound.1

/-- `fs_rename` does what it should exactly where the new name is not taken by an entry in a later block. -/
theorem renames_iff (h : WellFormed fs) (hlimits : Roomy env.limits) (hquiet : env.Quiet) (hsrcPlain : Plain srcPath)
    (hdstPlain : Plain dstPath) (hshort : ShortName dstPath) (hat : RenameAt env fs srcPath dstPath src dst dir inum) :
    Renames env fs srcPath dstPath src dst dir inum ↔ ¬TakenLater fs.disk dir src dst := by
  obtain ⟨slot, hedge⟩ := hat.edge h hlimits hquiet hsrcPlain
  have hle : dst.bytes.length ≤ 26 := hshort.length_le hdstPlain hat.dst
  by_cases hbefore : NamedBefore fs.disk dir src dst (slot.1.val + 1)
  · have htaken := (does_fsRename h hlimits hsrcPlain hdstPlain hat.src hat.dst hedge).1 hbefore
    obtain ⟨hvalue, hfs⟩ := run_of_does htaken hquiet
    obtain ⟨hne, slot', inum', hlt, hedge'⟩ := hbefore
    have hnot : ¬(dst = src ∨ NameFree fs.disk dir dst) :=
      not_or.mpr ⟨hne, fun hfree => hfree slot' inum' hedge'⟩
    refine iff_of_true ⟨fun _ _ => ⟨hvalue, hfs⟩, fun hfree => absurd hfree hnot⟩ ?_
    rintro ⟨-, s, s', m, m', hs, hs', hlater⟩
    obtain rfl := h.unique _ _ _ _ _ _ hat.src.reach hs hedge
    obtain rfl := h.unique _ _ _ _ _ _ hat.src.reach hs' hedge'
    have hlater' : s.1.val < s'.1.val := hlater
    omega
  · obtain ⟨hvalue, hrenamed, hdisk⟩ := renamed_of_run h hlimits hquiet hsrcPlain hdstPlain hat.src hat.dst hedge hbefore
    constructor
    · rintro hrenames ⟨hne, s, s', m, m', hs, hs', hlater⟩
      cases hvalue.symm.trans (hrenames.taken hne fun hfree => hfree s' m' hs').1
    · intro hnot
      refine ⟨fun hne hname => ?_, fun hfree => ⟨hvalue, ?_⟩⟩
      · -- an entry of the new name would be in a later block
        refine absurd (fun slot' inum' hedge' => ?_) hname
        by_cases hlt : slot'.1.val < slot.1.val + 1
        · exact hbefore ⟨hne, slot', inum', hlt, hedge'⟩
        · exact hnot ⟨hne, slot, slot', inum, inum', hedge, hedge', show slot.1.val < slot'.1.val by omega⟩
      · have hnamed' := hrenamed.wellNamed h.toWellNamed hfree hle
        refine ⟨?_, fun hne found => ?_, ⟨slot, hedge, fun s hs => ?_, hdisk⟩, hrenamed.bitmap⟩
        · rw [translate_value hquiet]
          exact hrenamed.found h.exclusive hnamed' hlimits hdstPlain hat.dst hle
        · rw [translate_value hquiet]
          refine hrenamed.not_found h.exclusive h.unique hsrcPlain hat.src ?_ (fun s m hs hedge' => ?_) _ found
          · rw [List.take_of_length_le hle]
            exact fun heq => hne (CStr.ext heq)
          · exact hs (h.unique _ _ _ _ _ _ hat.src.reach hedge' hedge)
        · exact hrenamed.edge dir s hat.src.reach fun hhere => hs hhere.2

end OneRename

/-- Renaming the file `f` of the sample disk to `g` moves it. -/
theorem renames_iff_sampleImage :
    Renames (quietEnv 0) sampleImage (joinPath [nameF]) (joinPath [nameG]) nameF nameG 2 4 := by
  have hmode : S_ISDIR (inodeAt sampleImage.disk 2).mode = true := by decide +kernel
  refine (renames_iff wellFormed_sampleImage (roomy_quietEnv 0) (quiet_quietEnv 0) plain_nameF plain_nameG
    shortName_nameG ⟨⟨⟨[], pathparse_nameF, rfl⟩, hmode⟩, ⟨⟨[], pathparse_joinPath (by decide), rfl⟩, hmode⟩,
      translate_sampleImage⟩).mpr ?_
  rintro ⟨-, slot, slot', n, m, -, hedge, hlater⟩
  have hslot := (tree_edge_eq_some.mp hedge).1.2
  have hone : (inodeAt sampleImage.disk 2).dirBlocks = 1 := by decide +kernel
  have hlt : slot.1.val < slot'.1.val := hlater
  omega

/-- A disk whose root directory has two blocks, with a file `f` in the first and a file `g` in the second. -/
def twoBlockDirImage : Fs :=
  imageOf 16 [2, 3, 4, 5, 6]
    [(2, (inodeOf (S_IFDIR ||| 0o777) 8192 [3, 5]).toBlock), (3, entriesOf [(nameF, 4)]), (5, entriesOf [(nameG, 6)]),
      (4, (inodeOf (S_IFREG ||| 0o666) 0 []).toBlock), (6, (inodeOf (S_IFREG ||| 0o666) 0 []).toBlock)]

/-- Not every renaming is right: `f` gets the name `g` that the second block of the directory has. -/
theorem renames_false :
    ¬∀ env fs srcPath dstPath src dst dir inum, env.Quiet → Mounted fs → WellFormed fs → Plain srcPath →
      Plain dstPath → ShortName dstPath → RenameAt env fs srcPath dstPath src dst dir inum →
        Renames env fs srcPath dstPath src dst dir inum := by
  intro h
  have hform : WellFormed twoBlockDirImage := wellFormed_of_check (by decide +kernel)
  have hmode : S_ISDIR (inodeAt twoBlockDirImage.disk 2).mode = true := by decide +kernel
  have hrenames := h (quietEnv 0) twoBlockDirImage (joinPath [nameF]) (joinPath [nameG]) nameF nameG 2 4
    (quiet_quietEnv 0) (mounted_of_disk (by decide) (by decide) rfl) hform plain_nameF plain_nameG shortName_nameG
    ⟨⟨⟨[], pathparse_nameF, rfl⟩, hmode⟩, ⟨⟨[], pathparse_joinPath (by decide), rfl⟩, hmode⟩,
      translate_of_descend (quiet_quietEnv 0) plain_nameF (roomy_quietEnv 0)
        (by rw [pathparse_nameF]; decide +kernel)⟩
  have hedge : (tree twoBlockDirImage.disk).edge 2 (1, 0) = some (nameG.bytes, 6) := by decide +kernel
  have heval : (Op.run (.rename (joinPath [nameF]) (joinPath [nameG])) (quietEnv 0) twoBlockDirImage).1 = .ok 0 := by
    decide +kernel
  cases heval.symm.trans (hrenames.taken (by decide) fun hfree => hfree (1, 0) 6 hedge).1

end Fs5600
