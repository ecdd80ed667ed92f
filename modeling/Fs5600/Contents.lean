import Fs5600.Settled

/-! Contents of files. A file system holds a map from paths to byte strings; every request on files does to
this map what it is meant to do, and `fs_getattr` and `fs_read` report what the map holds. -/

namespace Fs5600

open Ownership Command Run

/-! ### Reading -/

def Inode.contents (inode : Inode) (disk : Nat → Block) : List UInt8 :=
  (List.range inode.size.toInt.toNat).map (inode.fileByte disk)

section Reading

variable {inode inode' : Inode} {disk disk' : Nat → Block}

@[simp]
theorem Inode.length_contents (inode : Inode) (disk : Nat → Block) :
    (inode.contents disk).length = inode.size.toInt.toNat := by
  rw [Inode.contents, List.length_map, List.length_range]

/-- The part of a block that one turn of `fs_read` copies. -/
theorem slice_eq_map (inode : Inode) (disk : Nat → Block) {x count : Nat}
    (hcount : x % fsBlockSize + count ≤ fsBlockSize) :
    (disk (inode.block (x / fsBlockSize))).slice (x % fsBlockSize) count =
      (List.range count).map fun i => inode.fileByte disk (x + i) := by
  refine List.map_congr_left fun i hi => ?_
  have hlt := List.mem_range.mp hi
  simp only [fsBlockSize] at hcount ⊢
  have hquot : (x + i) / 4096 = x / 4096 := by omega
  have hrem : (x + i) % 4096 = x % 4096 + i := by omega
  rw [Inode.fileByte, fsBlockSize, hquot, hrem]

/-- The loop of `fs_read` delivers the bytes from where it stands to the end of the range. -/
theorem readLoopIn_eq {offset len : Nat} (hfits : inode.numBlocks ≤ numPtrs)
    (hlen : offset + len ≤ inode.size.toInt.toNat) {turns bytesRead : Nat} (hturns : len ≤ bytesRead + turns) :
    readLoopIn inode disk offset len turns bytesRead =
      .ok ((List.range (len - bytesRead)).map fun i => inode.fileByte disk (offset + bytesRead + i)) := by
  induction turns generalizing bytesRead with
  | zero =>
      rw [readLoopIn, Nat.sub_eq_zero_of_le (by omega)]
      rfl
  | succ turns ih =>
      unfold readLoopIn
      split
      · rename_i hlt
        have hindex : (offset + bytesRead) / fsBlockSize < numPtrs := by
          refine lt_of_lt_of_le ?_ hfits
          unfold Inode.numBlocks
          simp only [fsBlockSize]
          omega
        set count := min (fsBlockSize - (offset + bytesRead) % fsBlockSize) (len - bytesRead) with hcount
        have hpos : 0 < count ∧ count ≤ len - bytesRead ∧ (offset + bytesRead) % fsBlockSize + count ≤ fsBlockSize := by
          simp only [hcount, fsBlockSize]
          omega
        rw [inode.ptr_eq_ok hindex]
        dsimp only [bind, Except.bind]
        rw [ih (by omega), slice_eq_map inode disk hpos.2.2]
        have hsplit : len - bytesRead = count + (len - (bytesRead + count)) := by omega
        conv_rhs => rw [hsplit, List.range_add, List.map_append, List.map_map]
        refine congrArg (fun rest => Except.ok (_ ++ rest)) (List.map_congr_left fun i _ => ?_)
        simp only [Function.comp_apply]
        congr 1
        omega
      · rw [Nat.sub_eq_zero_of_le (by omega)]
        rfl

/-- `fs_read` delivers the bytes of the range that are in the file. -/
theorem readIn_eq {len offset : Nat} (hreg : S_ISREG inode.mode = true) (hfits : inode.numBlocks ≤ numPtrs)
    (hrange : offset + len < 2 ^ 64) :
    readIn inode disk len offset = .ok (((inode.contents disk).drop offset).take len) := by
  rw [readIn, if_neg (by simp [hreg]), Nat.mod_eq_of_lt hrange]
  split
  · rename_i hend
    rw [List.drop_of_length_le (by rw [Inode.length_contents]; omega), List.take_nil]
  · rename_i hinside
    dsimp only
    set size := inode.size.toInt.toNat with hsize
    set count := if size < offset + len then size - offset else len with hcount
    have hbound : offset + count ≤ size ∧ count = min len (size - offset) := by
      rw [hcount]
      split <;> omega
    rw [readLoopIn_eq hfits hbound.1 (by omega)]
    refine congrArg Except.ok (List.ext_getElem ?_ fun i hi hi' => ?_)
    · simp only [List.length_map, List.length_range, List.length_take, List.length_drop, Inode.length_contents]
      omega
    · simp only [List.getElem_map, List.getElem_range, List.getElem_take, List.getElem_drop, Inode.contents, Nat.add_zero]

/-- The bytes of a file depend on the size and the pointers of its inode, and on its data blocks. -/
theorem Inode.contents_congr (hsize : inode'.size = inode.size) (hptrs : inode'.ptrs = inode.ptrs)
    (hfits : inode.numBlocks ≤ numPtrs)
    (hblocks : ∀ i : Fin numPtrs, i.val < inode.numBlocks →
      disk' (inode.ptrs i).toNat = disk (inode.ptrs i).toNat) : inode'.contents disk' = inode.contents disk := by
  rw [Inode.contents, Inode.contents, hsize]
  refine List.map_congr_left fun x hx => ?_
  have hlt := List.mem_range.mp hx
  have hindex : x / fsBlockSize < inode.numBlocks := by
    unfold Inode.numBlocks
    simp only [fsBlockSize]
    omega
  have hin : x / fsBlockSize < numPtrs := hindex.trans_le hfits
  rw [Inode.fileByte, Inode.fileByte, Inode.block, Inode.block, dif_pos hin, dif_pos hin, hptrs,
    hblocks ⟨_, hin⟩ hindex]

end Reading

/-! ### The map -/

/-- Byte strings by the names on a path. -/
abbrev FileMap := List (List UInt8) → Option (List UInt8)

/-- A byte string with bytes overwritten from an offset on. -/
def splice (buf : List UInt8) (offset : Nat) (s : List UInt8) : List UInt8 :=
  s.take offset ++ buf ++ s.drop (offset + buf.length)

/-- The byte string at a path is changed. -/
def FileMap.change (map : FileMap) (path : CStr) (f : List UInt8 → List UInt8) : FileMap :=
  Function.update map (labels (pathparse path)) ((map (labels (pathparse path))).map f)

/-- What a successful request is meant to do to the map. -/
def Op.effect : Op → FileMap → FileMap
  | .create path _, map => Function.update map (labels (pathparse path)) (some [])
  | .unlink path, map => Function.update map (labels (pathparse path)) none
  | .truncate path _, map => map.change path fun _ => []
  | .write path buf offset, map => map.change path (splice buf offset)
  | _, map => map

/-- The map after a request: a request that fails leaves it. -/
def Request.onMap (request : Request) (map : FileMap) : FileMap :=
  match request.value with
  | .ok _ => request.op.effect map
  | .error _ => map

/-- The map holds the bytes of the regular files, and nothing else. -/
structure HoldsFiles (disk : Nat → Block) (map : FileMap) : Prop where
  file : ∀ ls inum, (tree disk).Leads 2 ls inum → S_ISREG (inodeAt disk inum).mode = true →
    map ls = some ((inodeAt disk inum).contents disk)
  only : ∀ ls s, map ls = some s → ∃ inum, (tree disk).Leads 2 ls inum ∧ S_ISREG (inodeAt disk inum).mode = true

/-- An object keeps its type and, if it is a regular file, its bytes. -/
def SameAt (disk disk' : Nat → Block) (inum : Nat) : Prop :=
  S_ISREG (inodeAt disk' inum).mode = S_ISREG (inodeAt disk inum).mode ∧
    (S_ISREG (inodeAt disk inum).mode = true →
      (inodeAt disk' inum).contents disk' = (inodeAt disk inum).contents disk)

section Map

variable {disk disk' : Nat → Block} {map : FileMap}

theorem SameAt.of_inode {inum : Nat} (hinode : inodeAt disk' inum = inodeAt disk inum)
    (hfits : (inodeAt disk inum).numBlocks ≤ numPtrs)
    (hblocks : S_ISREG (inodeAt disk inum).mode = true → ∀ i : Fin numPtrs, i.val < (inodeAt disk inum).numBlocks →
      disk' ((inodeAt disk inum).ptrs i).toNat = disk ((inodeAt disk inum).ptrs i).toNat) :
    SameAt disk disk' inum := by
  refine ⟨by rw [hinode], fun hreg => ?_⟩
  rw [hinode]
  exact Inode.contents_congr rfl rfl hfits (hblocks hreg)

theorem HoldsFiles.same (h : HoldsFiles disk map)
    (hleads : ∀ ls inum, (tree disk').Leads 2 ls inum ↔ (tree disk).Leads 2 ls inum)
    (hsame : ∀ inum, (tree disk).Reach inum → SameAt disk disk' inum) : HoldsFiles disk' map where
  file ls inum hl hreg := by
    have hold := (hleads ls inum).mp hl
    obtain ⟨htype, hcontents⟩ := hsame inum (hold.reach .root)
    rw [htype] at hreg
    rw [hcontents hreg, h.file ls inum hold hreg]
  only ls s hs := by
    obtain ⟨inum, hold, hreg⟩ := h.only ls s hs
    exact ⟨inum, (hleads ls inum).mpr hold, (hsame inum (hold.reach .root)).1 ▸ hreg⟩

/-- The bytes of one file change. -/
theorem HoldsFiles.change (h : HoldsFiles disk map) (hex : (tree disk).Exclusive)
    (huniq : (tree disk).UniqueLabels) {path : CStr} {inum : Nat} {f : List UInt8 → List UInt8}
    (hnames : Names disk path inum)
    (hleads : ∀ ls n, (tree disk').Leads 2 ls n ↔ (tree disk).Leads 2 ls n)
    (hsame : ∀ n, (tree disk).Reach n → n ≠ inum → SameAt disk disk' n)
    (htype : S_ISREG (inodeAt disk' inum).mode = S_ISREG (inodeAt disk inum).mode)
    (hnew : (inodeAt disk' inum).contents disk' = f ((inodeAt disk inum).contents disk)) :
    HoldsFiles disk' (map.change path f) where
  file ls n hl hreg := by
    have hold := (hleads ls n).mp hl
    by_cases heq : ls = labels (pathparse path)
    · subst heq
      obtain rfl := huniq.leads_unique .root hold hnames
      rw [htype] at hreg
      rw [FileMap.change, Function.update_self, h.file _ n hold hreg, hnew, Option.map_some]
    · have hne : n ≠ inum := by
        rintro rfl
        exact heq (hex.leads_injective hold hnames)
      obtain ⟨htype', hcontents⟩ := hsame n (hold.reach .root) hne
      rw [htype'] at hreg
      rw [FileMap.change, Function.update_of_ne heq, h.file ls n hold hreg, hcontents hreg]
  only ls s hs := by
    by_cases heq : ls = labels (pathparse path)
    · subst heq
      rw [FileMap.change, Function.update_self, Option.map_eq_some_iff] at hs
      obtain ⟨s', hs', -⟩ := hs
      obtain ⟨n, hold, hreg⟩ := h.only _ s' hs'
      obtain rfl := huniq.leads_unique .root hold hnames
      exact ⟨n, (hleads _ n).mpr hold, htype.trans hreg⟩
    · rw [FileMap.change, Function.update_of_ne heq] at hs
      obtain ⟨n, hold, hreg⟩ := h.only ls s hs
      have hne : n ≠ inum := by
        rintro rfl
        exact heq (hex.leads_injective hold hnames)
      exact ⟨n, (hleads ls n).mpr hold, (hsame n (hold.reach .root) hne).1.trans hreg⟩

end Map

/-! ### What the write that takes effect does to the map -/

section Commit

variable {env : Env} {fs fs' : Fs} {dir inum : Nat} {slot : Slot} {path name : CStr} {inode : Inode}
  {claimed : List Nat} {map : FileMap}

theorem Created.holds (h : Created fs fs' dir slot name inum inode claimed) (hform : WellFormed fs)
    (hpath : Plain path) (hat : CreateAt env.limits fs path name dir) (hshort : ShortName path)
    (hreg : S_ISREG inode.mode = true) (hempty : inode.size.toInt.toNat = 0) (hholds : HoldsFiles fs.disk map) :
    HoldsFiles fs'.disk (Function.update map (labels (pathparse path)) (some [])) := by
  have hparent := hat.parentAt hpath hform.exclusive h.hasSlot
  have hnames : (tree fs'.disk).Leads 2 (labels (pathparse path)) inum := h.names hpath hparent hshort
  have hsame : ∀ n, (tree fs.disk).Reach n → SameAt fs.disk fs'.disk n := fun n hn =>
    .of_inode (h.inodes n hn) (hform.fits n hn) fun hreg =>
      data_of_keepsBut hform.exclusive hat.reach h.hasSlot h.disk hn hreg
  have hne : ∀ ls n, (tree fs.disk).Leads 2 ls n → ls ≠ labels (pathparse path) := by
    rintro ls n hold rfl
    obtain ⟨s, hedge⟩ := hparent.edge_of_leads hform.unique hold
    exact edge_ne_of_search hat.search s n hedge
  refine ⟨fun ls n hl hreg' => ?_, fun ls s hs => ?_⟩
  · rcases h.adds.leads_root_iff.mp hl with hold | ⟨rfl, -⟩
    · obtain ⟨htype, hcontents⟩ := hsame n (hold.reach .root)
      rw [htype] at hreg'
      rw [Function.update_of_ne (hne ls n hold), hholds.file ls n hold hreg', hcontents hreg']
    · obtain rfl := (h.sound hform.toSound).exclusive.leads_injective hl hnames
      rw [Function.update_self, h.new, Inode.contents, hempty]
      rfl
  · by_cases heq : ls = labels (pathparse path)
    · exact ⟨inum, heq ▸ hnames, h.new.symm ▸ hreg⟩
    · rw [Function.update_of_ne heq] at hs
      obtain ⟨n, hold, hreg'⟩ := hholds.only ls s hs
      exact ⟨n, h.adds.leads_root_iff.mpr (Or.inl hold), (hsame n (hold.reach .root)).1.trans hreg'⟩

theorem Detached.holds {label : List UInt8} (h : Detached fs fs' dir slot label inum) (hform : WellFormed fs)
    (hnames : Names fs.disk path inum) (hfile : S_ISDIR (inodeAt fs.disk inum).mode = false)
    (hholds : HoldsFiles fs.disk map) :
    HoldsFiles fs'.disk (Function.update map (labels (pathparse path)) none) := by
  have hiff : ∀ ls n, (tree fs'.disk).Leads 2 ls n ↔ (tree fs.disk).Leads 2 ls n ∧ n ≠ inum := fun _ _ =>
    h.removes.leads_root_iff hform.exclusive h.reach h.edge (tree_edge_of_not_dir hfile)
  have hsame : ∀ n, (tree fs.disk).Reach n → SameAt fs.disk fs'.disk n := fun n hn =>
    .of_inode (h.inodes n hn) (hform.fits n hn) fun hreg =>
      data_of_keepsBut hform.exclusive h.reach h.hasSlot h.disk hn hreg
  refine ⟨fun ls n hl hreg => ?_, fun ls s hs => ?_⟩
  · obtain ⟨hold, hne⟩ := (hiff ls n).mp hl
    have hother : ls ≠ labels (pathparse path) := by
      rintro rfl
      exact hne (hform.unique.leads_unique .root hold hnames)
    obtain ⟨htype, hcontents⟩ := hsame n (hold.reach .root)
    rw [htype] at hreg
    rw [Function.update_of_ne hother, hholds.file ls n hold hreg, hcontents hreg]
  · by_cases heq : ls = labels (pathparse path)
    · rw [heq, Function.update_self] at hs
      cases hs
    · rw [Function.update_of_ne heq] at hs
      obtain ⟨n, hold, hreg⟩ := hholds.only ls s hs
      have hne : n ≠ inum := by
        rintro rfl
        exact heq (hform.exclusive.leads_injective hold hnames)
      exact ⟨n, (hiff ls n).mpr ⟨hold, hne⟩, (hsame n (hold.reach .root)).1.trans hreg⟩

/-- Another inode with the same size and the same blocks. -/
theorem Reset.holds (h : Reset fs fs' inum inode) (hform : WellFormed fs)
    (htype : S_ISREG inode.mode = S_ISREG (inodeAt fs.disk inum).mode) (hholds : HoldsFiles fs.disk map) :
    HoldsFiles fs'.disk map := by
  have hblocks : ∀ n, (tree fs.disk).Reach n → ∀ i : Fin numPtrs, i.val < (inodeAt fs.disk n).numBlocks →
      fs'.disk ((inodeAt fs.disk n).ptrs i).toNat = fs.disk ((inodeAt fs.disk n).ptrs i).toNat := by
    intro n hn i hi
    have hcell := tree_cell_eq_some.mpr ⟨hi, rfl⟩
    exact h.disk _ (Graph.Uses.cell hn hcell).inUse (hform.exclusive.cell_ne_node hn hcell h.reach)
  refine hholds.same (fun ls n => h.agrees.leads_root_iff) fun n hn => ?_
  by_cases hne : n = inum
  · subst hne
    refine ⟨by rw [h.new, htype], fun _ => ?_⟩
    rw [h.new]
    exact Inode.contents_congr h.size h.ptrs (hform.fits n hn) (hblocks n hn)
  · exact .of_inode (h.inodes hn hne) (hform.fits n hn) fun _ => hblocks n hn

/-- The other files keep their bytes where one file is emptied or written. -/
theorem Resized.same (h : Resized fs fs' inum inode) (hform : WellFormed fs) {n : Nat}
    (hn : (tree fs.disk).Reach n) (hne : n ≠ inum) : SameAt fs.disk fs'.disk n := by
  refine .of_inode (h.inodes hform.exclusive hn hne) (hform.fits n hn) fun _ i hi => ?_
  have hcell := tree_cell_eq_some.mpr ⟨hi, rfl⟩
  exact h.disk _ (Graph.Uses.cell hn hcell).inUse fun howned =>
    hne (howned.eq_of_cell hform.exclusive h.reach hn hcell)

theorem Resized.holds (h : Resized fs fs' inum inode) (hform : WellFormed fs) (hnames : Names fs.disk path inum)
    {f : List UInt8 → List UInt8} (hnew : inode.contents fs'.disk = f ((inodeAt fs.disk inum).contents fs.disk))
    (hholds : HoldsFiles fs.disk map) : HoldsFiles fs'.disk (map.change path f) := by
  refine hholds.change hform.exclusive hform.unique hnames (fun ls n => h.changes.leads_iff .root)
    (fun n hn hne => h.same hform hn hne) ?_ ?_
  · rw [h.new, h.mode]
  · rw [h.new, hnew]

/-- The bytes of a file after a write. -/
theorem Written.contents {buf : List UInt8} {offset : Nat} (h : Written fs fs' inum buf offset claimed inode)
    (hoffset : (offset : Int) ≤ (inodeAt fs.disk inum).size.toInt) :
    inode.contents fs'.disk = splice buf offset ((inodeAt fs.disk inum).contents fs.disk) := by
  have hsize := h.size
  set old := (inodeAt fs.disk inum).contents fs.disk with hold
  have hlen : old.length = (inodeAt fs.disk inum).size.toInt.toNat := Inode.length_contents _ _
  have hnew : inode.size.toInt.toNat = max old.length (offset + buf.length) := by omega
  have htake : (old.take offset).length = offset := by rw [List.length_take]; omega
  refine List.ext_getElem ?_ fun x hx hx' => ?_
  · simp only [Inode.length_contents, splice, List.length_append, List.length_take, List.length_drop]
    omega
  · have hlt : x < inode.size.toInt.toNat := by rwa [Inode.length_contents] at hx
    have hbyte : (inode.contents fs'.disk)[x] = inode.fileByte fs'.disk x := by
      simp only [Inode.contents, List.getElem_map, List.getElem_range]
    rw [hbyte, h.bytes x hlt]
    by_cases hbefore : x < offset
    · rw [if_neg (by omega)]
      simp only [splice]
      rw [List.getElem_append_left (by rw [List.length_append, htake]; omega), List.getElem_append_left (by omega), List.getElem_take]
      simp only [hold, Inode.contents, List.getElem_map, List.getElem_range]
    · by_cases hinside : x < offset + buf.length
      · rw [if_pos ⟨by omega, hinside⟩]
        simp only [splice]
        rw [List.getElem_append_left (by rw [List.length_append, htake]; omega), List.getElem_append_right (by omega)]
        simp only [htake]
        rw [List.getD_eq_getElem _ _ (by omega)]
      · rw [if_neg (by omega)]
        simp only [splice]
        have hindex : offset + buf.length + (x - (old.take offset ++ buf).length) = x := by
          rw [List.length_append, htake]
          omega
        rw [List.getElem_append_right (by rw [List.length_append, htake]; omega), List.getElem_drop]
        simp only [hindex]
        simp only [hold, Inode.contents, List.getElem_map, List.getElem_range]

end Commit

/-! ### Requests on files -/

/-- A request on files, on a path without dots, and within the sizes that a file can have. -/
def Op.OnFiles : Op → Prop
  | .create path _ | .unlink path | .chmod path _ | .utime path _ | .truncate path _ => Plain path
  | .write path buf offset => Plain path ∧ offset + buf.length < 2 ^ 31
  | .read path len offset => Plain path ∧ offset + len < 2 ^ 31
  | _ => False

/-- No size is negative. -/
def Sized (disk : Nat → Block) : Prop := AllInodes (fun inode => 0 ≤ inode.size.toInt) disk

section Requests

variable {env : Env} {fs fs' : Fs} {op : Op} {map : FileMap}

theorem Op.OnFiles.cases (h : op.OnFiles) : op.Changes ∧ (∀ path, op ≠ .rmdir path) ∧
    (∀ srcPath dstPath, op ≠ .rename srcPath dstPath) ∨ ∃ path len offset, op = .read path len offset := by
  cases op with
  | create path mode => exact Or.inl ⟨h, nofun, nofun⟩
  | unlink path => exact Or.inl ⟨h, nofun, nofun⟩
  | chmod path mode => exact Or.inl ⟨h, nofun, nofun⟩
  | utime path modtime => exact Or.inl ⟨h, nofun, nofun⟩
  | truncate path len => exact Or.inl ⟨h, nofun, nofun⟩
  | write path buf offset => exact Or.inl ⟨h, nofun, nofun⟩
  | read path len offset => exact Or.inr ⟨path, len, offset, rfl⟩
  | getattr path => exact h.elim
  | readdir path => exact h.elim
  | mkdir path mode => exact h.elim
  | rmdir path => exact h.elim
  | rename srcPath dstPath => exact h.elim
  | statfs => exact h.elim

/-- The write that takes effect does to the map what the request is meant to do. -/
theorem Commit.holds (h : Commit env fs fs' op) (hop : op.OnFiles) (hfiles : op.RegularFiles)
    (hshort : op.ShortNames) (hform : WellFormed fs) (hholds : HoldsFiles fs.disk map) :
    HoldsFiles fs'.disk (op.effect map) := by
  cases h with
  | create hat hcreated => exact hcreated.holds hform hop hat hshort hfiles rfl hholds
  | unlink hnames hfile hdetached hbitmap hsize => exact hdetached.holds hform hnames hfile hholds
  | chmod hnames hreset => exact hreset.holds hform (isReg_chmod _ _) hholds
  | utime hnames hreset => exact hreset.holds hform rfl hholds
  | truncate hnames hresized hmarks => exact hresized.holds hform hnames rfl hholds
  | write hnames hat hwritten =>
      exact hwritten.toResized.holds hform hnames (hwritten.contents hat.offset_le) hholds
  | mkdir => exact hop.elim
  | rmdir => exact hop.elim
  | rename => exact hop.elim

theorem Commit.sized (h : Commit env fs fs' op) (hop : op.OnFiles) (hsound : Sound fs) (hsized : Sized fs.disk) :
    Sized fs'.disk := by
  cases h with
  | create hat hcreated => exact hcreated.allInodes hsized (le_refl 0)
  | unlink hnames hfile hdetached hbitmap hsize => exact hdetached.allInodes hsized
  | @chmod path mode inum hnames hreset => exact hreset.allInodes hsized (hsized inum hreset.reach)
  | @utime path modtime inum hnames hreset => exact hreset.allInodes hsized (hsized inum hreset.reach)
  | truncate hnames hresized hmarks => exact hresized.allInodes hsound hsized (le_refl 0)
  | write hnames hat hwritten =>
      apply hwritten.toResized.allInodes hsound hsized
      have := hwritten.size
      omega
  | mkdir => exact hop.elim
  | rmdir => exact hop.elim
  | rename => exact hop.elim

theorem Keeps.holds (h : Keeps (fun _ => False) fs fs') (hsound : Sound fs) (hfits : Fits fs.disk)
    (hholds : HoldsFiles fs.disk map) : HoldsFiles fs'.disk map := by
  obtain ⟨hagrees, hsame⟩ := h.same hsound.exclusive
  refine hholds.same (fun ls n => hagrees.leads_root_iff) fun n hn => ?_
  exact .of_inode (hsame n hn) (hfits n hn) fun _ i hi =>
    h.disk _ (Graph.Uses.cell hn (tree_cell_eq_some.mpr ⟨hi, rfl⟩)).inUse id

/-- The file system is well formed and holds the map. -/
structure Serves (fs : Fs) (map : FileMap) : Prop where
  form : WellFormed fs
  sized : Sized fs.disk
  holds : HoldsFiles fs.disk map

/-- A request on files, where no block access fails, the name of a new file has at most 26 bytes and the local
arrays have their declared lengths. -/
structure FileStep (fs : Fs) (request : Request) (fs' : Fs) : Prop where
  onFiles : request.op.OnFiles
  files : request.op.RegularFiles
  names : request.op.ShortNames
  quiet : request.env.Quiet
  limits : Roomy request.env.limits
  step : fs.Step request fs'

/-- A request keeps the file system well formed. -/
theorem Leaves.wellFormed (h : Leaves env fs op fs') (hform : WellFormed fs) (hfiles : op.RegularFiles)
    (hshort : op.ShortNames) (hrename : ∀ srcPath dstPath, op ≠ .rename srcPath dstPath) : WellFormed fs' := by
  have hlayout : AllInodes (Layout fun _ => True) fs'.disk :=
    h.layout hform.toSound hfiles trivial fun n hn => ⟨hform.fits n hn, fun _ => trivial⟩
  refine ⟨h.sound hform.toSound, fits_of_layout hlayout, ?_, h.terminated hform.toSound hform.terminated⟩
  exact uniqueLabels_of_leaves h hform.toSound (fun ⟨srcPath, dstPath, heq⟩ => absurd heq (hrename srcPath dstPath))
    (not_clashes_of_shortNames hshort _ _) hform.unique

theorem Outcome.serves {request : Request} (h : Outcome request.env fs request.op request.value fs')
    (hop : request.op.OnFiles) (hfiles : request.op.RegularFiles) (hshort : request.op.ShortNames)
    (hform' : WellFormed fs') (hserves : Serves fs map) : Serves fs' (request.onMap map) := by
  obtain ⟨env, op, value⟩ := request
  have hsound := hserves.form.toSound
  have houtcome : Outcome env fs op value fs' := h
  cases houtcome with
  | idle reason hkeep =>
      exact ⟨hform', hserves.sized.keeps hsound.exclusive (hkeep.disk.mono fun _ => False.elim),
        hkeep.holds hsound hserves.form.fits hserves.holds⟩
  | done hcommit hkeep =>
      have hmid := hcommit.sound hsound
      have hlayout := hcommit.layout hsound hfiles (Q := fun _ => True) trivial fun n hn =>
        ⟨hserves.form.fits n hn, fun _ => trivial⟩
      exact ⟨hform', (hcommit.sized hop hsound hserves.sized).keeps hmid.exclusive (hkeep.disk.mono fun _ => False.elim),
        hkeep.holds hmid (fits_of_layout hlayout) (hcommit.holds hop hfiles hshort hserves.form hserves.holds)⟩

/-- `fs_read` leaves the file system. -/
theorem read_run (hquiet : env.Quiet) (path : CStr) (len offset : Nat) :
    (Op.run (.read path len offset) env fs).2.fs = fs := by
  have hread : Reads env fs (Op.read path len offset).call _ :=
    reads_bind (reads_fsRead path len offset) fun bytes _ => Follows.pure _
  exact (run_of_does hread hquiet).2

/-- A request on files does to the map what it is meant to do. -/
theorem FileStep.serves {request : Request} (hstep : FileStep fs request fs') (h : Serves fs map) :
    Serves fs' (request.onMap map) := by
  obtain ⟨env, op, value⟩ := request
  obtain ⟨hop, hfiles, hshort, hquiet, -, hvalue, rfl⟩ := hstep
  rcases hop.cases with ⟨hchanges, hrmdir, hrename⟩ | ⟨path, len, offset, heq⟩
  · have hleaves := leaves_run h.form.toSound h.form.fits hchanges (fun _ _ _ => hquiet)
      fun path heq => absurd heq (hrmdir path)
    have houtcome := outcome_run h.form.toSound h.form.fits hchanges hquiet
      fun path heq => absurd heq (hrmdir path)
    have hvalue' : (op.run env fs).1 = value := hvalue
    rw [hvalue'] at houtcome
    exact @Outcome.serves _ _ _ ⟨env, op, value⟩ houtcome hop hfiles hshort
      (hleaves.wellFormed h.form hfiles hshort hrename) h
  · obtain rfl : op = .read path len offset := heq
    have hsame : (Op.run (.read path len offset) env fs).2.fs = fs := read_run hquiet path len offset
    dsimp only
    rw [hsame]
    have hmap : Request.onMap ⟨env, .read path len offset, value⟩ map = map := by
      cases value <;> rfl
    rwa [hmap]

end Requests

/-! ### Runs -/

open Classical in
/-- The bytes of the regular files on a disk. -/
noncomputable def fileMap (disk : Nat → Block) : FileMap := fun ls =>
  if h : ∃ inum, (tree disk).Leads 2 ls inum ∧ S_ISREG (inodeAt disk inum).mode = true then
    some ((inodeAt disk h.choose).contents disk)
  else
    none

theorem holdsFiles_fileMap {disk : Nat → Block} (huniq : (tree disk).UniqueLabels) :
    HoldsFiles disk (fileMap disk) where
  file ls inum hleads hreg := by
    have hsome : ∃ inum, (tree disk).Leads 2 ls inum ∧ S_ISREG (inodeAt disk inum).mode = true :=
      ⟨inum, hleads, hreg⟩
    rw [fileMap, dif_pos hsome, huniq.leads_unique .root hsome.choose_spec.1 hleads]
  only ls s hs := by
    by_contra hnone
    rw [fileMap, dif_neg hnone] at hs
    cases hs

/-- What `fs_getattr` and `fs_read` report of a path is what the map has there: the length and the bytes of a
regular file, or no regular file. -/
structure ReportsFiles (fs : Fs) (map : FileMap) (env : Env) (path : CStr) : Prop where
  size : ∀ s, map (labels (pathparse path)) = some s →
    ∃ stat, (fsGetattr path env (.start fs)).1 = .ok stat ∧ S_ISREG stat.mode = true ∧ stat.size = s.length
  read : ∀ s, map (labels (pathparse path)) = some s → ∀ len offset, offset + len < 2 ^ 31 →
    (fsRead path len offset env (.start fs)).1 = .ok ((s.drop offset).take len)
  none : map (labels (pathparse path)) = none →
    ∀ stat, (fsGetattr path env (.start fs)).1 = .ok stat → S_ISREG stat.mode = false

theorem fsRead_value {env : Env} {fs : Fs} (hquiet : env.Quiet) (path : CStr) (len offset : Nat) :
    (fsRead path len offset env (.start fs)).1 =
      (translateIn env.limits fs.disk path >>= fun found => readIn found.2 fs.disk len offset) :=
  (run_of_does (reads_fsRead path len offset) hquiet).1

theorem Serves.reports {fs : Fs} {map : FileMap} (h : Serves fs map) {env : Env} (hquiet : env.Quiet)
    (hlimits : Roomy env.limits) {path : CStr} (hpath : Plain path) : ReportsFiles fs map env path := by
  have hfound : ∀ s, map (labels (pathparse path)) = some s → ∃ inum, (tree fs.disk).Reach inum ∧
      S_ISREG (inodeAt fs.disk inum).mode = true ∧ (inodeAt fs.disk inum).contents fs.disk = s ∧
      translateIn env.limits fs.disk path = .ok (inum, inodeAt fs.disk inum) := by
    intro s hs
    obtain ⟨inum, hleads, hreg⟩ := h.holds.only _ s hs
    have hbytes := Option.some.inj ((h.holds.file _ inum hleads hreg).symm.trans hs)
    exact ⟨inum, hleads.reach .root, hreg, hbytes,
      (hpath.translateIn_eq_ok_iff hlimits h.form.toWellNamed).mpr ⟨hleads, rfl⟩⟩
  refine ⟨fun s hs => ?_, fun s hs len offset hrange => ?_, fun hnone stat hstat => ?_⟩
  · obtain ⟨inum, hreach, hreg, rfl, htranslate⟩ := hfound s hs
    refine ⟨setstat (inodeAt fs.disk inum), ?_, hreg, ?_⟩
    · rw [fsGetattr_value hquiet, htranslate]
      rfl
    · rw [Inode.length_contents]
      exact (Int.toNat_of_nonneg (h.sized inum hreach)).symm
  · obtain ⟨inum, hreach, hreg, rfl, htranslate⟩ := hfound s hs
    rw [fsRead_value hquiet, htranslate]
    exact readIn_eq hreg (h.form.fits inum hreach) (hrange.trans (by decide))
  · rw [fsGetattr_value hquiet] at hstat
    rcases htranslate : translateIn env.limits fs.disk path with reason | ⟨inum, inode⟩
    · rw [htranslate] at hstat
      cases hstat
    · rw [htranslate] at hstat
      cases hstat
      obtain ⟨hleads, rfl⟩ := (hpath.translateIn_eq_ok_iff hlimits h.form.toWellNamed).mp htranslate
      by_contra hreg
      have hsome := h.holds.file _ inum hleads (Bool.eq_true_of_not_eq_false hreg)
      cases hnone.symm.trans hsome

/-- The map goes along with a request. -/
def Mapped (request : Request) (_ _ : Fs) (map map' : FileMap) : Prop := map' = request.onMap map

theorem FileStep.along {fs fs' : Fs} {request : Request} (h : FileStep fs request fs') (map : FileMap) :
    Along FileStep Mapped (fs, map) request (fs', request.onMap map) := ⟨h, rfl⟩

/-- In every state of a run of requests on files, `fs_getattr` and `fs_read` report of every path what the map
has there. -/
theorem files_of_run {fs fs' : Fs} {map : FileMap} (h : WellFormed fs) (hsized : Sized fs.disk)
    (hrun : Reaches (Along FileStep Mapped) (fs, fileMap fs.disk) (fs', map)) (env : Env) (hquiet : env.Quiet)
    (hlimits : Roomy env.limits) (path : CStr) (hpath : Plain path) : ReportsFiles fs' map env path := by
  have hinv := @Reaches.invariant _ _ (Along FileStep Mapped) (fun state => Serves state.1 state.2) _ _ hrun
    (fun state request state' hserves hstep => ?_) ⟨h, hsized, holdsFiles_fileMap h.unique⟩
  · exact hinv.reports hquiet hlimits hpath
  · obtain ⟨hstep, hmapped⟩ := hstep
    have hserves' := hstep.serves hserves
    rwa [← hmapped] at hserves'

theorem sized_sampleImage : Sized sampleImage.disk := fun n hn =>
  of_decide_eq_true (allInodes_of_inodeCheck (P := fun inode => decide (0 ≤ inode.size.toInt)) (by decide +kernel) n hn)

def createG : Op := .create (joinPath [nameG]) (S_IFREG ||| 0o666)

def writeG : Op := .write (joinPath [nameG]) [1, 2, 3] 0

/-- After the two requests the three bytes are reported. -/
theorem files_of_run_sampleImage : ∃ map,
    Reaches (Along FileStep Mapped) (sampleImage, fileMap sampleImage.disk)
      ((writeG.run (quietEnv 0) (createG.run (quietEnv 0) sampleImage).2.fs).2.fs, map) ∧
    ReportsFiles (writeG.run (quietEnv 0) (createG.run (quietEnv 0) sampleImage).2.fs).2.fs map (quietEnv 0)
      (joinPath [nameG]) ∧
    (fsRead (joinPath [nameG]) 8 0 (quietEnv 0)
      (.start (writeG.run (quietEnv 0) (createG.run (quietEnv 0) sampleImage).2.fs).2.fs)).1 = .ok [1, 2, 3] := by
  have hcreate : FileStep sampleImage ⟨quietEnv 0, createG, _⟩ _ :=
    ⟨plain_nameG, (by decide : S_ISREG (S_IFREG ||| 0o666) = true), shortName_nameG, quiet_quietEnv 0, roomy_quietEnv 0,
      .of_run _ _ _⟩
  have hwrite : FileStep (createG.run (quietEnv 0) sampleImage).2.fs ⟨quietEnv 0, writeG, _⟩ _ :=
    ⟨⟨plain_nameG, by decide⟩, trivial, trivial, quiet_quietEnv 0, roomy_quietEnv 0, .of_run _ _ _⟩
  have hrun := (Reaches.single (hcreate.along (fileMap sampleImage.disk))).tail ⟨_, hwrite.along _⟩
  exact ⟨_, hrun, files_of_run wellFormed_sampleImage sized_sampleImage hrun (quietEnv 0) (quiet_quietEnv 0)
    (roomy_quietEnv 0) _ plain_nameG, by decide +kernel⟩

end Fs5600
