import Fs5600.Reported
import Fs5600.Base.PathMap

/-! The whole report of `read-img.py`. Where it finds nothing wrong, the file system that `fs_init` mounts has marked
every block in use. On an image whose blocks are used once it ends, and shows the tree as it is. -/

namespace Fs5600.ReadImg

open Traverse Ownership

/-- A path, as `iter` puts it together. -/
def pathText (ls : List (List UInt8)) : List UInt8 := ls.flatMap (slash :: ·)

theorem pathText_snoc (ls : List (List UInt8)) (l : List UInt8) : pathText (ls ++ [l]) = pathText ls ++ slash :: l := by
  rw [pathText, List.flatMap_append, List.flatMap_singleton]
  rfl

/-! ### The way of the walk -/

section Walk

variable {img : Image} {depth : Nat} {ls : List (List UInt8)} {n : Nat} {name : List UInt8}

/-- The walk goes to every object that entries lead to. -/
theorem visits_of_leads (hends : Ends (visit img) depth ([], 2)) (hleads : (tree img.blks).Leads 2 ls n) :
    Visits (visit img) ([], 2) (pathText ls, n) := by
  induction ls using List.reverseRecOn generalizing n with
  | nil =>
      obtain rfl : 2 = n := hleads
      exact .here _
  | append_singleton ls l ih =>
      obtain ⟨dir, slot, hdir, hedge⟩ := Graph.leads_snoc.mp hleads
      have hvisits := ih hdir
      obtain ⟨found, hvisit⟩ := hends.visit_ok hvisits
      obtain ⟨hslot, hentry⟩ := tree_edge_eq_some.mp hedge
      have hlt : slot.1.val < xblks (inodeAt img.blks dir) := xblks_eq_numBlocks _ ▸ hslot.lt_numBlocks
      have hchild : (pathText (ls ++ [l]), n) ∈ found.2 :=
        ((visited_of_visit hvisit).children _).mpr ⟨hslot.1, slot, hlt, l, n, hentry, by rw [pathText_snoc]⟩
      exact hvisits.trans (.next hvisit hchild (.here _))

/-- Where directories have whole blocks, it goes nowhere else. -/
theorem leads_of_visits (hdirs : AllInodes (fun inode => S_ISDIR inode.mode = true → inode.numBlocks = inode.dirBlocks)
    img.blks) (hleads : (tree img.blks).Leads 2 ls n) {node : List UInt8 × Nat}
    (hvisits : Visits (visit img) (pathText ls, n) node) :
    ∃ ls', (tree img.blks).Leads 2 ls' node.2 ∧ node.1 = pathText ls' := by
  generalize hstart : (pathText ls, n) = start at hvisits
  induction hvisits generalizing ls n with
  | here start =>
      subst hstart
      exact ⟨ls, hleads, rfl⟩
  | next hvisit hmem hbelow ih =>
      subst hstart
      obtain ⟨hdir, slot, hlt, label, m, hentry, rfl⟩ := ((visited_of_visit hvisit).children _).mp hmem
      rw [xblks_eq_numBlocks, hdirs n (hleads.reach .root) hdir] at hlt
      have hedge := tree_edge_eq_some.mpr ⟨⟨hdir, hlt⟩, hentry⟩
      exact ih (Graph.leads_snoc.mpr ⟨n, slot, hleads, hedge⟩) (by rw [pathText_snoc])

end Walk

/-! ### The report -/

/-- Nothing is printed that says that something is wrong. -/
structure Report.Clean (report : Report) : Prop where
  magic : report.badMagic = false
  size : report.badSize = false
  marks : ∀ b m, (b, m) ∈ report.lines.filterMap Line.mark? → m = true
  modes : report.lines.any Line.isBadMode = false

structure Reported (img : Image) (depth : Nat) (report : Report) : Prop where
  length : img.nbytes % 4096 = 0
  lines : iter img depth [] 2 = .ok report.lines
  badMagic : report.badMagic = decide (Words.le32 (img.blks 0).byte 0 ≠ fsMagic)
  badSize : report.badSize = decide (Words.le32 (img.blks 0).byte 4 ≠ img.nblks)
  used : ∀ b, b ∈ report.used ↔ b < img.nblks ∧ bitTest (img.blks 1) b = true
  found : ∀ n, n ∈ report.found ↔ n < img.nblks ∧ ∃ line ∈ report.lines, line.inum? = some n

section Report

variable {img : Image} {depth : Nat} {report : Report}

theorem blk_eq_ok {i : Nat} {block : Block} (h : img.blk i = .ok block) : img.blks i = block := by
  rw [Image.blk] at h
  split at h
  · exact Except.ok.inj h
  · cases h

theorem reported_of_readImg (h : readImg img depth = .ok report) : Reported img depth report := by
  unfold readImg at h
  by_cases hlength : img.nbytes % 4096 ≠ 0
  · rw [if_pos hlength] at h
    cases h
  · rw [if_neg hlength] at h
    obtain ⟨sb, hsb, h1⟩ := exceptBind_eq_ok h
    obtain ⟨map, -, h2⟩ := exceptBind_eq_ok h1
    obtain ⟨marks, hmarks, h3⟩ := exceptBind_eq_ok h2
    obtain ⟨lines, hlines, h4⟩ := exceptBind_eq_ok h3
    obtain rfl := Except.ok.inj h4
    obtain rfl := blk_eq_ok hsb
    have hmap : marks = (List.range img.nblks).map (bitTest (img.blks 1)) :=
      eq_map_of_mapM hmarks fun i m hm => marked_eq_ok hm
    refine ⟨not_not.mp hlength, hlines, rfl, rfl, fun b => ?_, fun n => ?_⟩
    · rw [List.mem_filter, List.mem_range, hmap]
      refine and_congr_right fun hb => ?_
      rw [List.getD_eq_getElem _ _ (by rwa [List.length_map, List.length_range]), List.getElem_map, List.getElem_range]
    · rw [List.mem_filter, List.mem_range, decide_eq_true_iff, List.mem_filterMap]

/-- Where the report has nothing wrong, `fs_init` mounts the image with its whole length, and the bitmap it reads has a
mark for every block in use. Every object is found. -/
theorem mounts_of_readImg (h : readImg img depth = .ok report) (hclean : report.Clean) (env : Env) (hquiet : env.Quiet) :
    ∃ fs, fsInit env img.blks = some fs ∧ fs.disk = img.blks ∧ fs.diskSize = img.nblks ∧ Covers fs.bitmap fs.disk ∧
      ∀ n, (tree fs.disk).Reach n → n ∈ report.found := by
  have hreport := reported_of_readImg h
  have hends : Ends (visit img) depth ([], 2) := walk_ok_iff_ends.mp ⟨_, hreport.lines⟩
  have hmagic := of_decide_eq_false (hreport.badMagic.symm.trans hclean.magic)
  have hsize := of_decide_eq_false (hreport.badSize.symm.trans hclean.size)
  have hvisited : ∀ n, (tree img.blks).Reach n → ∃ name found, Visited img name n found ∧ ∀ line ∈ found.1,
      line ∈ report.lines := by
    intro n hn
    obtain ⟨ls, hleads⟩ := hn.leads
    have hvisits := visits_of_leads hends hleads
    obtain ⟨found, hvisit⟩ := hends.visit_ok hvisits
    exact ⟨_, found, visited_of_visit hvisit, fun line hline =>
      (mem_walk_iff hreport.lines).mpr ⟨_, found, hvisits, hvisit, hline⟩⟩
  have hnode : ∀ n, (tree img.blks).Reach n → bitTest (img.blks 1) n = true ∧ n ∈ report.found ∧
      ∀ i b, (tree img.blks).cell n i = some b → bitTest (img.blks 1) b = true := by
    intro n hn
    obtain ⟨name, found, hvisit, hlines⟩ := hvisited n hn
    have hmark : ∀ b m, (b, m) ∈ found.1.filterMap Line.mark? → m = true := fun b m hb => by
      obtain ⟨line, hline, hm⟩ := List.mem_filterMap.mp hb
      exact hclean.marks b m (List.mem_filterMap.mpr ⟨line, hlines line hline, hm⟩)
    refine ⟨hmark n _ ((hvisit.marks n _).mpr ⟨rfl, Or.inl rfl⟩), ?_, fun i b hcell => ?_⟩
    · obtain ⟨hline, hinum⟩ := (hvisit.object _ n).mpr ⟨rfl, rfl⟩
      exact (hreport.found n).mpr ⟨hvisit.range, _, hlines _ hline, hinum⟩
    · obtain ⟨hi, hptr⟩ := tree_cell_eq_some.mp hcell
      have hkind : S_ISREG (inodeAt img.blks n).mode = true ∨ S_ISDIR (inodeAt img.blks n).mode = true := by
        by_contra hnot
        rw [not_or, Bool.not_eq_true, Bool.not_eq_true] at hnot
        obtain ⟨line, hline, hbad⟩ := List.any_eq_true.mp (hvisit.badMode.mpr hnot)
        cases hclean.modes.symm.trans (List.any_eq_true.mpr ⟨line, hlines line hline, hbad⟩)
      exact hmark b _ ((hvisit.marks b _).mpr ⟨rfl, Or.inr ⟨hkind, i, xblks_eq_numBlocks _ ▸ hi, hptr⟩⟩)
  refine ⟨⟨img.nblks, img.blks 1, img.blks⟩, ?_, rfl, rfl, fun b hb => ?_, fun n hn => (hnode n hn).2.1⟩
  · rw [fsInit, if_neg (by simp [hquiet.1]), if_neg hmagic, if_neg (by simp [hquiet.1]), not_not.mp hsize]
  · obtain ⟨use, huse⟩ := hb
    cases huse with
    | root => exact (hnode _ .root).1
    | edge hn he => exact (hnode _ (hn.step he)).1
    | cell hn hcell => exact (hnode _ hn).2.2 _ _ hcell

end Report

/-! ### Images whose blocks are used once -/

/-- `iter` takes the inode for what the file system takes it for. -/
structure Legible (inode : Inode) : Prop where
  kind : S_ISREG inode.mode = true ∨ S_ISDIR inode.mode = true
  fits : inode.numBlocks ≤ numPtrs
  whole : S_ISDIR inode.mode = true → inode.numBlocks = inode.dirBlocks

/-- All names in the tree are in ASCII. -/
def Ascii (disk : Nat → Block) : Prop :=
  ∀ n s l m, (tree disk).Reach n → (tree disk).edge n s = some (l, m) → ∀ c ∈ l, c < 128

/-- An image that the program can go through. -/
structure Readable (img : Image) : Prop where
  length : img.nbytes % 4096 = 0
  bits : img.nblks ≤ bitmapBits
  exclusive : (tree img.blks).Exclusive
  range : ∀ b, (tree img.blks).InUse b → b < img.nblks
  inodes : AllInodes Legible img.blks
  ascii : Ascii img.blks

section Visit

variable {img : Image} {name : List UInt8} {inum i : Nat} {inode : Inode}

theorem marked_ok (hbits : img.nblks ≤ bitmapBits) (hi : i < img.nblks) :
    img.marked i = .ok (bitTest (img.blks 1) i) := by
  rw [Image.marked, if_pos (by simp only [bitmapBits] at hbits; omega), get_bitmapOf]

theorem ptr_ok (hi : i < numPtrs) : ptr inode i = .ok (inode.ptrs ⟨i, hi⟩).toNat := dif_pos hi

/-- The visit of an object succeeds. -/
theorem Readable.visit_ok (h : Readable img) (hreach : (tree img.blks).Reach inum) (name : List UInt8) :
    ∃ found, visit img (name, inum) = .ok found := by
  have hlegible := h.inodes inum hreach
  have hinum := h.range inum hreach.inUse
  have hptr : ∀ i < xblks (inodeAt img.blks inum), ∃ hi : i < numPtrs,
      ((inodeAt img.blks inum).ptrs ⟨i, hi⟩).toNat < img.nblks := by
    intro i hi
    rw [xblks_eq_numBlocks] at hi
    have hlt := hi.trans_le hlegible.fits
    exact ⟨hlt, h.range _ ⟨_, .cell hreach (tree_cell_eq_some.mpr ⟨hi, rfl⟩)⟩⟩
  -- a file prints its blocks, a directory its blocks and entries
  have hfile : ∃ lines,
      (List.range (xblks (inodeAt img.blks inum))).mapM (fileLine img (inodeAt img.blks inum)) = .ok lines :=
    mapM_ok fun i hi => by
      obtain ⟨hlt, hrange⟩ := hptr i (List.mem_range.mp hi)
      exact ⟨_, by rw [fileLine, ptr_ok hlt, exceptBind_ok, marked_ok h.bits hrange, exceptBind_ok]⟩
  have hparts : S_ISDIR (inodeAt img.blks inum).mode = true →
      ∃ parts,
        (List.range (xblks (inodeAt img.blks inum))).mapM (dirLines img name (inodeAt img.blks inum)) = .ok parts := by
    intro hdir
    refine mapM_ok fun i hi => ?_
    obtain ⟨hlt, hrange⟩ := hptr i (List.mem_range.mp hi)
    have hentries := @mapM_ok _ Failure _ (entryLine name (img.blks ((inodeAt img.blks inum).ptrs ⟨i, hlt⟩).toNat))
      (List.finRange direntsPerBlock) fun s _ => by
        rw [entryLine]
        by_cases hvalid : ((img.blks ((inodeAt img.blks inum).ptrs ⟨i, hlt⟩).toNat).dirent s).valid = true
        · have hslot : HasSlot img.blks inum (⟨i, hlt⟩, s) :=
            ⟨hdir, by rw [← hlegible.whole hdir, ← xblks_eq_numBlocks]; exact List.mem_range.mp hi⟩
          have hascii : ∀ c ∈ ((img.blks ((inodeAt img.blks inum).ptrs ⟨i, hlt⟩).toNat).dirent s).storedName, c < 128 :=
            h.ascii inum (⟨i, hlt⟩, s) _ _ hreach (edge_of_direntAt hslot hvalid)
          rw [if_pos hvalid, decode, if_pos hascii]
          exact ⟨_, rfl⟩
        · rw [if_neg hvalid]
          exact ⟨_, rfl⟩
    rw [dirLines, ptr_ok hlt, exceptBind_ok, marked_ok h.bits hrange, exceptBind_ok, Image.blk, if_pos hrange,
      exceptBind_ok]
    exact exists_bind_ok hentries
  unfold visit
  dsimp only
  rw [if_neg (not_not.mpr hinum), marked_ok h.bits hinum, exceptBind_ok]
  by_cases hreg : S_ISREG (Inode.ofBlock (img.blks inum)).mode = true
  · rw [if_pos hreg]
    exact exists_bind_ok hfile
  · have hdir : S_ISDIR (Inode.ofBlock (img.blks inum)).mode = true := hlegible.kind.resolve_left hreg
    rw [if_neg hreg, if_pos hdir]
    exact exists_bind_ok (hparts hdir)

end Visit

/-- The report shows the tree of the image as it is: its objects under their paths, and the marks of the blocks in
use. -/
structure Shown (img : Image) (report : Report) : Prop where
  badMagic : report.badMagic = decide (Words.le32 (img.blks 0).byte 0 ≠ fsMagic)
  badSize : report.badSize = decide (Words.le32 (img.blks 0).byte 4 ≠ img.nblks)
  used : ∀ b, b ∈ report.used ↔ b < img.nblks ∧ bitTest (img.blks 1) b = true
  found : ∀ n, n ∈ report.found ↔ (tree img.blks).Reach n
  objects : ∀ line n, line ∈ report.lines ∧ line.inum? = some n ↔
    ∃ ls, (tree img.blks).Leads 2 ls n ∧ line = objectLine img (pathText ls) n
  marks : ∀ b m, (b, m) ∈ report.lines.filterMap Line.mark? ↔ (tree img.blks).InUse b ∧ m = bitTest (img.blks 1) b
  modes : report.lines.any Line.isBadMode = false

namespace Readable

variable {img : Image} {depth : Nat} {ls : List (List UInt8)} {n : Nat} (h : Readable img)
include h

theorem whole : AllInodes (fun inode => S_ISDIR inode.mode = true → inode.numBlocks = inode.dirBlocks) img.blks :=
  fun n hn => (h.inodes n hn).whole

/-- The walk needs no more depth than the image has blocks. -/
theorem ends (hleads : (tree img.blks).Leads 2 ls n) (hdepth : img.nblks ≤ ls.length + depth) :
    Ends (visit img) depth (pathText ls, n) := by
  induction depth generalizing ls n with
  | zero =>
      have hlt := h.exclusive.length_lt_of_leads (fun m hm => h.range m hm.inUse) hleads
      omega
  | succ depth ih =>
      obtain ⟨found, hvisit⟩ := h.visit_ok (hleads.reach .root) (pathText ls)
      refine .intro hvisit fun child hchild => ?_
      obtain ⟨hdir, slot, hlt, label, m, hentry, rfl⟩ := ((visited_of_visit hvisit).children child).mp hchild
      rw [xblks_eq_numBlocks, h.whole n (hleads.reach .root) hdir] at hlt
      have hedge := tree_edge_eq_some.mpr ⟨⟨hdir, hlt⟩, hentry⟩
      rw [← pathText_snoc]
      refine ih (Graph.leads_snoc.mpr ⟨n, slot, hleads, hedge⟩) ?_
      rw [List.length_append, List.length_singleton]
      omega

/-- What is printed is printed for an object that a path leads to. -/
theorem mem_lines_iff {lines : List Line} (hlines : iter img depth [] 2 = .ok lines) (line : Line) :
    line ∈ lines ↔ ∃ ls n found, (tree img.blks).Leads 2 ls n ∧ Visited img (pathText ls) n found ∧
      visit img (pathText ls, n) = .ok found ∧ line ∈ found.1 := by
  have hends : Ends (visit img) depth ([], 2) := walk_ok_iff_ends.mp ⟨_, hlines⟩
  refine (mem_walk_iff hlines).trans ⟨?_, ?_⟩
  · rintro ⟨⟨name, n⟩, found, hvisits, hvisit, hline⟩
    obtain ⟨ls, hleads, rfl⟩ := leads_of_visits h.whole (show (tree img.blks).Leads 2 [] 2 from rfl) hvisits
    exact ⟨ls, n, found, hleads, visited_of_visit hvisit, hvisit, hline⟩
  · rintro ⟨ls, n, found, hleads, -, hvisit, hline⟩
    exact ⟨_, found, visits_of_leads hends hleads, hvisit, hline⟩

/-- A report shows the tree. -/
theorem shown {report : Report} (hreport : Reported img depth report) : Shown img report := by
  have hlines := h.mem_lines_iff hreport.lines
  have hobjects : ∀ line n, line ∈ report.lines ∧ line.inum? = some n ↔
      ∃ ls, (tree img.blks).Leads 2 ls n ∧ line = objectLine img (pathText ls) n := by
    intro line n
    constructor
    · rintro ⟨hline, hinum⟩
      obtain ⟨ls, n', found, hleads, hvisited, -, hmem⟩ := (hlines line).mp hline
      obtain ⟨rfl, rfl⟩ := (hvisited.object line n).mp ⟨hmem, hinum⟩
      exact ⟨ls, hleads, rfl⟩
    · rintro ⟨ls, hleads, rfl⟩
      obtain ⟨found, hvisit⟩ := h.visit_ok (hleads.reach .root) (pathText ls)
      have hvisited := visited_of_visit hvisit
      obtain ⟨hmem, hinum⟩ := (hvisited.object _ n).mpr ⟨rfl, rfl⟩
      exact ⟨(hlines _).mpr ⟨ls, n, found, hleads, hvisited, hvisit, hmem⟩, hinum⟩
  refine ⟨hreport.badMagic, hreport.badSize, hreport.used, fun n => ?_, hobjects, fun b m => ?_, ?_⟩
  · rw [hreport.found]
    constructor
    · rintro ⟨-, line, hline, hinum⟩
      obtain ⟨ls, hleads, -⟩ := (hobjects line n).mp ⟨hline, hinum⟩
      exact hleads.reach .root
    · intro hn
      obtain ⟨ls, hleads⟩ := hn.leads
      obtain ⟨hline, hinum⟩ := (hobjects _ n).mpr ⟨ls, hleads, rfl⟩
      exact ⟨h.range n hn.inUse, _, hline, hinum⟩
  · rw [List.mem_filterMap]
    constructor
    · rintro ⟨line, hline, hmark⟩
      obtain ⟨ls, n, found, hleads, hvisited, -, hmem⟩ := (hlines line).mp hline
      have hn := hleads.reach .root
      obtain ⟨rfl, hb⟩ := (hvisited.marks b m).mp (List.mem_filterMap.mpr ⟨line, hmem, hmark⟩)
      refine ⟨?_, rfl⟩
      rcases hb with rfl | ⟨-, i, hi, hptr⟩
      · exact hn.inUse
      · exact ⟨_, .cell hn (tree_cell_eq_some.mpr ⟨xblks_eq_numBlocks _ ▸ hi, hptr⟩)⟩
    · rintro ⟨⟨use, huse⟩, rfl⟩
      have hprints : ∀ n, (tree img.blks).Reach n → (b = n ∨ ∃ i, (tree img.blks).cell n i = some b) →
          ∃ line ∈ report.lines, line.mark? = some (b, bitTest (img.blks 1) b) := by
        intro n hn hb
        obtain ⟨ls, hleads⟩ := hn.leads
        obtain ⟨found, hvisit⟩ := h.visit_ok hn (pathText ls)
        have hvisited := visited_of_visit hvisit
        have hmark : (b, bitTest (img.blks 1) b) ∈ found.1.filterMap Line.mark? := by
          refine (hvisited.marks _ _).mpr ⟨rfl, hb.imp id ?_⟩
          rintro ⟨i, hcell⟩
          obtain ⟨hi, hptr⟩ := tree_cell_eq_some.mp hcell
          exact ⟨(h.inodes n hn).kind, i, xblks_eq_numBlocks _ ▸ hi, hptr⟩
        obtain ⟨line, hmem, hline⟩ := List.mem_filterMap.mp hmark
        exact ⟨line, (hlines _).mpr ⟨ls, n, found, hleads, hvisited, hvisit, hmem⟩, hline⟩
      cases huse with
      | root => exact hprints 2 .root (Or.inl rfl)
      | edge hn he => exact hprints b (hn.step he) (Or.inl rfl)
      | cell hn hcell => exact hprints _ hn (Or.inr ⟨_, hcell⟩)
  · refine List.any_eq_false.mpr fun line hline hbad => ?_
    obtain ⟨ls, n, found, hleads, hvisited, -, hmem⟩ := (hlines line).mp hline
    obtain ⟨hreg, hdir⟩ := hvisited.badMode.mp (List.any_eq_true.mpr ⟨line, hmem, hbad⟩)
    rcases (h.inodes n (hleads.reach .root)).kind with hkind | hkind
    · cases hkind.symm.trans hreg
    · cases hkind.symm.trans hdir

/-- The program ends, within a depth of as many calls as the image has blocks. -/
theorem reports (hdepth : img.nblks ≤ depth) : ∃ report, readImg img depth = .ok report := by
  obtain ⟨lines, hlines⟩ : ∃ lines, iter img depth [] 2 = .ok lines :=
    walk_ok_iff_ends.mpr (h.ends (show (tree img.blks).Leads 2 [] 2 from rfl) (by simpa using hdepth))
  have htwo := h.range 2 Graph.Reach.root.inUse
  obtain ⟨marks, hmarks⟩ : ∃ marks, (List.range img.nblks).mapM img.marked = .ok marks :=
    mapM_ok fun i hi => ⟨_, marked_ok h.bits (List.mem_range.mp hi)⟩
  rw [readImg, if_neg (not_not.mpr h.length), Image.blk, if_pos (by omega), exceptBind_ok, Image.blk,
    if_pos (by omega), exceptBind_ok, hmarks, exceptBind_ok, hlines, exceptBind_ok]
  exact ⟨_, rfl⟩

end Readable

/-- A report that shows the tree has nothing wrong exactly if the superblock is right and all blocks in use are
marked. -/
theorem Shown.clean_iff {img : Image} {report : Report} (h : Shown img report) : report.Clean ↔
    Words.le32 (img.blks 0).byte 0 = fsMagic ∧ Words.le32 (img.blks 0).byte 4 = img.nblks ∧
      Covers (img.blks 1) img.blks := by
  constructor
  · intro hclean
    have hmagic := of_decide_eq_false (h.badMagic.symm.trans hclean.magic)
    have hsize := of_decide_eq_false (h.badSize.symm.trans hclean.size)
    exact ⟨not_not.mp hmagic, not_not.mp hsize, fun b hb => hclean.marks b _ ((h.marks b _).mpr ⟨hb, rfl⟩)⟩
  · rintro ⟨hmagic, hsize, hcovers⟩
    refine ⟨?_, ?_, fun b m hb => ?_, h.modes⟩
    · rw [h.badMagic]
      exact decide_eq_false (not_not.mpr hmagic)
    · rw [h.badSize]
      exact decide_eq_false (not_not.mpr hsize)
    · obtain ⟨huse, rfl⟩ := (h.marks b m).mp hb
      exact hcovers b huse

/-- On an image whose blocks are used once the program ends, within a depth of as many calls as the image has blocks.
Its report shows the tree, and finds nothing wrong exactly if the superblock is right and all blocks in use are
marked. -/
theorem readImg_shown {img : Image} {depth : Nat} (h : Readable img) (hdepth : img.nblks ≤ depth) :
    ∃ report, readImg img depth = .ok report ∧ Shown img report ∧
      (report.Clean ↔ Words.le32 (img.blks 0).byte 0 = fsMagic ∧ Words.le32 (img.blks 0).byte 4 = img.nblks ∧
        Covers (img.blks 1) img.blks) := by
  obtain ⟨report, hreport⟩ := h.reports hdepth
  have hshown := h.shown (reported_of_readImg hreport)
  exact ⟨report, hreport, hshown, hshown.clean_iff⟩

/-! ### Loops -/

/-- The walk does not end before the way down does. -/
theorem length_lt_of_ends {img : Image} {depth n m : Nat} {name : List UInt8} {ls : List (List UInt8)}
    (hends : Ends (visit img) depth (name, n)) (hleads : (tree img.blks).Leads n ls m) : ls.length < depth := by
  induction ls generalizing depth n name with
  | nil =>
      cases hends with
      | intro _ _ => exact Nat.succ_pos _
  | cons l ls ih =>
      obtain ⟨slot, k, hedge, hrest⟩ := hleads
      cases hends with
      | intro hvisit hbelow =>
          obtain ⟨hslot, hentry⟩ := tree_edge_eq_some.mp hedge
          have hlt : slot.1.val < xblks (inodeAt img.blks n) := xblks_eq_numBlocks _ ▸ hslot.lt_numBlocks
          have hchild := ((visited_of_visit hvisit).children _).mpr ⟨hslot.1, slot, hlt, l, k, hentry, rfl⟩
          exact Nat.succ_lt_succ (ih (hbelow _ hchild) hrest)

/-- Where entries lead from a directory back to it, there is no report, whatever the depth. -/
theorem not_readImg_of_loop {img : Image} {ls ls' : List (List UInt8)} {n : Nat}
    (hleads : (tree img.blks).Leads 2 ls n) (hloop : (tree img.blks).Leads n ls' n) (hne : ls' ≠ []) (depth : Nat)
    (report : Report) : readImg img depth ≠ .ok report := by
  intro h
  have hends : Ends (visit img) depth ([], 2) := walk_ok_iff_ends.mp ⟨_, (reported_of_readImg h).lines⟩
  -- going round the loop makes ways of any length
  have hround : ∀ rounds, ∃ way, (tree img.blks).Leads 2 way n ∧ rounds ≤ way.length := by
    intro rounds
    induction rounds with
    | zero => exact ⟨ls, hleads, Nat.zero_le _⟩
    | succ rounds ih =>
        obtain ⟨way, hway, hlength⟩ := ih
        have hpos := List.length_pos_iff.mpr hne
        exact ⟨way ++ ls', Graph.leads_append.mpr ⟨n, hway, hloop⟩, by rw [List.length_append]; omega⟩
  obtain ⟨way, hway, hlength⟩ := hround depth
  have hlt := length_lt_of_ends hends hway
  omega

/-! ### Image files -/

/-- The image file that holds the disk. -/
def imageFile (fs : Fs) : Image := ⟨fs.diskSize * 4096, fs.disk⟩

@[simp] theorem nblks_imageFile (fs : Fs) : (imageFile fs).nblks = fs.diskSize :=
  Nat.mul_div_cancel _ (by decide)

/-- The check of the names: all bytes are in ASCII. -/
def asciiCheck (disk : Nat → Block) : Bool :=
  let nodes := collect disk maxPathLen 2
  decide (Closed disk nodes) && nodes.all fun n => (edgeList disk n).all fun entry => entry.2.1.all (decide <| · < 128)

theorem ascii_of_asciiCheck {disk : Nat → Block} (h : asciiCheck disk = true) : Ascii disk := by
  simp only [asciiCheck, Bool.and_eq_true, decide_eq_true_eq, List.all_eq_true] at h
  exact fun n slot label m hn hedge => h.2 n (h.1.mem_of_reach hn) _ (mem_edgeList hedge)

instance (inode : Inode) : Decidable (Legible inode) :=
  decidable_of_iff ((S_ISREG inode.mode = true ∨ S_ISDIR inode.mode = true) ∧ inode.numBlocks ≤ numPtrs ∧
      (S_ISDIR inode.mode = true → inode.numBlocks = inode.dirBlocks))
    ⟨fun h => ⟨h.1, h.2.1, h.2.2⟩, fun h => ⟨h.kind, h.fits, h.whole⟩⟩

theorem readable_sampleImage : Readable (imageFile sampleImage) where
  length := by decide
  bits := by decide
  exclusive := sound_sampleImage.exclusive
  range b hb := (sound_sampleImage.range b hb).2
  inodes n hn :=
    of_decide_eq_true (allInodes_of_inodeCheck (P := fun inode => decide (Legible inode)) (by decide +kernel) n hn)
  ascii := ascii_of_asciiCheck (by decide +kernel)

theorem readImg_shown_sampleImage : ∃ report, readImg (imageFile sampleImage) 16 = .ok report ∧
    Shown (imageFile sampleImage) report ∧
      (report.Clean ↔ Words.le32 (sampleImage.disk 0).byte 0 = fsMagic ∧
        Words.le32 (sampleImage.disk 0).byte 4 = (imageFile sampleImage).nblks ∧
        Covers (sampleImage.disk 1) sampleImage.disk) :=
  readImg_shown readable_sampleImage (nblks_imageFile sampleImage).le

theorem mounts_of_readImg_sampleImage : ∃ report fs, readImg (imageFile sampleImage) 16 = .ok report ∧ report.Clean ∧
    fsInit (quietEnv 0) sampleImage.disk = some fs ∧ fs.disk = sampleImage.disk ∧
    fs.diskSize = (imageFile sampleImage).nblks ∧ Covers fs.bitmap fs.disk ∧
    ∀ n, (tree fs.disk).Reach n → n ∈ report.found := by
  obtain ⟨report, hreport⟩ := readable_sampleImage.reports (nblks_imageFile sampleImage).le
  have hclean := (readable_sampleImage.shown (reported_of_readImg hreport)).clean_iff.mpr
    ⟨by decide, by decide, sound_sampleImage.covers⟩
  obtain ⟨fs, hmounts⟩ := mounts_of_readImg hreport hclean (quietEnv 0) (quiet_quietEnv 0)
  exact ⟨report, fs, hreport, hclean, hmounts⟩

/-- A root directory with an entry `d` for itself. -/
def loopImage : Image := imageFile (imageOf 16 [2, 3]
  [(2, (inodeOf (S_IFDIR ||| 0o777) 4096 [3]).toBlock), (3, entriesOf [(nameD, 2)])])

theorem not_readImg_of_loop_loopImage : ¬∃ report, readImg loopImage 1000 = .ok report := by
  have hedge : (tree loopImage.blks).edge 2 (0, 0) = some (nameD.bytes, 2) := by decide +kernel
  have hloop : (tree loopImage.blks).Leads 2 [nameD.bytes] 2 := ⟨(0, 0), 2, hedge, rfl⟩
  rintro ⟨report, hreport⟩
  exact not_readImg_of_loop (show (tree loopImage.blks).Leads 2 [] 2 from rfl) hloop (List.cons_ne_nil _ _) 1000 report
    hreport

end Fs5600.ReadImg
