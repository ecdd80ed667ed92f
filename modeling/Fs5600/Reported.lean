import Fs5600.ReadImg
import Fs5600.Crash

/-! What `read-img.py` finds: it goes down the tree of the image, and prints the mark of every block in use. -/

namespace Fs5600.ReadImg

open Traverse Ownership

/-! ### The bitmap -/

theorem byte_le32 (bytes : Nat → UInt8) (offset : Nat) {k : Nat} (hk : k < 4) :
    Words.le32 bytes offset / 256 ^ k % 256 = (bytes (offset + k)).toNat := by
  have h0 := (bytes offset).toNat_lt
  have h1 := (bytes (offset + 1)).toNat_lt
  have h2 := (bytes (offset + 2)).toNat_lt
  have h3 := (bytes (offset + 2 + 1)).toNat_lt
  have hassoc : offset + 2 + 1 = offset + 3 := rfl
  rw [hassoc] at h3
  simp only [Words.le32, Words.le16, hassoc]
  interval_cases k
  · simp only [Nat.pow_zero, Nat.div_one, Nat.add_zero]
    omega
  · rw [Nat.pow_one]
    omega
  · omega
  · omega

/-- The words of 32 bits hold the bits where `bit_test` looks. -/
theorem get_bitmapOf (block : Block) (i : Nat) : (bitmapOf block).get i = bitTest block i := by
  have hlt : i % 8 < 8 := Nat.mod_lt _ (by omega)
  have hplace : i % 32 = 8 * (i / 8 % 4) + i % 8 := by omega
  have hbyte : 4 * (i / 32) + i / 8 % 4 = i / 8 := by omega
  have hword := byte_le32 block.byte (4 * (i / 32)) (show i / 8 % 4 < 4 by omega)
  have hpow : 256 ^ (i / 8 % 4) = 2 ^ (8 * (i / 8 % 4)) := (pow_mul 2 8 _).symm
  rw [hbyte, hpow] at hword
  rw [bitTest_eq_getLsbD, GenDisk.Bitmap.get_eq_testBit, ← BitVec.testBit_toNat, UInt8.toNat_toBitVec, ← hword, bitmapOf,
    show 256 = 2 ^ 8 from rfl, Nat.testBit_mod_two_pow, decide_eq_true hlt, Bool.true_and, Nat.testBit_div_two_pow,
    hplace, Nat.add_comm]

/-! ### One object -/

/-- The block a line is about, and its mark. -/
def Line.mark? : Line → Option (Nat × Bool)
  | .inode inum _ _ _ _ _ marked => some (inum, marked)
  | .block lba marked => some (lba, marked)
  | _ => none

/-- The line says that the type of an inode is neither that of a file nor that of a directory. -/
def Line.isBadMode : Line → Bool
  | .badMode _ => true
  | _ => false

/-- The line about an object itself. -/
def objectLine (img : Image) (name : List UInt8) (inum : Nat) : Line :=
  .inode inum (if name = [] then [slash] else name) (inodeAt img.blks inum).uid (inodeAt img.blks inum).gid
    (inodeAt img.blks inum).mode (inodeAt img.blks inum).size.toInt (bitTest (img.blks 1) inum)

/-- What `iter` goes through before its last loop: the blocks whose marks it prints, and the children. -/
structure Visited (img : Image) (name : List UInt8) (inum : Nat) (found : List Line × List (List UInt8 × Nat)) :
    Prop where
  range : inum < img.nblks
  object : ∀ line n, line ∈ found.1 ∧ line.inum? = some n ↔ line = objectLine img name inum ∧ n = inum
  marks : ∀ b m, (b, m) ∈ found.1.filterMap Line.mark? ↔ m = bitTest (img.blks 1) b ∧ (b = inum ∨
    ((S_ISREG (inodeAt img.blks inum).mode = true ∨ S_ISDIR (inodeAt img.blks inum).mode = true) ∧
      ∃ i : Fin numPtrs, i.val < xblks (inodeAt img.blks inum) ∧ ((inodeAt img.blks inum).ptrs i).toNat = b))
  badMode : found.1.any Line.isBadMode = true ↔
    S_ISREG (inodeAt img.blks inum).mode = false ∧ S_ISDIR (inodeAt img.blks inum).mode = false
  children : ∀ child, child ∈ found.2 ↔ S_ISDIR (inodeAt img.blks inum).mode = true ∧
    ∃ slot : Slot, slot.1.val < xblks (inodeAt img.blks inum) ∧ ∃ label m,
      (direntAt img.blks inum slot).edge = some (label, m) ∧ child = (name ++ slash :: label, m)

section Visit

variable {img : Image} {name : List UInt8} {inum : Nat} {inode : Inode} {i : Nat}

theorem marked_eq_ok {m : Bool} (h : img.marked i = .ok m) : m = bitTest (img.blks 1) i := by
  rw [Image.marked] at h
  split at h
  · rw [← get_bitmapOf, ← Except.ok.inj h]
  · cases h

theorem ptr_eq_ok {b : Nat} (h : ptr inode i = .ok b) : ∃ hi : i < numPtrs, (inode.ptrs ⟨i, hi⟩).toNat = b := by
  rw [ptr] at h
  split at h
  · exact ⟨‹_›, Except.ok.inj h⟩
  · cases h

theorem fileLine_eq_ok {line : Line} (h : fileLine img inode i = .ok line) :
    ∃ hi : i < numPtrs, line = .block (inode.ptrs ⟨i, hi⟩).toNat (bitTest (img.blks 1) (inode.ptrs ⟨i, hi⟩).toNat) := by
  obtain ⟨dblk, hptr, h⟩ := exceptBind_eq_ok h
  obtain ⟨m, hmarked, h⟩ := exceptBind_eq_ok h
  obtain ⟨hi, rfl⟩ := ptr_eq_ok hptr
  exact ⟨hi, by rw [← marked_eq_ok hmarked]; exact (Except.ok.inj h).symm⟩

theorem entryLine_eq_ok {block : Block} {slot : Fin direntsPerBlock} {es : List (Line × (List UInt8 × Nat))}
    (h : entryLine name block slot = .ok es) :
    (∀ e ∈ es, ∃ label m, (block.dirent slot).edge = some (label, m) ∧
        e = (.entry slot label m, (name ++ slash :: label, m))) ∧
      ∀ label m, (block.dirent slot).edge = some (label, m) →
        (.entry slot label m, (name ++ slash :: label, m)) ∈ es := by
  rw [entryLine] at h
  cases hvalid : (block.dirent slot).valid with
  | false =>
      rw [if_neg (by simp [hvalid])] at h
      obtain rfl := Except.ok.inj h
      refine ⟨by simp, fun label m hedge => ?_⟩
      cases hvalid.symm.trans (Dirent.edge_eq_some.mp hedge).1
  | true =>
      rw [if_pos hvalid] at h
      obtain ⟨label, hlabel, h⟩ := exceptBind_eq_ok h
      obtain rfl := Except.ok.inj h
      have hname : (block.dirent slot).storedName = label := by
        rw [decode] at hlabel
        split at hlabel
        · exact Except.ok.inj hlabel
        · cases hlabel
      have hedge := Dirent.edge_eq_some.mpr ⟨hvalid, hname, rfl⟩
      refine ⟨fun e he => ⟨label, _, hedge, List.mem_singleton.mp he⟩, fun label' m hedge' => ?_⟩
      obtain ⟨rfl, rfl⟩ := Prod.mk.inj (Option.some.inj (hedge.symm.trans hedge'))
      exact List.mem_singleton_self _

/-- What one data block of a directory gives. -/
structure VisitedBlock (img : Image) (name : List UInt8) (lba : Nat) (found : List Line × List (List UInt8 × Nat)) :
    Prop where
  inums : found.1.filterMap Line.inum? = []
  marks : found.1.filterMap Line.mark? = [(lba, bitTest (img.blks 1) lba)]
  badMode : found.1.any Line.isBadMode = false
  children : ∀ child, child ∈ found.2 ↔ ∃ s label m,
    ((img.blks lba).dirent s).edge = some (label, m) ∧ child = (name ++ slash :: label, m)

theorem visitedBlock_of_dirLines {found : List Line × List (List UInt8 × Nat)}
    (h : dirLines img name inode i = .ok found) :
    ∃ hi : i < numPtrs, VisitedBlock img name (inode.ptrs ⟨i, hi⟩).toNat found := by
  obtain ⟨dblk, hptr, hrest⟩ := exceptBind_eq_ok h
  obtain ⟨m, hmarked, hrest'⟩ := exceptBind_eq_ok hrest
  obtain ⟨block, hblock, hrest''⟩ := exceptBind_eq_ok hrest'
  obtain ⟨parts, hparts, hfound⟩ := exceptBind_eq_ok hrest''
  obtain rfl := Except.ok.inj hfound
  obtain ⟨hi, rfl⟩ := ptr_eq_ok hptr
  obtain rfl := marked_eq_ok hmarked
  obtain rfl : img.blks (inode.ptrs ⟨i, hi⟩).toNat = block := by
    rw [Image.blk] at hblock
    split at hblock
    · exact Except.ok.inj hblock
    · cases hblock
  obtain ⟨hall, hback⟩ := mapM_eq_ok hparts
  have hentry : ∀ e ∈ parts.flatten, ∃ s label m, ((img.blks (inode.ptrs ⟨i, hi⟩).toNat).dirent s).edge = some (label, m) ∧
      e = (.entry s label m, (name ++ slash :: label, m)) := by
    intro e he
    obtain ⟨part, hpart, he⟩ := List.mem_flatten.mp he
    obtain ⟨s, -, hs⟩ := hback part hpart
    obtain ⟨label, m, hedge, heq⟩ := (entryLine_eq_ok hs).1 e he
    exact ⟨s, label, m, hedge, heq⟩
  have hlines : ∀ line ∈ parts.flatten.map Prod.fst, ∃ s label m, line = .entry s label m := by
    intro line hline
    obtain ⟨e, he, rfl⟩ := List.mem_map.mp hline
    obtain ⟨s, label, m, -, rfl⟩ := hentry e he
    exact ⟨s, label, m, rfl⟩
  refine ⟨hi, ⟨?_, ?_, ?_, fun child => ?_⟩⟩
  · refine List.filterMap_eq_nil_iff.mpr (List.forall_mem_cons.mpr ⟨rfl, fun line hline => ?_⟩)
    obtain ⟨s, label, m, rfl⟩ := hlines line hline
    rfl
  · refine congrArg (List.cons _) (List.filterMap_eq_nil_iff.mpr fun line hline => ?_)
    obtain ⟨s, label, m, rfl⟩ := hlines line hline
    rfl
  · refine List.any_eq_false.mpr (List.forall_mem_cons.mpr ⟨by simp [Line.isBadMode], fun line hline => ?_⟩)
    obtain ⟨s, label, m, rfl⟩ := hlines line hline
    simp [Line.isBadMode]
  · constructor
    · intro hchild
      obtain ⟨e, he, rfl⟩ := List.mem_map.mp hchild
      obtain ⟨s, label, m, hedge, rfl⟩ := hentry e he
      exact ⟨s, label, m, hedge, rfl⟩
    · rintro ⟨s, label, m, hedge, rfl⟩
      obtain ⟨part, hpart, hs⟩ := hall s (List.mem_finRange s)
      exact List.mem_map.mpr ⟨_, List.mem_flatten.mpr ⟨part, hpart, (entryLine_eq_ok hs).2 label m hedge⟩, rfl⟩

end Visit

/-! ### A visit -/

theorem xblks_eq_numBlocks (inode : Inode) : xblks inode = inode.numBlocks := by
  rw [xblks, Inode.numBlocks, fsBlockSize]
  omega

section Found

variable {img : Image} {name : List UInt8} {inum count : Nat} {inode : Inode}

/-- What the data blocks of a file give together. -/
theorem mem_fileLines {lines : List Line} (h : (List.range count).mapM (fileLine img inode) = .ok lines) (line : Line) :
    line ∈ lines ↔ ∃ i : Fin numPtrs, i.val < count ∧
      line = .block (inode.ptrs i).toNat (bitTest (img.blks 1) (inode.ptrs i).toNat) := by
  obtain ⟨hall, hback⟩ := mapM_eq_ok h
  constructor
  · intro hline
    obtain ⟨i, hi, hfile⟩ := hback line hline
    obtain ⟨hlt, heq⟩ := fileLine_eq_ok hfile
    exact ⟨⟨i, hlt⟩, List.mem_range.mp hi, heq⟩
  · intro hline
    obtain ⟨i, hi, heq⟩ := hline
    obtain ⟨line', hline', hfile⟩ := hall i (List.mem_range.mpr hi)
    obtain ⟨hlt, heq'⟩ := fileLine_eq_ok hfile
    rwa [heq, ← heq']

/-- What the data blocks of a directory give together. -/
theorem visited_dirLines {parts : List (List Line × List (List UInt8 × Nat))}
    (h : (List.range count).mapM (dirLines img name inode) = .ok parts) :
    (∀ i : Fin numPtrs, i.val < count → ∃ part ∈ parts, VisitedBlock img name (inode.ptrs i).toNat part) ∧
      ∀ part ∈ parts, ∃ i : Fin numPtrs, i.val < count ∧ VisitedBlock img name (inode.ptrs i).toNat part := by
  obtain ⟨hall, hback⟩ := mapM_eq_ok h
  constructor
  · intro i hi
    obtain ⟨part, hpart, hlines⟩ := hall i (List.mem_range.mpr hi)
    obtain ⟨hlt, hvisited⟩ := visitedBlock_of_dirLines hlines
    exact ⟨part, hpart, hvisited⟩
  · intro part hpart
    obtain ⟨i, hi, hlines⟩ := hback part hpart
    obtain ⟨hlt, hvisited⟩ := visitedBlock_of_dirLines hlines
    exact ⟨⟨i, hlt⟩, List.mem_range.mp hi, hvisited⟩

/-- A visit of a file. -/
theorem visited_file (hrange : inum < img.nblks) (hreg : S_ISREG (inodeAt img.blks inum).mode = true)
    {lines : List Line}
    (hlines : (List.range (xblks (inodeAt img.blks inum))).mapM (fileLine img (inodeAt img.blks inum)) = .ok lines) :
    Visited img name inum (objectLine img name inum :: lines, []) := by
  have hmem := mem_fileLines hlines
  have hdir := S_ISDIR_eq_false_of_isReg hreg
  refine ⟨hrange, fun line n => ?_, fun b mark => ?_, ?_, fun child => ?_⟩
  · constructor
    · rintro ⟨hline, hinum⟩
      rcases List.mem_cons.mp hline with rfl | hline
      · exact ⟨rfl, (Option.some.inj hinum).symm⟩
      · obtain ⟨i, -, rfl⟩ := (hmem line).mp hline
        cases hinum
    · rintro ⟨rfl, rfl⟩
      exact ⟨List.mem_cons_self, rfl⟩
  · constructor
    · intro hb
      obtain ⟨line, hline, hmark⟩ := List.mem_filterMap.mp hb
      rcases List.mem_cons.mp hline with rfl | hline
      · obtain ⟨rfl, rfl⟩ := Prod.mk.inj (Option.some.inj hmark)
        exact ⟨rfl, Or.inl rfl⟩
      · obtain ⟨i, hi, rfl⟩ := (hmem line).mp hline
        obtain ⟨rfl, rfl⟩ := Prod.mk.inj (Option.some.inj hmark)
        exact ⟨rfl, Or.inr ⟨Or.inl hreg, i, hi, rfl⟩⟩
    · rintro ⟨rfl, rfl | ⟨-, i, hi, rfl⟩⟩
      · exact List.mem_filterMap.mpr ⟨_, List.mem_cons_self, rfl⟩
      · exact List.mem_filterMap.mpr ⟨_, List.mem_cons_of_mem _ ((hmem _).mpr ⟨i, hi, rfl⟩), rfl⟩
  · constructor
    · intro hbad
      obtain ⟨line, hline, hbad⟩ := List.any_eq_true.mp hbad
      rcases List.mem_cons.mp hline with rfl | hline
      · cases hbad
      · obtain ⟨i, -, rfl⟩ := (hmem line).mp hline
        cases hbad
    · rintro ⟨hnot, -⟩
      cases hreg.symm.trans hnot
  · constructor
    · intro hchild
      cases hchild
    · rintro ⟨hdir', -⟩
      cases hdir.symm.trans hdir'

/-- A visit of a directory. -/
theorem visited_dir (hrange : inum < img.nblks) (hdir : S_ISDIR (inodeAt img.blks inum).mode = true)
    {parts : List (List Line × List (List UInt8 × Nat))}
    (hparts : (List.range (xblks (inodeAt img.blks inum))).mapM (dirLines img name (inodeAt img.blks inum)) = .ok parts) :
    Visited img name inum (objectLine img name inum :: parts.flatMap Prod.fst, parts.flatMap Prod.snd) := by
  obtain ⟨hall, hback⟩ := visited_dirLines hparts
  have hline : ∀ {line}, line ∈ objectLine img name inum :: parts.flatMap Prod.fst ↔
      line = objectLine img name inum ∨ ∃ part ∈ parts, line ∈ part.1 := by
    intro line
    rw [List.mem_cons, List.mem_flatMap]
  refine ⟨hrange, fun line n => ?_, fun b mark => ?_, ?_, fun child => ?_⟩
  · constructor
    · rintro ⟨hmem, hinum⟩
      rcases hline.mp hmem with rfl | ⟨part, hpart, hmem⟩
      · exact ⟨rfl, (Option.some.inj hinum).symm⟩
      · obtain ⟨i, -, hvisited⟩ := hback part hpart
        have hn' : n ∈ part.1.filterMap Line.inum? := List.mem_filterMap.mpr ⟨line, hmem, hinum⟩
        rw [hvisited.inums] at hn'
        cases hn'
    · rintro ⟨rfl, rfl⟩
      exact ⟨List.mem_cons_self, rfl⟩
  · constructor
    · intro hb
      obtain ⟨line, hmem, hmark⟩ := List.mem_filterMap.mp hb
      rcases hline.mp hmem with rfl | ⟨part, hpart, hmem⟩
      · obtain ⟨rfl, rfl⟩ := Prod.mk.inj (Option.some.inj hmark)
        exact ⟨rfl, Or.inl rfl⟩
      · obtain ⟨i, hi, hvisited⟩ := hback part hpart
        have hb' : (b, mark) ∈ part.1.filterMap Line.mark? := List.mem_filterMap.mpr ⟨line, hmem, hmark⟩
        rw [hvisited.marks] at hb'
        obtain ⟨rfl, rfl⟩ := Prod.mk.inj (List.mem_singleton.mp hb')
        exact ⟨rfl, Or.inr ⟨Or.inr hdir, i, hi, rfl⟩⟩
    · rintro ⟨rfl, rfl | ⟨-, i, hi, rfl⟩⟩
      · exact List.mem_filterMap.mpr ⟨_, List.mem_cons_self, rfl⟩
      · obtain ⟨part, hpart, hvisited⟩ := hall i hi
        have hb : ((((inodeAt img.blks inum).ptrs i).toNat, _) : Nat × Bool) ∈ part.1.filterMap Line.mark? :=
          hvisited.marks ▸ List.mem_singleton_self _
        obtain ⟨line, hmem, hmark⟩ := List.mem_filterMap.mp hb
        exact List.mem_filterMap.mpr ⟨line, hline.mpr (Or.inr ⟨part, hpart, hmem⟩), hmark⟩
  · constructor
    · intro hbad
      obtain ⟨line, hmem, hbad⟩ := List.any_eq_true.mp hbad
      rcases hline.mp hmem with rfl | ⟨part, hpart, hmem⟩
      · cases hbad
      · obtain ⟨i, -, hvisited⟩ := hback part hpart
        cases hvisited.badMode.symm.trans (List.any_eq_true.mpr ⟨line, hmem, hbad⟩)
    · rintro ⟨-, hnot⟩
      cases hdir.symm.trans hnot
  · rw [List.mem_flatMap]
    constructor
    · rintro ⟨part, hpart, hchild⟩
      obtain ⟨i, hi, hvisited⟩ := hback part hpart
      obtain ⟨s, label, n, hedge, heq⟩ := (hvisited.children child).mp hchild
      exact ⟨hdir, (i, s), hi, label, n, hedge, heq⟩
    · rintro ⟨-, ⟨i, s⟩, hi, label, n, hedge, heq⟩
      obtain ⟨part, hpart, hvisited⟩ := hall i hi
      exact ⟨part, hpart, (hvisited.children child).mpr ⟨s, label, n, hedge, heq⟩⟩

/-- A visit that succeeds goes through one object. -/
theorem visited_of_visit {found : List Line × List (List UInt8 × Nat)} (h : visit img (name, inum) = .ok found) :
    Visited img name inum found := by
  unfold visit at h
  dsimp only at h
  by_cases hrange : inum < img.nblks
  · rw [if_neg (not_not.mpr hrange)] at h
    obtain ⟨m, hmarked, hrest⟩ := exceptBind_eq_ok h
    obtain rfl := marked_eq_ok hmarked
    by_cases hreg : S_ISREG (Inode.ofBlock (img.blks inum)).mode = true
    · rw [if_pos hreg] at hrest
      obtain ⟨lines, hlines, hfound⟩ := exceptBind_eq_ok hrest
      obtain rfl := Except.ok.inj hfound
      exact visited_file hrange hreg hlines
    · rw [if_neg hreg] at hrest
      by_cases hdir : S_ISDIR (Inode.ofBlock (img.blks inum)).mode = true
      · rw [if_pos hdir] at hrest
        obtain ⟨parts, hparts, hfound⟩ := exceptBind_eq_ok hrest
        obtain rfl := Except.ok.inj hfound
        exact visited_dir hrange hdir hparts
      · rw [if_neg hdir] at hrest
        obtain rfl := Except.ok.inj hrest
        have hreg' : S_ISREG (inodeAt img.blks inum).mode = false := Bool.eq_false_iff.mpr hreg
        have hdir' : S_ISDIR (inodeAt img.blks inum).mode = false := Bool.eq_false_iff.mpr hdir
        refine ⟨hrange, fun line n => ?_, fun b mark => ?_, ?_, fun child => ?_⟩
        · constructor
          · rintro ⟨hline, hinum⟩
            rcases List.mem_pair.mp hline with rfl | rfl
            · exact ⟨rfl, (Option.some.inj hinum).symm⟩
            · cases hinum
          · rintro ⟨rfl, rfl⟩
            exact ⟨List.mem_cons_self, rfl⟩
        · have hmarks : (b, mark) ∈ [(inum, bitTest (img.blks 1) inum)] ↔ b = inum ∧ mark = bitTest (img.blks 1) inum := by
            rw [List.mem_singleton, Prod.mk.injEq]
          refine hmarks.trans ⟨?_, ?_⟩
          · rintro ⟨rfl, rfl⟩
            exact ⟨rfl, Or.inl rfl⟩
          · rintro ⟨rfl, rfl | ⟨hkind, -⟩⟩
            · exact ⟨rfl, rfl⟩
            · simp [hreg', hdir'] at hkind
        · simp [Line.isBadMode, hreg', hdir']
        · simp [hdir']
  · rw [if_pos hrange] at h
    cases h

end Found

end Fs5600.ReadImg
